import Xhyper.BlkRuns
import Xhyper.Vgic

/-!
# The enable bits of shared interrupts

A guest enables interrupts by writing ones to `ISENABLER` registers and disables them by
writing ones to `ICENABLER` registers.  The virtual distributor keeps the state in its
records and passes it on to the physical one.

`vgicd_write` counts the interrupts of an `ICENABLER` register from the base of
`ISENABLER`, so it clears records behind the array and writes a pending register of the
physical distributor: such a write disables nothing.  After any sequence of writes the
enabled interrupts are therefore those that some write enabled, and the sequences for which
this is right are those in which no interrupt was disabled after it had been enabled.

## Main definitions

* `EnableWrite`, `execWrites` — writes by any virtual CPUs of one machine.
* `VgicReady` — a virtual distributor between two writes.
* `lastWrite`, `Coherent` — what the enable bits should be.
* `vgicd_enable_coherent` — when they are.
-/

namespace Xhyper

open Memory Prog

/-! ## The physical distributor -/

/-- What `gic_enable_int` does to the distributor for a shared interrupt. -/
def Gicd.setEnable (d : Gicd) (irq : ℕ) : Gicd :=
  d.write (gicdIsenabler (irq / 32)) (d.read (gicdIsenabler (irq / 32)) ||| 1#32 <<< (irq % 32))

/-- What `gic_disable_int` does to it. -/
def Gicd.clearEnable (d : Gicd) (irq : ℕ) : Gicd :=
  d.write (gicdIcenabler (irq / 32)) (d.read (gicdIcenabler (irq / 32)) ||| 1#32 <<< (irq % 32))

section distributor
variable {Q : Unit → Hyp → Prop} {E : Fault → Hyp → Prop} {s : Hyp} {irq : ℕ}

theorem wp_gicEnableInt (hlo : gicMinSpi0 ≤ irq) (hhi : irq < gicMinLpi) :
    wp (gicEnableInt irq) Q E s ↔ Q () { s with gicd := s.gicd.setEnable irq } := by
  have hhi' : ¬ gicMinLpi ≤ irq := by omega
  simp only [gicEnableInt, wp_bind, wp_get, hhi', hlo, if_true, if_false]
  exact Iff.rfl

theorem wp_gicDisableInt (hlo : gicMinSpi0 ≤ irq) (hhi : irq < gicMinLpi) :
    wp (gicDisableInt irq) Q E s ↔ Q () { s with gicd := s.gicd.clearEnable irq } := by
  have hhi' : ¬ gicMinLpi ≤ irq := by omega
  simp only [gicDisableInt, wp_bind, wp_get, hhi', hlo, if_true, if_false]
  exact Iff.rfl

/-- Enabling an interrupt sets its bit and no other. -/
theorem enabled_setEnable (d : Gicd) (hirq : irq < 1024) (m : ℕ) :
    (d.setEnable irq).enabled m = (d.enabled m || decide (m = irq)) := by
  have hin : 0x100 ≤ 0x100 + irq / 32 * 4 ∧ 0x100 + irq / 32 * 4 < 0x180 := by omega
  have hn : (0x100 + irq / 32 * 4 - 0x100) / 4 = irq / 32 := by omega
  simp only [Gicd.setEnable, Gicd.write, Gicd.read, Gicd.enabled, gicdIsenabler, if_pos hin, hn]
  by_cases hm : m / 32 = irq / 32
  · rw [hm, Function.update_self]
    have hlt : m % 32 < 32 := Nat.mod_lt _ (by decide)
    simp only [BitVec.getLsbD_or, BitVec.getLsbD_shiftLeft, hlt, decide_true, Bool.true_and]
    by_cases heq : m = irq
    · subst heq
      simp
    · have hne : m % 32 ≠ irq % 32 := by omega
      by_cases hle : m % 32 < irq % 32
      · simp [heq, hle]
      · have hpos : m % 32 - irq % 32 ≠ 0 := by omega
        simp [heq, hpos]
  · rw [Function.update_of_ne hm]
    have hne : m ≠ irq := by
      intro h
      exact hm (by rw [h])
    simp [hne]

/-- A number past the implemented interrupts hits a pending register. -/
theorem enabled_clearEnable (d : Gicd) (hirq : 1024 ≤ irq) (m : ℕ) :
    (d.clearEnable irq).enabled m = d.enabled m := by
  have hset : ¬ (0x100 ≤ 0x180 + irq / 32 * 4 ∧ 0x180 + irq / 32 * 4 < 0x180) := by omega
  have hclear : ¬ (0x180 ≤ 0x180 + irq / 32 * 4 ∧ 0x180 + irq / 32 * 4 < 0x200) := by omega
  rw [Gicd.clearEnable, gicdIcenabler, Gicd.write, if_neg hset, if_neg hclear]
  rfl

end distributor

/-! ## The lock -/

section lock
variable {m m' : Mem} {a core : ℕ}

theorem distLock_setDistLock {l : Spinlock} (hlo : -2 ^ 31 ≤ l.coreid) (hhi : l.coreid < 2 ^ 31) :
    distLock (setDistLock m a l) a = l := by
  have hid : readLe (setDistLock m a l) (a + 16) 4 = (BitVec.ofInt 32 l.coreid).toNat := by
    rw [setDistLock, readLe_writeLe_of_disjoint _ (by omega), readLe_writeLe]
    exact Nat.mod_eq_of_lt (BitVec.isLt _)
  have hword : readLe (setDistLock m a l) (a + 20) 4 = l.word.toNat := by
    rw [setDistLock, readLe_writeLe]
    exact Nat.mod_eq_of_lt (BitVec.isLt _)
  rw [distLock, hid, hword, BitVec.ofNat_toNat, BitVec.ofNat_toNat, BitVec.setWidth_eq,
    BitVec.setWidth_eq, BitVec.toInt_ofInt]
  have hmod : l.coreid.bmod (2 ^ 32) = l.coreid := by
    rw [Int.bmod_def]
    omega
  rw [hmod]

/-- The lock is written to eight bytes of the distributor. -/
theorem setDistLock_outside {l : Spinlock} {x : ℕ} (hx : x ∉ block (a + 16) 8) :
    setDistLock m a l x = m x := by
  rw [setDistLock, writeLe_of_notMem, writeLe_of_notMem] <;>
  · simp only [mem_block] at hx ⊢
    omega

/-- A lock given back has zeros but for the low byte of the core's number. -/
theorem setDistLock_leftBy {x : ℕ} (hcore : core < 2 ^ 8) (hx : x ∈ block (a + 16) 8)
    (hne : x ≠ a + 16) : setDistLock m a (.leftBy core) x = 0 := by
  rw [mem_block] at hx
  have hid : (BitVec.ofInt 32 (Spinlock.leftBy core).coreid).toNat = core := by
    rw [Spinlock.leftBy, BitVec.ofInt_natCast, BitVec.toNat_ofNat]
    omega
  rw [setDistLock, hid, writeLe, writeLe]
  by_cases hword : a + 20 ≤ x ∧ x < a + 20 + 4
  · rw [if_pos hword, word_leftBy]
    simp
  · have hin : a + 16 ≤ x ∧ x < a + 16 + 4 := by omega
    have hpos : 1 ≤ x - (a + 16) := by omega
    rw [if_neg hword, if_pos hin]
    have hzero : core / 256 ^ (x - (a + 16)) = 0 := by
      refine Nat.div_eq_of_lt (lt_of_lt_of_le hcore ?_)
      calc 2 ^ 8 = 256 ^ 1 := by decide
        _ ≤ 256 ^ (x - (a + 16)) := Nat.pow_le_pow_right (by decide) hpos
    rw [hzero]
    rfl

/-- The pointer to the records is not part of the lock. -/
theorem read64_setDistLock (l : Spinlock) :
    read64 (setDistLock m a l) (a + 8) = read64 m (a + 8) := by
  rw [setDistLock, read64, readLe_writeLe_of_disjoint _ (by omega),
    readLe_writeLe_of_disjoint _ (by omega)]

/-- The lock is read from these bytes. -/
theorem distLock_of_eqOn (h : Set.EqOn m' m (block (a + 16) 8)) :
    distLock m' a = distLock m a := by
  have hpart : ∀ i, 16 ≤ i → i + 4 ≤ 24 → readLe m' (a + i) 4 = readLe m (a + i) 4 := by
    intro i hlo hhi
    exact readLe_congr (h.mono (block_subset (by omega) (by omega)))
  rw [distLock, distLock, hpart 16 (by decide) (by decide), hpart 20 (by decide) (by decide)]

theorem wp_distLock {Q : Unit → Hyp → Prop} {E : Fault → Hyp → Prop} {s : Hyp}
    (h : (distLock s.ram.mem a).word = 0) :
    wp (withDistLock a archSpinLock) Q E s ↔ Q () { s with ram := { s.ram with
      mem := setDistLock s.ram.mem a (.heldBy s.ram.core) } } := by
  simp only [withDistLock, wp_bind, wp_get, archSpinLock_of_free h, wp_set]

theorem wp_distUnlock {Q : Unit → Hyp → Prop} {E : Fault → Hyp → Prop} {s : Hyp}
    (h : distLock s.ram.mem a = .heldBy s.ram.core) :
    wp (withDistLock a archSpinUnlock) Q E s ↔ Q () { s with ram := { s.ram with
      mem := setDistLock s.ram.mem a (.leftBy s.ram.core) } } := by
  simp only [withDistLock, wp_bind, wp_get, h, archSpinUnlock_heldBy, wp_set]

end lock

/-! ## The loop over a register -/

/-- The byte `enabled` of interrupt `irq`, when the records are at `spis`. -/
def recordByte (spis irq : ℕ) : ℕ := spis + sizeofIrqConfig * (irq - 32) + 2

/-- Memory after the first `k` interrupts of a register were looked at. -/
def recordsAfter (spis irqNum : ℕ) (val : BitVec 64) (e : Byte) (k : ℕ) (m : Mem) : Mem := fun x =>
  if ∃ i < k, val.getLsbD i = true ∧ x = recordByte spis (irqNum + i) then e else m x

/-- The distributor after the first `k` interrupts of a register were looked at. -/
def gicdAfter (f : Gicd → ℕ → Gicd) (irqNum : ℕ) (val : BitVec 64) : ℕ → Gicd → Gicd
  | 0, d => d
  | k + 1, d =>
      if val.getLsbD k = true then f (gicdAfter f irqNum val k d) (irqNum + k)
      else gicdAfter f irqNum val k d

section loop
variable {s : Hyp} {v : Fin ncpu} {irqNum : ℕ} {val : BitVec 64} {e : ℕ} {op : ℕ → Exec Hyp Unit}
  {f : Gicd → ℕ → Gicd}

/-- The bytes that a write with these bits sets are neither the distributor's pointer to the
records nor its lock. -/
def Apart (spis vgicDist irqNum : ℕ) (val : BitVec 64) : Prop :=
  ∀ i < 32, val.getLsbD i = true → recordByte spis (irqNum + i) ∉ block (vgicDist + 8) 16

theorem recordsAfter_succ {spis : ℕ} {b : Byte} {k : ℕ} {m : Mem} :
    recordsAfter spis irqNum val b (k + 1) m =
      if val.getLsbD k = true then
        Function.update (recordsAfter spis irqNum val b k m) (recordByte spis (irqNum + k)) b
      else recordsAfter spis irqNum val b k m := by
  ext1 x
  by_cases hbit : val.getLsbD k = true
  · rw [if_pos hbit]
    by_cases hx : x = recordByte spis (irqNum + k)
    · subst hx
      rw [Function.update_self, recordsAfter, if_pos ⟨k, Nat.lt_succ_self k, hbit, rfl⟩]
    · rw [Function.update_of_ne hx, recordsAfter, recordsAfter]
      refine if_congr ⟨?_, ?_⟩ rfl rfl
      · rintro ⟨i, hi, hb, heq⟩
        have hik : i ≠ k := fun h => hx (h ▸ heq)
        exact ⟨i, by omega, hb, heq⟩
      · rintro ⟨i, hi, hb, heq⟩
        exact ⟨i, by omega, hb, heq⟩
  · rw [if_neg hbit, recordsAfter, recordsAfter]
    refine if_congr ⟨?_, ?_⟩ rfl rfl
    · rintro ⟨i, hi, hb, heq⟩
      have hik : i ≠ k := fun h => hbit (h ▸ hb)
      exact ⟨i, by omega, hb, heq⟩
    · rintro ⟨i, hi, hb, heq⟩
      exact ⟨i, by omega, hb, heq⟩

/-- Then it does not change these. -/
theorem recordsAfter_dist {spis vgicDist : ℕ} {b : Byte} {k : ℕ} {m : Mem}
    (hap : Apart spis vgicDist irqNum val) (hk : k ≤ 32) :
    Set.EqOn (recordsAfter spis irqNum val b k m) m (block (vgicDist + 8) 16) := by
  intro x hx
  rw [recordsAfter, if_neg]
  rintro ⟨i, hi, hb, heq⟩
  exact hap i (by omega) hb (heq ▸ hx)

/-- Where the configuration of a shared interrupt is. -/
theorem wp_vgicIrqGet_spi {Q : ℕ → Hyp → Prop} {E : Fault → Hyp → Prop} {irq : ℕ}
    (hvm : (s.vcpus v).vm ≠ 0) (hdist : (s.vms (s.vcpus v).vm).vgicDist ≠ 0) (hirq : 32 ≤ irq) :
    wp (vgicIrqGet v (irq : ℤ)) Q E s ↔
      Q (read64 s.ram.mem ((s.vms (s.vcpus v).vm).vgicDist + 8) + sizeofIrqConfig * (irq - 32))
        s := by
  have hsgi : ¬ (0 ≤ (irq : ℤ) ∧ (irq : ℤ) < 16) := by omega
  have hppi : ¬ (16 ≤ (irq : ℤ) ∧ (irq : ℤ) < 32) := by omega
  have hspi : 32 ≤ (irq : ℤ) := by omega
  simp only [vgicIrqGet, wp_bind, wp_get, if_neg hsgi, if_neg hppi, if_pos hspi, wp_derefVm hvm,
    if_neg hdist, wp_pure, Int.toNat_natCast]

/-- The state after the first `k` interrupts of a register were looked at. -/
def bitsDone (f : Gicd → ℕ → Gicd) (spis irqNum : ℕ) (val : BitVec 64) (e : Byte) (s : Hyp)
    (k : ℕ) : Hyp :=
  { s with
    ram := { s.ram with mem := recordsAfter spis irqNum val e k s.ram.mem }
    gicd := gicdAfter f irqNum val k s.gicd }

theorem bitsDone_zero {spis : ℕ} {b : Byte} : bitsDone f spis irqNum val b s 0 = s := by
  have h0 : recordsAfter spis irqNum val b 0 s.ram.mem = s.ram.mem := by
    ext1 x
    rw [recordsAfter, if_neg]
    rintro ⟨i, hi, _⟩
    exact absurd hi (Nat.not_lt_zero i)
  rw [bitsDone, h0]
  rfl

section parts
variable {spis k : ℕ} {b : Byte}

@[simp] theorem bitsDone_vms : (bitsDone f spis irqNum val b s k).vms = s.vms := rfl
@[simp] theorem bitsDone_vcpus : (bitsDone f spis irqNum val b s k).vcpus = s.vcpus := rfl
@[simp] theorem bitsDone_gicMaxSpi :
    (bitsDone f spis irqNum val b s k).gicMaxSpi = s.gicMaxSpi := rfl
@[simp] theorem bitsDone_core : (bitsDone f spis irqNum val b s k).ram.core = s.ram.core := rfl
@[simp] theorem bitsDone_mem : (bitsDone f spis irqNum val b s k).ram.mem =
    recordsAfter spis irqNum val b k s.ram.mem := rfl
@[simp] theorem bitsDone_gicd :
    (bitsDone f spis irqNum val b s k).gicd = gicdAfter f irqNum val k s.gicd := rfl

end parts

/-- An interrupt without a bit in the value is passed over. -/
theorem bitsDone_succ_of_clear {spis k : ℕ} {b : Byte} (hbit : ¬ val.getLsbD k = true) :
    bitsDone f spis irqNum val b s (k + 1) = bitsDone f spis irqNum val b s k := by
  rw [bitsDone, bitsDone, recordsAfter_succ, if_neg hbit, gicdAfter, if_neg hbit]

/-- One with a bit in it has its record written and the physical distributor told. -/
theorem bitsDone_succ_of_set {spis k : ℕ} {b : Byte} (hbit : val.getLsbD k = true) :
    bitsDone f spis irqNum val b s (k + 1) = { bitsDone f spis irqNum val b s k with
      ram := { (bitsDone f spis irqNum val b s k).ram with
        mem := Function.update (bitsDone f spis irqNum val b s k).ram.mem
          (recordByte spis (irqNum + k)) b }
      gicd := f (bitsDone f spis irqNum val b s k).gicd (irqNum + k) } := by
  rw [bitsDone, recordsAfter_succ, if_pos hbit, gicdAfter, if_pos hbit]
  rfl

/-- **The loop over a register of shared interrupts.** -/
theorem vgicdEnable_spec {E : Fault → Hyp → Prop} {spis : ℕ} (hvm : (s.vcpus v).vm ≠ 0)
    (hdist : (s.vms (s.vcpus v).vm).vgicDist ≠ 0) (hlo : gicMinSpi0 ≤ irqNum)
    (hhi : irqNum + 32 ≤ gicMinLpi)
    (hop : ∀ irq (t : Hyp) (Q : Unit → Hyp → Prop), gicMinSpi0 ≤ irq → irq < gicMinLpi →
      (wp (op irq) Q E t ↔ Q () { t with gicd := f t.gicd irq }))
    (hspis : read64 s.ram.mem ((s.vms (s.vcpus v).vm).vgicDist + 8) = spis)
    (hap : Apart spis (s.vms (s.vcpus v).vm).vgicDist irqNum val) :
    wp (vgicdEnable v irqNum val e op)
      (fun _ s' => s' = bitsDone f spis irqNum val (BitVec.ofNat 8 e) s 32) E s := by
  simp only [vgicdEnable, wp_bind, wp_pure]
  refine wp_forRange (fun k s' => s' = bitsDone f spis irqNum val (BitVec.ofNat 8 e) s k)
    (by decide) ?_ bitsDone_zero.symm ?_
  · intro k t hk ht
    simp only [Nat.zero_add, Nat.mul_one] at hk ⊢
    have hptr : read64 t.ram.mem ((t.vms (t.vcpus v).vm).vgicDist + 8) = spis := by
      rw [ht, bitsDone_vms, bitsDone_vcpus, bitsDone_mem, ← hspis]
      refine readLe_congr fun x hx => ?_
      rw [hspis]
      exact recordsAfter_dist hap (by omega) (block_subset le_rfl (by omega) hx)
    have hvm' : (t.vcpus v).vm ≠ 0 := by rw [ht, bitsDone_vcpus]; exact hvm
    have hdist' : (t.vms (t.vcpus v).vm).vgicDist ≠ 0 := by
      rw [ht, bitsDone_vms, bitsDone_vcpus]; exact hdist
    have hirq : 32 ≤ irqNum + k := Nat.le_add_right_of_le hlo
    rw [wp_bind, wp_vgicIrqGet_spi hvm' hdist' hirq, hptr]
    simp only [wp_ite, wp_bind, wp_storeLe, wp_pure]
    refine ⟨fun hbit => ?_, fun hbit => ?_⟩
    · rw [hop _ _ _ hirq (by omega), bitsDone_succ_of_set hbit, writeLe_byte, ht]
      rfl
    · rw [bitsDone_succ_of_clear hbit, ht]
  · intro k t hk ht
    have hk32 : k = 32 := by omega
    rw [hk32] at ht
    exact ht

/-- After enabling, the bits of the register's interrupts are the old ones and those of
the write. -/
theorem enabled_gicdAfter_set (d : Gicd) {j : ℕ} (hj : j < 32) (m : ℕ) {k : ℕ} (hk : k ≤ 32) :
    (gicdAfter Gicd.setEnable (j * 32) val k d).enabled m =
      (d.enabled m || decide (m / 32 = j ∧ m % 32 < k ∧ val.getLsbD (m % 32) = true)) := by
  induction k with
  | zero => simp [gicdAfter]
  | succ k ih =>
      rw [gicdAfter]
      by_cases hbit : val.getLsbD k = true
      · rw [if_pos hbit, enabled_setEnable _ (by omega), ih (by omega), Bool.or_assoc]
        congr 1
        rw [← Bool.decide_or]
        refine decide_eq_decide.mpr ⟨?_, ?_⟩
        · rintro (⟨h1, h2, h3⟩ | rfl)
          · exact ⟨h1, by omega, h3⟩
          · have hmod : (j * 32 + k) % 32 = k := by omega
            exact ⟨by omega, by omega, by rw [hmod]; exact hbit⟩
        · rintro ⟨h1, h2, h3⟩
          by_cases hmk : m % 32 = k
          · exact Or.inr (by omega)
          · exact Or.inl ⟨h1, by omega, h3⟩
      · rw [if_neg hbit, ih (by omega)]
        congr 1
        refine decide_eq_decide.mpr ⟨?_, ?_⟩
        · rintro ⟨h1, h2, h3⟩
          exact ⟨h1, by omega, h3⟩
        · rintro ⟨h1, h2, h3⟩
          have hmk : m % 32 ≠ k := fun h => hbit (h ▸ h3)
          exact ⟨h1, by omega, h3⟩

/-- Disabling goes past the implemented interrupts. -/
theorem enabled_gicdAfter_clear (d : Gicd) (hlo : 1024 ≤ irqNum) (m k : ℕ) :
    (gicdAfter Gicd.clearEnable irqNum val k d).enabled m = d.enabled m := by
  induction k with
  | zero => rfl
  | succ k ih =>
      rw [gicdAfter]
      by_cases hbit : val.getLsbD k = true
      · rw [if_pos hbit, enabled_clearEnable _ (by omega), ih]
      · rw [if_neg hbit, ih]

end loop

/-! ## Writes of the machine's virtual CPUs -/

/-- A 32-bit write by the virtual CPU `vcpu`, which runs on `core`, to
`GICD_ISENABLER(k)` or to `GICD_ICENABLER(k)`. -/
structure EnableWrite where
  core : Fin ncpu
  vcpu : Fin ncpu
  /-- Is it `ISENABLER`? -/
  isSet : Bool
  k : ℕ
  val : BitVec 64

namespace EnableWrite

/-- The register that is written. -/
def offset (w : EnableWrite) : ℕ := if w.isSet then gicdIsenabler w.k else gicdIcenabler w.k

/-- Is the bit of interrupt `m` one? -/
def touches (w : EnableWrite) (m : ℕ) : Bool := decide (m / 32 = w.k) && w.val.getLsbD (m % 32)

/-- The number that `vgicd_write` computes for the register's first interrupt. -/
def irqNum (w : EnableWrite) : ℕ := (w.offset - gicdIsenabler 0) / 4 * 32

theorem irqNum_of_set {w : EnableWrite} (h : w.isSet = true) : w.irqNum = w.k * 32 := by
  simp only [irqNum, offset, h, if_true, gicdIsenabler]
  omega

/-- It is too large by the 32 registers between the two bases. -/
theorem irqNum_of_clear {w : EnableWrite} (h : w.isSet = false) :
    w.irqNum = 1024 + w.k * 32 := by
  simp only [irqNum, offset, h, Bool.false_eq_true, if_false, gicdIsenabler, gicdIcenabler]
  omega

end EnableWrite

/-- One write. -/
def execWrite (w : EnableWrite) : Exec Hyp ℤ := do
  modify (Hyp.onCore w.core)
  vgicdWrite w.vcpu w.offset w.val

/-- A sequence of writes.  The lock makes the writes of different cores follow each
other. -/
def execWrites : List EnableWrite → Exec Hyp Unit
  | [] => pure ()
  | w :: ws => do
      let _ ← execWrite w
      execWrites ws

/-- Was `ISENABLER` the register of the last write with a one for interrupt `m`? -/
def lastWrite (ws : List EnableWrite) (m : ℕ) : Option Bool :=
  ((ws.filter fun w => w.touches m).getLast?).map EnableWrite.isSet

/-- `vgic_dist->spis` of the virtual machine. -/
def spisOf (s : Hyp) (vm : ℕ) : ℕ := read64 s.ram.mem ((s.vms vm).vgicDist + 8)

/-- The field `enabled` of the configuration of interrupt `m`. -/
def guestEnabled (s : Hyp) (vm m : ℕ) : Byte := s.ram.mem (recordByte (spisOf s vm) m)

/-- An implemented shared interrupt. -/
def IsSpi (s : Hyp) (m : ℕ) : Prop := 32 ≤ m ∧ (m : ℤ) ≤ s.gicMaxSpi

/-- **The virtual distributor between two writes**, when `on` are the enabled interrupts. -/
structure VgicReady (s : Hyp) (vm : ℕ) (on : ℕ → Bool) : Prop where
  vm_ne : vm ≠ 0
  dist_ne : (s.vms vm).vgicDist ≠ 0
  lock_free : (distLock s.ram.mem (s.vms vm).vgicDist).word = 0
  /-- As `gic_dist_init` computes it from the number of implemented registers. -/
  max_spi : ∃ n : ℕ, n ≤ 32 ∧ s.gicMaxSpi = 32 * n - 1
  /-- Both are blocks of the heap, and aligned: where the array runs over the lock, the byte
  `enabled` is not the low byte of the core's number. -/
  owner : ∀ m, IsSpi s m → recordByte (spisOf s vm) m ≠ (s.vms vm).vgicDist + 16
  /-- The array of interrupts, which is longer than the memory it was given, may run over the
  lock, but not with an interrupt that has been enabled. -/
  apart : ∀ m, IsSpi s m → on m = true →
    recordByte (spisOf s vm) m ∉ block ((s.vms vm).vgicDist + 16) 8
  guest : ∀ m, IsSpi s m → guestEnabled s vm m = if on m then 1 else 0
  hardware : ∀ m, IsSpi s m → s.gicd.enabled m = on m

/-- A write by a virtual CPU of the machine to a register of implemented shared interrupts.  The
bytes that it sets may run over the distributor, but not over its pointer and its lock. -/
structure Covers (s : Hyp) (vm : ℕ) (w : EnableWrite) : Prop where
  vcpu_vm : (s.vcpus w.vcpu).vm = vm
  pos : 1 ≤ w.k
  le : (32 * w.k : ℤ) ≤ s.gicMaxSpi
  apart : Apart (spisOf s vm) (s.vms vm).vgicDist w.irqNum w.val

/-- **The enable state is coherent after the writes `ws`**: an interrupt is enabled in the
guest's view if the last write that named it went to `ISENABLER`, and the hardware agrees. -/
def Coherent (s : Hyp) (vm : ℕ) (ws : List EnableWrite) : Prop :=
  ∀ m, IsSpi s m → (guestEnabled s vm m = 1 ↔ lastWrite ws m = some true) ∧
    guestEnabled s vm m = if s.gicd.enabled m then 1 else 0

/-- What no write changes. -/
structure SameVgic (s s' : Hyp) (vm : ℕ) : Prop where
  vms : s'.vms = s.vms
  vcpus : s'.vcpus = s.vcpus
  gicMaxSpi : s'.gicMaxSpi = s.gicMaxSpi
  spis : spisOf s' vm = spisOf s vm

theorem SameVgic.trans {s t u : Hyp} {vm : ℕ} (h : SameVgic s t vm) (h' : SameVgic t u vm) :
    SameVgic s u vm :=
  ⟨h'.vms.trans h.vms, h'.vcpus.trans h.vcpus, h'.gicMaxSpi.trans h.gicMaxSpi,
    h'.spis.trans h.spis⟩

theorem SameVgic.covers {s s' : Hyp} {vm : ℕ} {w : EnableWrite} (h : SameVgic s s' vm)
    (hw : Covers s vm w) : Covers s' vm w := by
  refine ⟨?_, hw.pos, ?_, ?_⟩
  · rw [h.vcpus]; exact hw.vcpu_vm
  · rw [h.gicMaxSpi]; exact hw.le
  · rw [h.vms, h.spis]; exact hw.apart

theorem SameVgic.isSpi {s s' : Hyp} {vm m : ℕ} (h : SameVgic s s' vm) : IsSpi s' m ↔ IsSpi s m := by
  rw [IsSpi, IsSpi, h.gicMaxSpi]

/-! ## One write -/

section oneWrite
variable {s s' : Hyp} {vm : ℕ} {on : ℕ → Bool} {w : EnableWrite} {E : Fault → Hyp → Prop}

/-- What a write does to the physical distributor for one interrupt. -/
def EnableWrite.tell (w : EnableWrite) : Gicd → ℕ → Gicd :=
  if w.isSet then Gicd.setEnable else Gicd.clearEnable

/-- What it writes to the record of one interrupt. -/
def EnableWrite.flag (w : EnableWrite) : ℕ := if w.isSet then 1 else 0

/-- Both registers are handled by the same loop. -/
theorem vgicdWriteReg_enable {v : Fin ncpu} {vgicDist : ℕ} (hk : w.k < 32) :
    vgicdWriteReg v vgicDist w.offset w.val = (do
      vgicdEnable v w.irqNum w.val w.flag (if w.isSet then gicEnableInt else gicDisableInt)
      pure true) := by
  cases hset : w.isSet with
  | true =>
      have h0 : w.offset ≠ 0 := by
        simp only [EnableWrite.offset, hset, if_true, gicdIsenabler]
        omega
      have hin : 0x100 ≤ w.offset ∧ w.offset ≤ 0x17f := by
        simp only [EnableWrite.offset, hset, if_true, gicdIsenabler]
        omega
      rw [vgicdWriteReg, if_neg h0, if_pos hin, EnableWrite.irqNum, EnableWrite.flag, hset]
      rfl
  | false =>
      have h0 : w.offset ≠ 0 := by
        simp only [EnableWrite.offset, hset, Bool.false_eq_true, if_false, gicdIcenabler]
        omega
      have hout : ¬ (0x100 ≤ w.offset ∧ w.offset ≤ 0x17f) := by
        simp only [EnableWrite.offset, hset, Bool.false_eq_true, if_false, gicdIcenabler]
        omega
      have hin : 0x180 ≤ w.offset ∧ w.offset ≤ 0x1ff := by
        simp only [EnableWrite.offset, hset, Bool.false_eq_true, if_false, gicdIcenabler]
        omega
      rw [vgicdWriteReg, if_neg h0, if_neg hout, if_pos hin, EnableWrite.irqNum,
        EnableWrite.flag, hset]
      rfl

/-- The registers of implemented interrupts. -/
theorem VgicReady.k_lt (h : VgicReady s vm on) (hw : Covers s vm w) : w.k < 32 := by
  obtain ⟨n, hn, hmax⟩ := h.max_spi
  have hle := hw.le
  omega

/-- All interrupts of such a register are implemented. -/
theorem VgicReady.isSpi (h : VgicReady s vm on) (hw : Covers s vm w) {i : ℕ} (hi : i < 32) :
    IsSpi s (w.k * 32 + i) := by
  obtain ⟨n, hn, hmax⟩ := h.max_spi
  have hle := hw.le
  have hpos := hw.pos
  refine ⟨by omega, ?_⟩
  rw [hmax] at hle ⊢
  push_cast
  omega

/-- The interrupts that are enabled after a write. -/
def EnableWrite.enabledAfter (w : EnableWrite) (on : ℕ → Bool) (m : ℕ) : Bool :=
  on m || (w.isSet && w.touches m)

/-- The record of an implemented interrupt after the loop of a write. -/
theorem recordsAfter_guest {m : Mem} {spis irq : ℕ} (hirq : 32 ≤ irq) (hlt : irq < 1024)
    (hpos : 1 ≤ w.k) (hm : m (recordByte spis irq) = if on irq then 1 else 0) :
    recordsAfter spis w.irqNum w.val (BitVec.ofNat 8 w.flag) 32 m (recordByte spis irq) =
      if w.enabledAfter on irq then 1 else 0 := by
  have hinj : ∀ i, recordByte spis irq = recordByte spis (w.irqNum + i) → 32 ≤ w.irqNum →
      irq = w.irqNum + i := by
    intro i h hlo
    simp only [recordByte, sizeofIrqConfig] at h
    omega
  rw [recordsAfter]
  cases hset : w.isSet with
  | true =>
      rw [EnableWrite.irqNum_of_set hset] at hinj ⊢
      by_cases ht : w.touches irq = true
      · have ht' := ht
        simp only [EnableWrite.touches, Bool.and_eq_true, decide_eq_true_eq] at ht'
        have heq : irq = w.k * 32 + irq % 32 := by omega
        rw [if_pos ⟨irq % 32, Nat.mod_lt _ (by decide), ht'.2, congrArg (recordByte spis) heq⟩]
        simp [EnableWrite.flag, EnableWrite.enabledAfter, hset, ht]
      · rw [if_neg]
        · rw [hm]
          simp [EnableWrite.enabledAfter, ht]
        · rintro ⟨i, hi, hb, heq⟩
          have hirq' := hinj i heq (by omega)
          have hmod : irq % 32 = i := by omega
          refine ht ?_
          simp only [EnableWrite.touches, Bool.and_eq_true, decide_eq_true_eq]
          exact ⟨by omega, by rw [hmod]; exact hb⟩
  | false =>
      rw [EnableWrite.irqNum_of_clear hset] at hinj ⊢
      rw [if_neg]
      · rw [hm]
        simp [EnableWrite.enabledAfter, hset]
      · rintro ⟨i, hi, hb, heq⟩
        have hirq' := hinj i heq (by omega)
        omega

/-- The hardware's bit of an implemented interrupt after the loop of a write. -/
theorem gicdAfter_hardware {d : Gicd} {irq : ℕ} (hk : w.k < 32) (hd : d.enabled irq = on irq) :
    (gicdAfter w.tell w.irqNum w.val 32 d).enabled irq = w.enabledAfter on irq := by
  cases hset : w.isSet with
  | true =>
      have hmod : irq % 32 < 32 := Nat.mod_lt _ (by decide)
      rw [EnableWrite.tell, hset, if_pos rfl, EnableWrite.irqNum_of_set hset,
        enabled_gicdAfter_set _ hk _ le_rfl, hd, EnableWrite.enabledAfter, hset]
      simp [EnableWrite.touches, hmod]
  | false =>
      have hlo : 1024 ≤ w.irqNum := by
        rw [EnableWrite.irqNum_of_clear hset]
        omega
      rw [EnableWrite.tell, hset, if_neg (by decide), enabled_gicdAfter_clear _ hlo, hd,
        EnableWrite.enabledAfter, hset]
      simp

theorem irqNum_bounds (hpos : 1 ≤ w.k) (hk : w.k < 32) : 32 ≤ w.irqNum ∧ w.irqNum + 32 ≤ 8192 := by
  cases hset : w.isSet with
  | true =>
      rw [EnableWrite.irqNum_of_set hset]
      omega
  | false =>
      rw [EnableWrite.irqNum_of_clear hset]
      omega

/-- The physical distributor is told by the function for this register. -/
theorem wp_tell {Q : Unit → Hyp → Prop} {t : Hyp} {irq : ℕ} (hlo : gicMinSpi0 ≤ irq)
    (hhi : irq < gicMinLpi) :
    wp ((if w.isSet then gicEnableInt else gicDisableInt) irq) Q E t ↔
      Q () { t with gicd := w.tell t.gicd irq } := by
  cases hset : w.isSet with
  | true =>
      rw [if_pos rfl, wp_gicEnableInt hlo hhi, EnableWrite.tell, hset, if_pos rfl]
  | false =>
      rw [if_neg (by decide), wp_gicDisableInt hlo hhi, EnableWrite.tell, hset,
        if_neg (by decide)]

/-- The state once the lock is taken. -/
structure Locked (s : Hyp) (vm c : ℕ) (t : Hyp) : Prop where
  vms : t.vms = s.vms
  vcpus : t.vcpus = s.vcpus
  gicMaxSpi : t.gicMaxSpi = s.gicMaxSpi
  gicd : t.gicd = s.gicd
  core : t.ram.core = c
  mem : t.ram.mem = setDistLock s.ram.mem (s.vms vm).vgicDist (.heldBy c)

/-- The state when the lock is given back, after the loop over the register. -/
structure Unlocked (s : Hyp) (vm : ℕ) (w : EnableWrite) (s' : Hyp) : Prop where
  vms : s'.vms = s.vms
  vcpus : s'.vcpus = s.vcpus
  gicMaxSpi : s'.gicMaxSpi = s.gicMaxSpi
  gicd : s'.gicd = gicdAfter w.tell w.irqNum w.val 32 s.gicd
  mem : s'.ram.mem = setDistLock (recordsAfter (spisOf s vm) w.irqNum w.val (BitVec.ofNat 8 w.flag)
    32 (setDistLock s.ram.mem (s.vms vm).vgicDist (.heldBy w.core))) (s.vms vm).vgicDist
    (.leftBy w.core)

/-- The lock keeps the number of a core. -/
theorem distLock_set_heldBy (m : Mem) (a : ℕ) (c : Fin ncpu) :
    distLock (setDistLock m a (.heldBy c)) a = .heldBy c := by
  have hlt : (c : ℕ) < 4 := c.isLt
  refine distLock_setDistLock ?_ ?_ <;>
  · simp only [Spinlock.heldBy]
    omega

/-- A lock given back is free. -/
theorem distLock_set_leftBy (m : Mem) (a : ℕ) (c : Fin ncpu) :
    distLock (setDistLock m a (.leftBy c)) a = .leftBy c := by
  have hlt : (c : ℕ) < 4 := c.isLt
  refine distLock_setDistLock ?_ ?_ <;>
  · simp only [Spinlock.leftBy]
    omega

/-- What a write does under the lock. -/
theorem execWrite_locked (h : VgicReady s vm on) (hw : Covers s vm w) {t : Hyp}
    (ht : Locked s vm w.core t) :
    wp (do
      let handled ← vgicdWriteReg w.vcpu (s.vms vm).vgicDist w.offset w.val
      withDistLock (s.vms vm).vgicDist archSpinUnlock
      pure (if handled then 0 else -1)) (fun (_ : ℤ) s' => Unlocked s vm w s') E t := by
  obtain rfl := hw.vcpu_vm
  have hk := h.k_lt hw
  obtain ⟨hlo, hhi⟩ := irqNum_bounds hw.pos hk
  have hpart := hw.apart
  have hspis : read64 t.ram.mem ((t.vms (t.vcpus w.vcpu).vm).vgicDist + 8) =
      spisOf s (s.vcpus w.vcpu).vm := by
    rw [ht.vms, ht.vcpus, ht.mem, read64_setDistLock, spisOf]
  have hloop : wp (vgicdEnable w.vcpu w.irqNum w.val w.flag
      (if w.isSet then gicEnableInt else gicDisableInt))
      (fun _ s' => s' = bitsDone w.tell (spisOf s (s.vcpus w.vcpu).vm) w.irqNum w.val
        (BitVec.ofNat 8 w.flag) t 32) E t :=
    vgicdEnable_spec (by rw [ht.vcpus]; exact h.vm_ne)
      (by rw [ht.vms, ht.vcpus]; exact h.dist_ne) hlo hhi (fun _ _ _ => wp_tell) hspis
      (by rw [ht.vms, ht.vcpus]; exact hpart)
  rw [wp_bind, vgicdWriteReg_enable hk, wp_bind]
  refine wp_mono hloop ?_ fun _ _ he => he
  intro _ u hu
  have hframe : Set.EqOn u.ram.mem t.ram.mem
      (block ((s.vms (s.vcpus w.vcpu).vm).vgicDist + 8) 16) := by
    rw [hu]
    exact recordsAfter_dist hpart le_rfl
  have hcore : u.ram.core = w.core := by rw [hu, bitsDone_core, ht.core]
  have hheld : distLock u.ram.mem (s.vms (s.vcpus w.vcpu).vm).vgicDist = .heldBy u.ram.core := by
    rw [distLock_of_eqOn (hframe.mono (block_subset (by omega) (by omega))), ht.mem,
      distLock_set_heldBy, hcore]
  rw [wp_pure, wp_bind, wp_distUnlock hheld, wp_pure]
  refine ⟨?_, ?_, ?_, ?_, ?_⟩
  · rw [hu, bitsDone_vms, ht.vms]
  · rw [hu, bitsDone_vcpus, ht.vcpus]
  · rw [hu, bitsDone_gicMaxSpi, ht.gicMaxSpi]
  · rw [hu, bitsDone_gicd, ht.gicd]
  · rw [hcore, hu, bitsDone_mem, ht.mem]

/-- What is enabled after the write is not in the lock. -/
theorem VgicReady.apart_after (h : VgicReady s vm on) (hw : Covers s vm w) {m : ℕ}
    (hm : IsSpi s m) (hafter : w.enabledAfter on m = true) :
    recordByte (spisOf s vm) m ∉ block ((s.vms vm).vgicDist + 16) 8 := by
  rw [EnableWrite.enabledAfter, Bool.or_eq_true, Bool.and_eq_true] at hafter
  rcases hafter with hon | ⟨hset, htouch⟩
  · exact h.apart m hm hon
  · simp only [EnableWrite.touches, Bool.and_eq_true, decide_eq_true_eq] at htouch
    have hirq : w.irqNum + m % 32 = m := by
      rw [EnableWrite.irqNum_of_set hset]
      omega
    have hout := hw.apart (m % 32) (Nat.mod_lt _ (by decide)) htouch.2
    rw [hirq] at hout
    exact fun hin => hout (block_subset (by omega) (by omega) hin)

/-- Neither the records nor the lock is the pointer to the records. -/
theorem Unlocked.sameVgic (hs : Unlocked s vm w s') (hw : Covers s vm w) : SameVgic s s' vm := by
  have hframe : Set.EqOn (recordsAfter (spisOf s vm) w.irqNum w.val (BitVec.ofNat 8 w.flag) 32
      (setDistLock s.ram.mem (s.vms vm).vgicDist (.heldBy w.core)))
      (setDistLock s.ram.mem (s.vms vm).vgicDist (.heldBy w.core))
      (block ((s.vms vm).vgicDist + 8) 16) := recordsAfter_dist hw.apart le_rfl
  have hspis : spisOf s' vm = spisOf s vm := by
    rw [spisOf, hs.vms, hs.mem, read64_setDistLock, read64,
      readLe_congr (hframe.mono (block_subset le_rfl (by omega)))]
    exact read64_setDistLock _
  exact ⟨hs.vms, hs.vcpus, hs.gicMaxSpi, hspis⟩

/-- The distributor is ready again. -/
theorem VgicReady.unlocked (h : VgicReady s vm on) (hw : Covers s vm w)
    (hs : Unlocked s vm w s') : SameVgic s s' vm ∧ VgicReady s' vm (w.enabledAfter on) := by
  have hk := h.k_lt hw
  have hsame := hs.sameVgic hw
  have hspis := hsame.spis
  refine ⟨hsame, h.vm_ne, ?_, ?_, ?_, ?_, ?_, ?_, ?_⟩
  · rw [hs.vms]
    exact h.dist_ne
  · rw [hs.vms, hs.mem, distLock_set_leftBy, word_leftBy]
  · rw [hs.gicMaxSpi]
    exact h.max_spi
  · intro m hm
    rw [hspis, hs.vms]
    exact h.owner m (hsame.isSpi.mp hm)
  · intro m hm
    rw [hspis, hs.vms]
    exact h.apart_after hw (hsame.isSpi.mp hm)
  · intro m hm
    have hm' := hsame.isSpi.mp hm
    obtain ⟨n, hn, hmax⟩ := h.max_spi
    have hlt : m < 1024 := by
      have hle := hm'.2
      omega
    rw [guestEnabled, hspis, hs.mem]
    by_cases hin : recordByte (spisOf s vm) m ∈ block ((s.vms vm).vgicDist + 16) 8
    · -- unlocking leaves a zero
      have hoff : ¬ w.enabledAfter on m = true := fun hon => h.apart_after hw hm' hon hin
      have hcore : (w.core : ℕ) < 2 ^ 8 := w.core.isLt.trans (by decide)
      rw [if_neg hoff]
      exact setDistLock_leftBy hcore hin (h.owner m hm')
    · rw [setDistLock_outside hin]
      refine recordsAfter_guest hm'.1 hlt hw.pos ?_
      rw [setDistLock_outside hin]
      exact h.guest m hm'
  · intro m hm
    rw [hs.gicd]
    exact gicdAfter_hardware hk (h.hardware m (hsame.isSpi.mp hm))

/-- **One write**: the interrupts it names are enabled if it went to `ISENABLER`, and
nothing is disabled. -/
theorem execWrite_spec (h : VgicReady s vm on) (hw : Covers s vm w) :
    wp (execWrite w) (fun _ s' => SameVgic s s' vm ∧ VgicReady s' vm (w.enabledAfter on)) E s := by
  have hvm := hw.vcpu_vm
  have hne := h.vm_ne
  have hdist := h.dist_ne
  have hfree := h.lock_free
  simp only [execWrite, vgicdWrite, wp_bind, wp_modify, wp_get]
  rw [wp_derefVm (by simpa [Hyp.onCore, hvm] using hne)]
  have hptr : ((s.onCore w.core).vms ((s.onCore w.core).vcpus w.vcpu).vm).vgicDist =
      (s.vms vm).vgicDist := by rw [← hvm]; rfl
  rw [hptr, if_neg hdist, wp_bind, wp_distLock (by exact hfree)]
  refine wp_mono (execWrite_locked h hw ⟨rfl, rfl, rfl, rfl, rfl, rfl⟩) ?_ fun _ _ he => he
  intro _ s' hs
  exact h.unlocked hw hs

end oneWrite

/-! ## A sequence of writes -/

/-- The interrupts that are enabled after some writes. -/
def enabledAfterAll : List EnableWrite → (ℕ → Bool) → ℕ → Bool
  | [], on => on
  | w :: ws, on => enabledAfterAll ws (w.enabledAfter on)

section run
variable {s : Hyp} {vm : ℕ} {ws : List EnableWrite}

/-- **A sequence of writes.** -/
theorem execWrites_spec {on : ℕ → Bool} {E : Fault → Hyp → Prop} (h : VgicReady s vm on)
    (hws : ∀ w ∈ ws, Covers s vm w) :
    wp (execWrites ws)
      (fun _ s' => SameVgic s s' vm ∧ VgicReady s' vm (enabledAfterAll ws on)) E s := by
  induction ws generalizing s on with
  | nil => exact ⟨⟨rfl, rfl, rfl, rfl⟩, h⟩
  | cons w ws ih =>
      rw [execWrites, wp_bind]
      refine wp_mono (execWrite_spec h (hws w List.mem_cons_self)) ?_ fun _ _ he => he
      rintro _ t ⟨hsame, ht⟩
      have hrest := ih ht fun w' hw' => hsame.covers (hws w' (List.mem_cons_of_mem _ hw'))
      exact wp_mono hrest (fun _ _ hs => ⟨hsame.trans hs.1, hs.2⟩) fun _ _ he => he

/-- The writes all return. -/
theorem execWrites_returns {on : ℕ → Bool} (h : VgicReady s vm on)
    (hws : ∀ w ∈ ws, Covers s vm w) :
    ∃ s', execWrites ws s = .ok () s' ∧ SameVgic s s' vm ∧
      VgicReady s' vm (enabledAfterAll ws on) := by
  obtain ⟨_, s', hrun, hs⟩ := exists_ok_of_wp (execWrites_spec h hws)
  exact ⟨s', hrun, hs⟩

/-- An interrupt is enabled once some write to `ISENABLER` named it. -/
theorem enabledAfterAll_eq (ws : List EnableWrite) (on : ℕ → Bool) (m : ℕ) :
    enabledAfterAll ws on m = (on m || ws.any fun w => w.isSet && w.touches m) := by
  induction ws generalizing on with
  | nil => simp [enabledAfterAll]
  | cons w ws ih =>
      rw [enabledAfterAll, ih, EnableWrite.enabledAfter, List.any_cons, Bool.or_assoc]

/-- The last write that names an interrupt is one of those that do. -/
theorem any_of_lastWrite {m : ℕ} (h : lastWrite ws m = some true) :
    (ws.any fun w => w.isSet && w.touches m) = true := by
  rw [lastWrite, Option.map_eq_some_iff] at h
  obtain ⟨w, hw, hset⟩ := h
  have hmem := List.mem_of_getLast? hw
  rw [List.mem_filter] at hmem
  rw [List.any_eq_true]
  exact ⟨w, hmem.1, by rw [hset, hmem.2]; rfl⟩

/-- **The enable state is coherent exactly if nothing was disabled after it was enabled**:
the last write that named an interrupt went to `ISENABLER` if any did. -/
theorem vgicd_enable_coherent (h : VgicReady s vm fun _ => false)
    (hws : ∀ w ∈ ws, Covers s vm w) :
    (∃ s', execWrites ws s = .ok () s' ∧ Coherent s' vm ws) ↔
      ∀ m, IsSpi s m → (∃ w ∈ ws, w.isSet = true ∧ w.touches m = true) →
        lastWrite ws m = some true := by
  obtain ⟨s', hrun, hsame, hready⟩ := execWrites_returns h hws
  have hany : ∀ m, enabledAfterAll ws (fun _ => false) m = true ↔
      ∃ w ∈ ws, w.isSet = true ∧ w.touches m = true := by
    intro m
    rw [enabledAfterAll_eq, Bool.false_or, List.any_eq_true]
    simp only [Bool.and_eq_true]
  constructor
  · rintro ⟨t, ht, hco⟩ m hm hex
    have heq : t = s' := by
      rw [hrun] at ht
      exact (EStateM.Result.ok.inj ht).2.symm
    subst heq
    have hm' := hsame.isSpi.mpr hm
    refine (hco m hm').1.mp ?_
    rw [hready.guest m hm', if_pos ((hany m).mpr hex)]
  · intro hcond
    refine ⟨s', hrun, fun m hm => ⟨?_, ?_⟩⟩
    · rw [hready.guest m hm]
      constructor
      · intro hone
        refine hcond m (hsame.isSpi.mp hm) ((hany m).mp ?_)
        by_contra hoff
        rw [if_neg hoff] at hone
        exact absurd hone (by decide)
      · intro hlast
        have hon : enabledAfterAll ws (fun _ => false) m = true := by
          rw [enabledAfterAll_eq, Bool.false_or]
          exact any_of_lastWrite hlast
        rw [if_pos hon]
    · rw [hready.guest m hm, hready.hardware m hm]

end run

/-! ## Two registers of one machine -/

/-- A machine at address 1 with 32 shared interrupts; its distributor is at `0x1000` and its
records at `0x2000`. -/
def oneRegister : Hyp :=
  { zeroHyp ⟨0, write64 (fun _ => 0) 0x1008 0x2000, ⟨.leftBy 0, 0⟩⟩
      (freshPool (.leftBy 0) 0x10000) with
    vms := fun _ => { zeroVm with vgicDist := 0x1000 }
    vcpus := fun _ => { zeroVcpu with vm := 1 }
    gicMaxSpi := 63 }

/-- Enable interrupt 32. -/
def enable32 : EnableWrite := { core := 0, vcpu := 0, isSet := true, k := 1, val := 1 }

/-- Disable it. -/
def disable32 : EnableWrite := { core := 0, vcpu := 0, isSet := false, k := 1, val := 1 }

theorem oneRegister_mem : oneRegister.ram.mem = write64 (fun _ => 0) 0x1008 0x2000 := rfl

theorem oneRegister_dist : (oneRegister.vms 1).vgicDist = 0x1000 := rfl

theorem spisOf_oneRegister : spisOf oneRegister 1 = 0x2000 := by
  rw [spisOf, oneRegister_mem, oneRegister_dist, read64_write64 _ _ (by decide)]

theorem oneRegister_ready : VgicReady oneRegister 1 fun _ => false := by
  refine ⟨by decide, by decide, ?_, ⟨2, by decide, rfl⟩, ?_, ?_, ?_, ?_⟩
  · decide
  · intro m _ heq
    rw [spisOf_oneRegister, oneRegister_dist, recordByte] at heq
    omega
  · intro m _ hon
    cases hon
  · intro m _
    have hout : recordByte 0x2000 m ∉ block 0x1008 8 := by
      intro hm
      simp only [recordByte, mem_block] at hm
      omega
    rw [guestEnabled, spisOf_oneRegister, oneRegister_mem]
    exact writeLe_of_notMem hout
  · intro m _
    exact BitVec.getLsbD_zero

theorem oneRegister_covers {w : EnableWrite} (hk : w.k = 1) : Covers oneRegister 1 w := by
  refine ⟨rfl, by omega, ?_, fun i hi _ hm => ?_⟩
  · have hmax : oneRegister.gicMaxSpi = 63 := rfl
    rw [hmax]
    omega
  · rw [spisOf_oneRegister, oneRegister_dist] at hm
    simp only [recordByte, mem_block] at hm
    omega

/-- Enabling works. -/
theorem vgicd_enable_coherent_set :
    ∃ s', execWrites [enable32] oneRegister = .ok () s' ∧ Coherent s' 1 [enable32] := by
  refine (vgicd_enable_coherent oneRegister_ready ?_).mpr ?_
  · intro w hw
    rw [List.mem_singleton.mp hw]
    exact oneRegister_covers rfl
  · rintro m _ ⟨w, hw, _, ht⟩
    rw [List.mem_singleton.mp hw] at ht
    rw [lastWrite, List.filter_cons, if_pos ht]
    rfl

/-- An interrupt that was enabled and then disabled is still enabled, in both views. -/
theorem vgicd_disable_ignored : VgicReady oneRegister 1 (fun _ => false) ∧
    (∀ w ∈ [enable32, disable32], Covers oneRegister 1 w) ∧
    ∃ s', execWrites [enable32, disable32] oneRegister = .ok () s' ∧
      lastWrite [enable32, disable32] 32 = some false ∧ guestEnabled s' 1 32 = 1 ∧
      s'.gicd.enabled 32 = true ∧ ¬ Coherent s' 1 [enable32, disable32] := by
  have hcov : ∀ w ∈ [enable32, disable32], Covers oneRegister 1 w := by
    intro w hw
    simp only [List.mem_cons, List.not_mem_nil, or_false] at hw
    rcases hw with rfl | rfl
    · exact oneRegister_covers rfl
    · exact oneRegister_covers rfl
  obtain ⟨s', hrun, hsame, hready⟩ := execWrites_returns oneRegister_ready hcov
  have hlast : lastWrite [enable32, disable32] 32 = some false := rfl
  have hspi : IsSpi s' 32 := hsame.isSpi.mpr ⟨by decide, by decide⟩
  have hon : enabledAfterAll [enable32, disable32] (fun _ => false) 32 = true := by decide
  have hguest : guestEnabled s' 1 32 = 1 := by rw [hready.guest 32 hspi, if_pos hon]
  have hhard : s'.gicd.enabled 32 = true := by rw [hready.hardware 32 hspi, hon]
  refine ⟨oneRegister_ready, hcov, s', hrun, hlast, hguest, hhard, fun hco => ?_⟩
  have hwrong := (hco 32 hspi).1.mp hguest
  rw [hlast] at hwrong
  exact absurd hwrong (by decide)

end Xhyper
