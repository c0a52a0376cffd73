import Xhyper.VgicDevices
import Xhyper.VgicStorage

/-!
# Byte and word accesses to the priorities and targets of shared interrupts

The registers `GICD_IPRIORITYR` and `GICD_ITARGETSR` have a byte for each interrupt.  A guest may
access a byte of them, or the four bytes of a word, and should find what it wrote.

The functions of the distributor are not told the size of the access.  A write goes over the four
interrupts of the word that its offset is in, with the bytes of the value in their order; a read
shows four interrupts from the one at its offset on.

## Main definitions

* `Irq`, `GicSystem` — the interrupts that have a record.
* `GicSystem.others` — the bytes of records that an access does not name.
* `SpiAgrees` — what an access should do.
* `SpiHarmless` — an access that does not reach what goes wrong.
* `spiAgrees_iff` — these are the ones that do what they should.
-/

namespace Xhyper

open Memory Prog

/-! ## The bytes of a value -/

/-- The low `size` bytes of a value. -/
def lowBytes (val : BitVec 64) (size : ℕ) : BitVec 64 := (val.setWidth (8 * size)).setWidth 64

section bytes
variable {val x y : BitVec 64} {m : Mem} {addr : ℕ → ℕ} {size i k : ℕ}

theorem getLsbD_valByte {j : ℕ} (hj : j < 8) : (valByte x i).getLsbD j = x.getLsbD (i * 8 + j) := by
  rw [valByte, BitVec.getLsbD_setWidth, BitVec.getLsbD_ushiftRight, decide_eq_true hj,
    Bool.true_and]

/-- A value is its bytes. -/
theorem eq_of_valByte (h : ∀ i < 8, valByte x i = valByte y i) : x = y := by
  apply BitVec.eq_of_getLsbD_eq
  intro p hp
  have hbyte := congrArg (fun b : Byte => b.getLsbD (p % 8)) (h (p / 8) (by omega))
  have hpos : p / 8 * 8 + p % 8 = p := Nat.div_add_mod' p 8
  simp only [getLsbD_valByte (Nat.mod_lt p (by decide)), hpos] at hbyte
  exact hbyte

theorem valByte_lowBytes (hi : i < 8) :
    valByte (lowBytes val size) i = if i < size then valByte val i else 0 := by
  apply BitVec.eq_of_getLsbD_eq
  intro j hj
  have hin : i * 8 + j < 64 := by omega
  rw [getLsbD_valByte hj, lowBytes, BitVec.getLsbD_setWidth, BitVec.getLsbD_setWidth,
    decide_eq_true hin, Bool.true_and]
  by_cases hsize : i < size
  · rw [if_pos hsize, getLsbD_valByte hj, decide_eq_true (by omega), Bool.true_and]
  · rw [if_neg hsize, decide_eq_false (by omega), Bool.false_and]
    simp

/-- The bits of what is gathered, a byte for each interrupt. -/
theorem getLsbD_gathered {p : ℕ} (hp : p < 32) : (gathered m addr 8 0 k).getLsbD p =
    (decide (p / 8 < k) && (m (addr (p / 8))).getLsbD (p % 8)) := by
  induction k with
  | zero => simp [gathered]
  | succ k ih =>
      rw [gathered, BitVec.getLsbD_or, ih, BitVec.getLsbD_shiftLeft, decide_eq_true hp,
        Bool.true_and]
      by_cases hlt : p / 8 < k
      · have hlow : p < k * 8 := by omega
        rw [decide_eq_true hlt, decide_eq_true hlow, decide_eq_true (by omega : p / 8 < k + 1)]
        simp
      by_cases heq : p / 8 = k
      · have hpos : p - k * 8 = p % 8 := by omega
        rw [decide_eq_false hlt, decide_eq_false (by omega : ¬ p < k * 8),
          decide_eq_true (by omega : p / 8 < k + 1), BitVec.getLsbD_setWidth, hpos, heq,
          decide_eq_true (by omega : p % 8 < 32)]
        simp
      · have hhigh : 8 ≤ p - k * 8 := by omega
        rw [decide_eq_false hlt, decide_eq_false (by omega : ¬ p / 8 < k + 1),
          BitVec.getLsbD_setWidth, BitVec.getLsbD_of_ge _ _ hhigh]
        simp

theorem valByte_gathered (hi : i < 4) :
    valByte ((gathered m addr 8 0 4).setWidth 64) i = m (addr i) := by
  apply BitVec.eq_of_getLsbD_eq
  intro j hj
  have hdiv : (i * 8 + j) / 8 = i := by omega
  have hmod : (i * 8 + j) % 8 = j := by omega
  rw [getLsbD_valByte hj, BitVec.getLsbD_setWidth, getLsbD_gathered (by omega), hdiv, hmod,
    decide_eq_true hi, decide_eq_true (by omega : i * 8 + j < 64), Bool.true_and, Bool.true_and]

/-- **What four interrupts show** is the low bytes of a value if each shows its byte, and those
behind show zero. -/
theorem gathered_eq_lowBytes (hsize : size ≤ 4) :
    (gathered m addr 8 0 4).setWidth 64 = lowBytes val size ↔
      (∀ i < size, m (addr i) = valByte val i) ∧ ∀ i < 4, size ≤ i → m (addr i) = 0 := by
  have hhigh : ∀ i, 4 ≤ i → i < 8 → valByte ((gathered m addr 8 0 4).setWidth 64) i = 0 := by
    intro i hlo hhi
    apply BitVec.eq_of_getLsbD_eq
    intro j hj
    rw [getLsbD_valByte hj, BitVec.getLsbD_setWidth, BitVec.getLsbD_of_ge _ _ (by omega)]
    simp
  constructor
  · intro h
    have hbyte : ∀ i < 4, m (addr i) = if i < size then valByte val i else 0 := by
      intro i hi
      rw [← @valByte_gathered m addr i hi, h, valByte_lowBytes (by omega)]
    refine ⟨fun i hi => ?_, fun i hi hle => ?_⟩
    · rw [hbyte i (by omega), if_pos hi]
    · rw [hbyte i hi, if_neg (by omega)]
  · rintro ⟨hlow, hzero⟩
    refine eq_of_valByte fun i hi => ?_
    rw [valByte_lowBytes hi]
    rcases Nat.lt_or_ge i size with hlt | hge
    · rw [if_pos hlt, valByte_gathered (by omega), hlow i hlt]
    · rw [if_neg (by omega)]
      rcases Nat.lt_or_ge i 4 with h4 | h4
      · rw [valByte_gathered h4, hzero i h4 hge]
      · exact hhigh i h4 hi

end bytes

/-! ## Interrupts and their records -/

/-- An interrupt that has a record: a private one of a virtual CPU, or a shared one of a
machine. -/
inductive Irq
  | priv (v : Fin ncpu) (n : ℕ)
  | spi (vm n : ℕ)

/-- Where its record is. -/
def Irq.record (s : Hyp) : Irq → ℕ
  | priv v n => slotAddr (s.vcpus v).vgicCpu 0 n
  | spi vm n => spiRecord (read64 s.ram.mem ((s.vms vm).vgicDist + 8)) n

/-- The interrupt `n` of a virtual CPU. -/
def Hyp.irq (s : Hyp) (v : Fin ncpu) (n : ℕ) : Irq :=
  if n < 32 then .priv v n else .spi (s.vcpus v).vm n

/-- The virtual CPUs and the machines that have records, and the last shared interrupt. -/
structure GicSystem where
  cpus : Set (Fin ncpu)
  vms : Set ℕ
  max : ℕ

namespace GicSystem

variable (S : GicSystem) (s : Hyp)

/-- The interrupts of the system.  Those from 1020 on are no interrupts of a device. -/
def Has : Irq → Prop
  | .priv v n => v ∈ S.cpus ∧ n < 32
  | .spi vm n => vm ∈ S.vms ∧ 32 ≤ n ∧ n ≤ S.max ∧ n < 1020

/-- The bytes of their records, but for the byte `field` of the interrupts `named`. -/
def others (named : Set Irq) (field : ℕ) : Set ℕ :=
  {x | ∃ q, S.Has q ∧ ∃ f < 4, x = q.record s + f ∧ ¬ (q ∈ named ∧ f = field)}

end GicSystem

section records
variable {s : Hyp} {v : Fin ncpu} {n : ℕ}

theorem irq_spi (hn : 32 ≤ n) : s.irq v n = .spi (s.vcpus v).vm n := if_neg (by omega)

/-- The code looks up this record, but for the interrupts 16 to 31. -/
theorem record_irq (hn : n < 16 ∨ 32 ≤ n) : (s.irq v n).record s = s.lookup v n := by
  rw [Hyp.irq, Hyp.lookup, irqAddr_eq_slotAddr hn, slotAddr]
  by_cases hsgi : n < 16
  · rw [if_pos (by omega), if_pos hsgi, Irq.record, slotAddr, if_pos hsgi]
  · rw [if_neg (by omega), if_neg hsgi, if_neg (by omega)]
    rfl

theorem lookup_spi (hn : 32 ≤ n) : s.lookup v n = spiRecord (s.spis v) n := by
  rw [Hyp.lookup, irqAddr, if_neg (by omega), if_neg (by omega), spiRecord]

end records

/-! ## The registers -/

/-- The registers with a byte for each interrupt. -/
inductive SpiReg
  | priority
  | target

namespace SpiReg

/-- The offset of the first one. -/
def base : SpiReg → ℕ
  | priority => 0x400
  | target => 0x800

/-- The byte of a record that is accessed. -/
def field : SpiReg → ℕ
  | priority => 0
  | target => 1

/-- The loop of a write. -/
def loop : SpiReg → ℕ → BitVec 64 → RegLoop
  | priority => prioLoop
  | target => targetLoop

section
variable (reg : SpiReg) (irqNum : ℕ) (val : BitVec 64)

theorem field_lt : reg.field < 4 := by cases reg <;> decide

@[simp] theorem loop_irqNum : (reg.loop irqNum val).irqNum = irqNum := by cases reg <;> rfl
@[simp] theorem loop_n : (reg.loop irqNum val).n = 4 := by cases reg <;> rfl
@[simp] theorem loop_field : (reg.loop irqNum val).field = reg.field := by cases reg <;> rfl
@[simp] theorem loop_sel (i : ℕ) : (reg.loop irqNum val).sel i = true := by cases reg <;> rfl
@[simp] theorem loop_byte : (reg.loop irqNum val).byte = valByte val := by cases reg <;> rfl

end

variable {reg : SpiReg} {n : ℕ}

/-- A write goes over the word that the offset is in. -/
theorem gicdLoop_base (hn : n < 1020) (val : BitVec 64) :
    gicdLoop (reg.base + n) val = some (reg.loop (n / 4 * 4) val) := by
  cases reg with
  | priority =>
      have hoff : 0x400 + n - 0x400 = n := Nat.add_sub_cancel_left _ _
      rw [base, gicdLoop, if_neg (by omega), if_neg (by omega), if_pos (by omega), hoff]
      rfl
  | target =>
      have hoff : 0x800 + n - 0x800 = n := Nat.add_sub_cancel_left _ _
      rw [base, gicdLoop, if_neg (by omega), if_neg (by omega), if_neg (by omega),
        if_pos (by omega), hoff]
      rfl

/-- A read shows four interrupts from the offset on. -/
theorem gicdFields_base (hn : n < 1020) :
    gicdFields (reg.base + n) = some ⟨n, 4, reg.field, 8⟩ := by
  cases reg with
  | priority =>
      have hoff : 0x400 + n - 0x400 = n := Nat.add_sub_cancel_left _ _
      rw [base, gicdFields, if_neg (by omega), if_neg (by omega), if_pos (by omega), hoff]
      rfl
  | target =>
      have hoff : 0x800 + n - 0x800 = n := Nat.add_sub_cancel_left _ _
      rw [base, gicdFields, if_neg (by omega), if_neg (by omega), if_neg (by omega),
        if_pos (by omega), hoff]
      rfl

end SpiReg

/-! ## What an access should do -/

/-- The byte of an interrupt of `v` that is accessed. -/
def SpiReg.cell (reg : SpiReg) (s : Hyp) (v : Fin ncpu) (n : ℕ) : ℕ := s.lookup v n + reg.field

/-- The interrupts that an access of `size` bytes at the byte of the interrupt `n` names. -/
def Hyp.named (s : Hyp) (v : Fin ncpu) (n size : ℕ) : Set Irq :=
  {q | ∃ i < size, q = s.irq v (n + i)}

section agreement
variable (S : GicSystem) (s : Hyp) (v : Fin ncpu) (reg : SpiReg) (n size : ℕ) (val : BitVec 64)

/-- **After a write** of `size` bytes the interrupts that it names have them, no other byte of a
record has changed, and a read of the same bytes gets them. -/
structure SpiDone (s' : Hyp) : Prop where
  sets : ∀ i < size, s'.ram.mem (reg.cell s v (n + i)) = valByte val i
  others : Set.EqOn s'.ram.mem s.ram.mem (S.others s (s.named v n size) reg.field)
  reads : ∀ isen r, readResult isen s' v (reg.base + n) r = some (0, lowBytes val size)

/-- A write and a read of `size` bytes agree. -/
def SpiAgrees : Prop := ∃ s', vgicdWrite v (reg.base + n) val s = .ok 0 s' ∧
  SpiDone S s v reg n size val s'

/-- **An access that does not reach what goes wrong**: the bytes of the value at the places of the
interrupts in the word are those of the access; what is stored in the records of other interrupts
is there already, be it those of the rest of the word or records that lie over these; so is what
the lock is left with, where it lies under records; and the bytes that a read goes on to behind
those of the access are zero while the lock is held. -/
structure SpiHarmless : Prop where
  bytes : ∀ i < size, valByte val (n % 4 + i) = valByte val i
  stores : (reg.loop (n / 4 * 4) val).Harmless v s (S.others s (s.named v n size) reg.field)
  lock : Set.EqOn (setDistLock s.ram.mem (s.dist v) (.leftBy s.ram.core)) s.ram.mem
    (S.others s (s.named v n size) reg.field)
  behind : ∀ i < 4, size ≤ i → (s.lockDist v).ram.mem (reg.cell s v (n + i)) = 0

end agreement

/-- A virtual CPU of a machine that has records, between two accesses. -/
structure SpiReady (S : GicSystem) (s : Hyp) (v : Fin ncpu) : Prop extends VgicFree s v where
  machine : (s.vcpus v).vm ∈ S.vms
  limit : SpiLimit S.max
  max_spi : s.gicMaxSpi = S.max

/-! ## What an access does -/

section access
variable {S : GicSystem} {s s' : Hyp} {v : Fin ncpu} {reg : SpiReg} {n size : ℕ}
  {val : BitVec 64}

/-- Different shared interrupts have different bytes. -/
theorem SpiReg.cell_inj {a b : ℕ} (ha : 32 ≤ a) (hb : 32 ≤ b)
    (h : reg.cell s v a = reg.cell s v b) : a = b := by
  rw [cell, cell, lookup_spi ha, lookup_spi hb, spiRecord, spiRecord, sizeofIrqConfig] at h
  omega

theorem SpiReg.loop_addr (i : ℕ) :
    (reg.loop (n / 4 * 4) val).addr v s i = reg.cell s v (n / 4 * 4 + i) := by
  rw [RegLoop.addr, loop_irqNum, loop_field, cell]

/-- The lookups are as before the write. -/
theorem RegLoop.Written.lookup {L : RegLoop} (W : L.Written v s s') (k : ℕ) :
    s'.lookup v k = s.lookup v k :=
  Hyp.lookup_congr W.vcpus W.vms W.ptr k

theorem RegLoop.Written.dist {L : RegLoop} (W : L.Written v s s') : s'.dist v = s.dist v := by
  rw [Hyp.dist, Hyp.dist, W.vcpus, W.vms]

/-- The lock is free again. -/
theorem RegLoop.Written.free {L : RegLoop} (W : L.Written v s s') (F : VgicFree s v) :
    VgicFree s' v := by
  refine ⟨?_, ?_, ?_, ?_⟩
  · rw [W.vcpus]
    exact F.vm_ne
  · rw [W.dist]
    exact F.dist_ne
  · rw [W.core]
    exact F.core
  · rw [W.dist, W.lock]
    rfl

/-- While the lock is held, a byte that the write left is as it was. -/
theorem RegLoop.Written.held_of_eq {L : RegLoop} (W : L.Written v s s') {x : ℕ}
    (h : x ∈ block (s.dist v + 16) 8 ∨ s'.ram.mem x = s.ram.mem x) :
    (s'.lockDist v).ram.mem x = (s.lockDist v).ram.mem x := by
  rw [Hyp.lockDist_mem, Hyp.lockDist_mem, W.core, W.dist]
  rcases h with hin | heq
  · exact setDistLock_inside hin
  · exact setDistLock_congr heq

theorem word_inj (hn : 32 ≤ n) : ∀ i < (reg.loop (n / 4 * 4) val).n,
    ∀ j < (reg.loop (n / 4 * 4) val).n,
      (reg.loop (n / 4 * 4) val).addr v s i = (reg.loop (n / 4 * 4) val).addr v s j → i = j := by
  intro i _ j _ h
  rw [SpiReg.loop_addr, SpiReg.loop_addr] at h
  have hirq := SpiReg.cell_inj (by omega) (by omega) h
  omega

/-- The bytes of a word that is written are not those of the lock. -/
theorem RegLoop.KeepsDist.cell_out (hkeep : (reg.loop (n / 4 * 4) val).KeepsDist v s) {i : ℕ}
    (hi : n % 4 + i < 4) : reg.cell s v (n + i) ∉ block (s.dist v + 16) 8 := by
  have hirq : n + i = n / 4 * 4 + (n % 4 + i) := by omega
  rw [hirq, ← @SpiReg.loop_addr s v reg n val]
  intro hin
  refine hkeep (n % 4 + i) ?_ (SpiReg.loop_sel _ _ _ _) (block_subset (by omega) (by omega) hin)
  rwa [SpiReg.loop_n]

section written
variable (hn : 32 ≤ n) (hkeep : (reg.loop (n / 4 * 4) val).KeepsDist v s)
  (W : (reg.loop (n / 4 * 4) val).Written v s s')
include hn W

/-- Those behind the word keep theirs, as far as a read sees. -/
theorem written_behind {i : ℕ} (hi : 4 ≤ n % 4 + i) :
    (s'.lockDist v).ram.mem (reg.cell s v (n + i)) =
      (s.lockDist v).ram.mem (reg.cell s v (n + i)) := by
  refine W.held_of_eq ?_
  by_cases hin : reg.cell s v (n + i) ∈ block (s.dist v + 16) 8
  · exact Or.inl hin
  refine Or.inr ((W.mem _ hin).trans (scatter_of_notMem fun j hj _ heq => ?_))
  rw [SpiReg.loop_n] at hj
  rw [SpiReg.loop_addr] at heq
  have hirq := SpiReg.cell_inj (by omega) (by omega) heq
  omega

include hkeep

/-- The interrupts of the word get the bytes of the value in their order. -/
theorem written_cell {i : ℕ} (hi : n % 4 + i < 4) :
    s'.ram.mem (reg.cell s v (n + i)) = valByte val (n % 4 + i) := by
  have hirq : n + i = n / 4 * 4 + (n % 4 + i) := by omega
  rw [W.mem _ (hkeep.cell_out hi), hirq, ← @SpiReg.loop_addr s v reg n val,
    ← SpiReg.loop_byte reg (n / 4 * 4) val]
  refine scatter_of_mem (word_inj hn) ?_ (SpiReg.loop_sel _ _ _ _)
  rwa [SpiReg.loop_n]

omit hn in
/-- A read sees them so. -/
theorem written_shown {i : ℕ} (hi : n % 4 + i < 4) :
    (s'.lockDist v).ram.mem (reg.cell s v (n + i)) = s'.ram.mem (reg.cell s v (n + i)) := by
  refine setDistLock_outside ?_
  rw [W.dist]
  exact hkeep.cell_out hi

/-- The other records keep theirs if what is stored there is there already, and so is what the
lock is left with. -/
theorem written_others_iff {irqs : Set Irq} {field : ℕ} :
    Set.EqOn s'.ram.mem s.ram.mem (S.others s irqs field) ↔
      (reg.loop (n / 4 * 4) val).Harmless v s (S.others s irqs field) ∧
      Set.EqOn (setDistLock s.ram.mem (s.dist v) (.leftBy s.ram.core)) s.ram.mem
        (S.others s irqs field) := by
  rw [RegLoop.Harmless]
  constructor
  · intro h
    refine ⟨fun i hi hsel hx => ?_, fun x hx => ?_⟩
    · have hout : (reg.loop (n / 4 * 4) val).addr v s i ∉ block (s.dist v + 16) 8 := fun hin =>
        hkeep i hi hsel (block_subset (by omega) (by omega) hin)
      rw [← h hx, W.mem _ hout]
      exact scatter_of_mem (word_inj hn) hi hsel
    · by_cases hin : x ∈ block (s.dist v + 16) 8
      · rw [← W.locked hin]
        exact h hx
      · exact setDistLock_outside hin
  · rintro ⟨hstores, hlock⟩ x hx
    by_cases hin : x ∈ block (s.dist v + 16) 8
    · rw [W.locked hin]
      exact hlock hx
    · rw [W.mem x hin]
      exact eqOn_scatter hstores hx

omit hkeep hn in
/-- **A read afterwards** shows four interrupts. -/
theorem written_read (F : VgicFree s v) (hdev : n < 1020) (isen : BitVec 32) (r : Fin 31) :
    readResult isen s' v (reg.base + n) r = some (0,
      (gathered (s'.lockDist v).ram.mem (fun i => reg.cell s v (n + i)) 8 0 4).setWidth 64) := by
  have hoff : ¬ (0x100 ≤ reg.base + n ∧ reg.base + n ≤ 0x17f) := by
    cases reg <;> simp only [SpiReg.base] <;> omega
  have haddr : RegFields.addr ⟨n, 4, reg.field, 8⟩ v (s'.lockDist v) =
      fun i => reg.cell s v (n + i) := by
    funext i
    rw [RegFields.addr, lockDist_lookup, W.lookup, SpiReg.cell]
  rw [readResult_eq (W.free F), gicdValue_isen hoff,
    gicdValue_fields (SpiReg.gicdFields_base hdev), haddr]

end written

/-- The other interrupts of the word are there, and not named. -/
theorem SpiReady.cell_other (R : SpiReady S s v) (hn : 32 ≤ n) (hmax : n ≤ S.max)
    (hdev : n < 1020) {i : ℕ} (hi : n % 4 + i < 4) (hle : size ≤ i) :
    reg.cell s v (n + i) ∈ S.others s (s.named v n size) reg.field := by
  obtain ⟨N, _, hlimit⟩ := R.limit
  refine ⟨s.irq v (n + i), ?_, reg.field, reg.field_lt, ?_, ?_⟩
  · rw [irq_spi (by omega)]
    exact ⟨R.machine, by omega, by omega, by omega⟩
  · rw [record_irq (by omega), SpiReg.cell]
  · rintro ⟨⟨j, hj, heq⟩, _⟩
    rw [irq_spi (by omega), irq_spi (by omega)] at heq
    injection heq with _ hirq
    omega

/-- The first byte of what is read is the byte at the address. -/
theorem setWidth_readLe (m : Mem) (a : ℕ) :
    (BitVec.ofNat 32 (readLe m a 4)).setWidth 8 = m a := by
  apply BitVec.eq_of_toNat_eq
  have hbyte := (m a).isLt
  simp only [BitVec.toNat_setWidth, BitVec.toNat_ofNat, readLe]
  omega

/-- **A word that lies over the lock**: when the record of its first interrupt begins with the lock,
no write of its four priorities agrees with a read.  The second one is the byte `lock`, which
`arch_spin_unlock` looks at and clears. -/
theorem spiAgrees_not_lock (R : SpiReady S s v) (hn : 32 ≤ n) (hdev : n < 1020) (hal : n % 4 = 0)
    (hover : s.lookup v n = s.dist v + 16) (val : BitVec 64) :
    ¬ SpiAgrees S s v .priority n 4 val := by
  rintro ⟨t, hrun, D⟩
  have F := R.toVgicFree
  have hword : n / 4 * 4 = n := by omega
  have hlookup : ∀ i, s.lookup v (n + i) = s.dist v + 16 + 4 * i := by
    intro i
    rw [← hover, lookup_spi (by omega), lookup_spi hn, spiRecord, spiRecord, sizeofIrqConfig]
    omega
  have haddr : ∀ i, (prioLoop n val).addr v (s.lockDist v) i = s.dist v + 16 + 4 * i := by
    intro i
    rw [RegLoop.addr, lockDist_lookup]
    exact hlookup i
  have hptr : (prioLoop n val).KeepsPtr v (s.lockDist v) := by
    intro i _ _ hin
    rw [haddr, Hyp.lockDist_dist, mem_block] at hin
    omega
  have hL : gicdLoop (SpiReg.priority.base + n) val = some (prioLoop n val) := by
    have hloop := @SpiReg.gicdLoop_base .priority n hdev val
    rwa [hword] at hloop
  have hreg : vgicdWriteReg v (s.dist v) (SpiReg.priority.base + n) val (s.lockDist v) =
      .ok true ((prioLoop n val).after v (s.lockDist v) 4) :=
    vgicdWriteReg_loop hL F.vm_ne F.dist_ne hptr
  have hlock : withDistLock (s.dist v) archSpinLock s = .ok () (s.lockDist v) := by
    refine eq_of_wp (y := set (s.lockDist v)) fun Q E h => (wp_distLock F.lock_free).mpr ?_
    rwa [wp_set] at h
  rw [vgicdWrite_eq F, bind_of_ok hlock, bind_of_ok hreg] at hrun
  -- the byte `lock` is the second byte of the value
  have hset : ((prioLoop n val).after v (s.lockDist v) 4).ram.mem (s.dist v + 20) =
      valByte val 1 := by
    have hsecond := haddr 1
    rw [RegLoop.after_mem, ← hsecond]
    refine scatter_of_mem (fun i _ j _ h => ?_) (by decide) rfl
    rw [haddr, haddr] at h
    omega
  generalize (prioLoop n val).after v (s.lockDist v) 4 = u at hset hrun
  have hcleared : wp (do withDistLock (s.dist v) archSpinUnlock; pure (0 : ℤ) : Exec Hyp ℤ)
      (fun _ t => valByte val 1 ≠ 0 ∧ t.ram.mem (s.dist v + 20) = 0) (fun _ _ => True) u := by
    rw [wp_bind]
    refine withDistLock_ends fun l hl => ?_
    rw [wp_pure]
    refine ⟨fun hzero => ?_, ?_⟩
    · have hheld : spinCheck u.ram.core (distLock u.ram.mem (s.dist v)) = false := by
        rw [spinCheck, Spinlock.lock, distLock, setWidth_readLe, hset, hzero]
        rfl
      rw [archSpinUnlock, hheld] at hl
      cases hl
    · have hword := word_distLock u.ram.mem (s.dist v) l
      rw [word_of_archSpinUnlock hl] at hword
      rw [Hyp.withMem_mem, ← setWidth_readLe (setDistLock _ _ _)]
      exact congrArg (BitVec.setWidth 8) hword
  obtain ⟨hne, hzero⟩ := ok_of_wp hcleared hrun
  have hsets := D.sets 1 (by decide)
  have hcell : SpiReg.priority.cell s v (n + 1) = s.dist v + 20 := hlookup 1
  rw [hcell, hzero] at hsets
  exact hne hsets.symm

/-- An access to a word whose records lie over no other ones. -/
theorem SpiHarmless.word (hal : n % 4 = 0)
    (hout : ∀ i < 4, reg.cell s v (n + i) ∉ S.others s (s.named v n 4) reg.field)
    (hlock : Set.EqOn (setDistLock s.ram.mem (s.dist v) (.leftBy s.ram.core)) s.ram.mem
      (S.others s (s.named v n 4) reg.field)) : SpiHarmless S s v reg n 4 val := by
  have hword : n / 4 * 4 = n := by omega
  refine ⟨fun i _ => ?_, fun i hi _ hin => ?_, hlock, fun i hi hle => absurd hi (by omega)⟩
  · rw [hal, Nat.zero_add]
  · rw [SpiReg.loop_n] at hi
    rw [SpiReg.loop_addr, hword] at hin
    exact absurd hin (hout i hi)

end access

/-! ## A machine with thirty-two shared interrupts -/

/-- The only machine, and its virtual CPU. -/
def oneMachine : GicSystem := ⟨{0}, {0x1000}, 63⟩

section filled
variable {fill : Byte} {n : ℕ}

theorem filled_irq {q : Irq} (hq : oneMachine.Has q) : ∃ n, q = (filledHyp fill 63).irq 0 n := by
  cases q with
  | priv v n =>
      obtain ⟨hv, hn⟩ := hq
      obtain rfl : v = 0 := hv
      exact ⟨n, (if_pos hn).symm⟩
  | spi vm n =>
      obtain ⟨hvm, hn, _⟩ := hq
      obtain rfl : vm = 0x1000 := hvm
      refine ⟨n, ?_⟩
      rw [irq_spi hn]
      rfl

theorem filled_spiReady (fill : Byte) : SpiReady oneMachine (filledHyp fill 63) 0 where
  toVgicFree := filled_fits.toVgicFree
  machine := rfl
  limit := ⟨1, by decide, rfl⟩
  max_spi := rfl

theorem filled_record : ((filledHyp fill 63).irq 0 n).record (filledHyp fill 63) =
    slotAddr 0x300000 0x100000 n := by
  rw [Hyp.irq, slotAddr]
  by_cases hn : n < 32
  · rw [if_pos hn, Irq.record, slotAddr, if_pos hn, if_pos hn]
    rfl
  · have hspis : (filledHyp fill 63).spis 0 = 0x100000 := filled_spis
    rw [if_neg hn, if_neg (by omega), if_neg hn, ← hspis]
    rfl

/-- No record lies over another one. -/
theorem filled_cell_out {reg : SpiReg} (hn : 32 ≤ n) (hmax : n < 0x1000) {irqs : Set Irq}
    (hnamed : (filledHyp fill 63).irq 0 n ∈ irqs) :
    reg.cell (filledHyp fill 63) 0 n ∉ oneMachine.others (filledHyp fill 63) irqs reg.field := by
  rintro ⟨q, hq, f, hf, heq, hother⟩
  obtain ⟨k, rfl⟩ := @filled_irq fill q hq
  have hfield := reg.field_lt
  have hk : k < 1020 := by
    by_contra hge
    rw [irq_spi (by omega)] at hq
    obtain ⟨_, _, _, hlt⟩ := hq
    omega
  rw [filled_record, SpiReg.cell, filled_lookup, irqAddr_eq_slotAddr (Or.inr hn)] at heq
  simp only [slotAddr, sgiAddr, ppiAddr, sizeofIrqConfig] at heq
  rw [if_neg (by omega), if_neg (by omega)] at heq
  have hsame : k = n ∧ f = reg.field := by
    split at heq
    · omega
    · split at heq <;> omega
  exact hother ⟨hsame.1 ▸ hnamed, hsame.2⟩

/-- None of them lies over the lock. -/
theorem filled_lock_kept (l : Spinlock) (irqs : Set Irq) (field : ℕ) :
    Set.EqOn (setDistLock (filledHyp fill 63).ram.mem ((filledHyp fill 63).dist 0) l)
      (filledHyp fill 63).ram.mem (oneMachine.others (filledHyp fill 63) irqs field) := by
  rintro x ⟨q, hq, f, _, rfl, _⟩
  obtain ⟨n, rfl⟩ := @filled_irq fill q hq
  refine setDistLock_outside fun hin => ?_
  rw [filled_record, filled_dist] at hin
  simp only [mem_block, slotAddr, sgiAddr, ppiAddr] at hin
  split at hin
  · omega
  · split at hin <;> omega

end filled

end Xhyper
