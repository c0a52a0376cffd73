import Xhyper.VgicRecords

/-!
# Accesses to the distributor and the implemented interrupts

The registers of the distributor are for 1024 interrupts whatever number of them is
implemented.  An access is contained if it works on the records of implemented interrupts only:
what a read gives does not depend on other bytes, a write changes no others and leaves the
physical controller's settings of other interrupts, and fields of interrupts that are not
implemented read as zero.

Neither function looks at the number of implemented interrupts.  The records of the private
interrupts 16 to 31 are looked for behind the array they are in.

## Main definitions

* `Hyp.own` — the bytes of the distributor and of the records of implemented interrupts.
* `GicdAccess`, `Contained` — an access, and what containment is.
* `GicdAccess.Implemented` — the accesses that name implemented interrupts only.
* `filledHyp` — a machine in which any other access shows what it does.
* `vgicd_contained` — these are the contained ones.
-/

namespace Xhyper

open Memory Prog

/-! ## What belongs to the implemented interrupts -/

/-- The bytes of the distributor of `v` and of the records of implemented interrupts. -/
def Hyp.own (s : Hyp) (v : Fin ncpu) : Set ℕ :=
  block (s.dist v) sizeofVgicDist ∪ {x | ∃ irq : ℕ, (irq : ℤ) ≤ s.gicMaxSpi ∧
    x ∈ block (slotAddr (s.vcpus v).vgicCpu (s.spis v) irq) sizeofIrqConfig}

/-- The target of an interrupt in the physical distributor. -/
def Gicd.target (d : Gicd) (irq : ℕ) : Byte :=
  (d.read (gicdItargetsr (irq / 4)) >>> (irq % 4 * 8)).setWidth 8

/-- The physical distributor's settings of an interrupt are the same. -/
def SameIrq (d d' : Gicd) (irq : ℕ) : Prop :=
  d'.enabled irq = d.enabled irq ∧ d'.target irq = d.target irq

/-- Where the field of an interrupt is in the word at an offset: its lowest bit and its width. -/
def gicdField (offset irq : ℕ) : Option (ℕ × ℕ) :=
  if 0x80 ≤ offset ∧ offset ≤ 0x3ff then
    -- seven groups of registers with a bit for each interrupt
    if offset % 0x80 / 4 = irq / 32 then some (irq % 32, 1) else none
  else if 0x400 ≤ offset ∧ offset ≤ 0xbff then
    -- priorities and targets
    if offset % 0x400 ≤ irq ∧ irq < offset % 0x400 + 4 ∧ irq < 1020 then
      some ((irq - offset % 0x400) * 8, 8)
    else none
  else if 0xc00 ≤ offset ∧ offset ≤ 0xcff then
    if (offset - 0xc00) / 4 = irq / 16 then some (irq % 16 * 2, 2) else none
  else if 0x6000 ≤ offset ∧ offset ≤ 0x7fdf then
    if (offset - 0x6000) / 8 = irq then some (0, 32) else none
  else none

/-! ## Containment -/

/-- A guest's access to its distributor, with the register that gets what is read. -/
structure GicdAccess where
  wnr : Bool
  offset : ℕ
  val : BitVec 64
  reg : Fin 31

/-- What a read gives: its result, and the guest's register. -/
def readResult (isen : BitVec 32) (s : Hyp) (v : Fin ncpu) (offset : ℕ) (r : Fin 31) :
    Option (ℤ × BitVec 64) :=
  match vgicdRead isen v offset (some r) s with
  | .ok rc s' => some (rc, (s'.vcpus v).regs.x r)
  | .error _ _ => none

/-- A read that is contained. -/
structure ReadContained (isen : BitVec 32) (s : Hyp) (v : Fin ncpu) (offset : ℕ) (r : Fin 31) :
    Prop where
  depends : ∀ m, Set.EqOn m s.ram.mem (s.own v) →
    readResult isen (s.withMem m) v offset r = readResult isen s v offset r
  zero : ∀ irq : ℕ, s.gicMaxSpi < irq → ∀ lo width, gicdField offset irq = some (lo, width) →
    ∃ x, readResult isen s v offset r = some (0, x) ∧ ∀ i < width, x.getLsbD (lo + i) = false
  frame : wp (vgicdRead isen v offset (some r))
    (fun _ s' => Set.EqOn s'.ram.mem s.ram.mem (s.own v)ᶜ ∧ s'.gic = s.gic) (fun _ _ => False) s

/-- A write that is contained. -/
def WriteContained (s : Hyp) (v : Fin ncpu) (offset : ℕ) (val : BitVec 64) : Prop :=
  wp (vgicdWrite v offset val)
    (fun _ s' => Set.EqOn s'.ram.mem s.ram.mem (s.own v)ᶜ ∧
      ∀ irq : ℕ, s.gicMaxSpi < irq → irq < 1024 → SameIrq s.gicd s'.gicd irq)
    (fun _ _ => False) s

/-- **An access that is contained.** -/
def Contained (isen : BitVec 32) (s : Hyp) (v : Fin ncpu) (a : GicdAccess) : Prop :=
  if a.wnr then WriteContained s v a.offset a.val else ReadContained isen s v a.offset a.reg

/-! ## The accesses that are -/

/-- An interrupt that is implemented and whose record is looked for where it is. -/
def HasSlot (max irq : ℕ) : Prop := irq < 16 ∨ 32 ≤ irq ∧ irq ≤ max

instance (max irq : ℕ) : Decidable (HasSlot max irq) := inferInstanceAs (Decidable (_ ∨ _))

/-- The registers of interrupts that are not implemented whose reads are refused: of
`GICD_ICENABLER`, and the upper half of the last `GICD_IROUTER`. -/
def ReadRefused (max offset : ℕ) : Prop :=
  0x180 ≤ offset ∧ offset ≤ 0x1ff ∧ max < (offset - 0x180) / 4 * 32 ∨
    0x7fdc ≤ offset ∧ offset ≤ 0x7fdf ∧ max < 1019

/-- An access that names implemented interrupts only, and none from 16 to 31. -/
def GicdAccess.Implemented (max : ℕ) (a : GicdAccess) : Prop :=
  if a.wnr then ∀ L ∈ gicdLoop a.offset a.val, ∀ i < L.n, L.sel i = true →
    HasSlot max (L.irqNum + i)
  else (∀ F ∈ gicdFields a.offset, ∀ i < F.n, HasSlot max (F.irqNum + i)) ∧
    ¬ ReadRefused max a.offset

/-- The bytes that an access sets in records are neither the pointer to the records nor the lock.
As many bytes as there are interrupts are allocated for the records, so that those of implemented
interrupts may lie over both. -/
def GicdAccess.KeepsDist (a : GicdAccess) (v : Fin ncpu) (s : Hyp) : Prop :=
  a.wnr = true → ∀ L ∈ gicdLoop a.offset a.val, L.KeepsDist v s

/-- The virtual CPU `v` between two accesses, where `max` is the last implemented interrupt. -/
structure VgicFits (s : Hyp) (v : Fin ncpu) (max : ℕ) : Prop extends VgicFree s v where
  max_spi : s.gicMaxSpi = max

/-- The number of interrupts is a multiple of 32, and at most 1024. -/
def SpiLimit (max : ℕ) : Prop := ∃ N < 32, max = 32 * (N + 1) - 1

/-! ## Where the records of these are -/

section slots
variable {s : Hyp} {v : Fin ncpu} {max irq : ℕ}

/-- The code looks for a record where it is. -/
theorem HasSlot.lookup (h : HasSlot max irq) :
    s.lookup v irq = slotAddr (s.vcpus v).vgicCpu (s.spis v) irq :=
  irqAddr_eq_slotAddr (h.imp_right And.left)

theorem HasSlot.le (hmax : SpiLimit max) (h : HasSlot max irq) : irq ≤ max := by
  obtain ⟨N, _, rfl⟩ := hmax
  rcases h with hsgi | ⟨_, hle⟩
  · omega
  · exact hle

/-- Such a record is one of the bytes that belong to the implemented interrupts. -/
theorem HasSlot.mem_own (hmax : SpiLimit max) (hs : s.gicMaxSpi = max) (h : HasSlot max irq)
    {f : ℕ} (hf : f < 4) : s.lookup v irq + f ∈ s.own v := by
  refine Or.inr ⟨irq, ?_, ?_⟩
  · rw [hs]
    exact_mod_cast h.le hmax
  · rw [h.lookup, mem_block, sizeofIrqConfig]
    omega

theorem dist_mem_own {x : ℕ} (hx : x ∈ block (s.dist v) sizeofVgicDist) : x ∈ s.own v := Or.inl hx

end slots

/-! ## A write that names implemented interrupts only -/

/-- The registers with a loop: the interrupts, and what is done for each. -/
theorem gicdLoop_cases {offset : ℕ} {val : BitVec 64} {L : RegLoop}
    (h : gicdLoop offset val = some L) :
    (∃ k < 32, L = enableLoop (k * 32) val 1 Gic.unmask) ∨
      (∃ k < 64, 32 ≤ k ∧ L = enableLoop (k * 32) val 0 Gic.mask) ∨
      (∃ k < 255, L = prioLoop (k * 4) val) ∨ ∃ k < 255, L = targetLoop (k * 4) val := by
  rw [gicdLoop, gicdIsenabler] at h
  by_cases hset : 0x100 ≤ offset ∧ offset ≤ 0x17f
  · rw [if_pos hset] at h
    exact Or.inl ⟨_, by omega, (Option.some.inj h).symm⟩
  rw [if_neg hset] at h
  by_cases hclear : 0x180 ≤ offset ∧ offset ≤ 0x1ff
  · rw [if_pos hclear] at h
    exact Or.inr (Or.inl ⟨_, by omega, by omega, (Option.some.inj h).symm⟩)
  rw [if_neg hclear] at h
  by_cases hprio : 0x400 ≤ offset ∧ offset ≤ 0x7fb
  · rw [if_pos hprio] at h
    exact Or.inr (Or.inr (Or.inl ⟨_, by omega, (Option.some.inj h).symm⟩))
  rw [if_neg hprio] at h
  by_cases htarget : 0x800 ≤ offset ∧ offset ≤ 0xbfb
  · rw [if_pos htarget] at h
    exact Or.inr (Or.inr (Or.inr ⟨_, by omega, (Option.some.inj h).symm⟩))
  · rw [if_neg htarget] at h
    cases h

/-- One of the first three bytes of a record is set. -/
theorem gicdLoop_field {offset : ℕ} {val : BitVec 64} {L : RegLoop}
    (h : gicdLoop offset val = some L) : L.field < 4 := by
  rcases gicdLoop_cases h with ⟨k, _, rfl⟩ | ⟨k, _, _, rfl⟩ | ⟨k, _, rfl⟩ | ⟨k, _, rfl⟩
  · exact show 2 < 4 by decide
  · exact show 2 < 4 by decide
  · exact show 0 < 4 by decide
  · exact show 1 < 4 by decide

theorem gicdLoop_lt {offset i : ℕ} {val : BitVec 64} {L : RegLoop}
    (h : gicdLoop offset val = some L) (hi : i < L.n) : L.irqNum + i < 0x1000 := by
  rcases gicdLoop_cases h with ⟨k, hk, rfl⟩ | ⟨k, hk, _, rfl⟩ | ⟨k, hk, rfl⟩ | ⟨k, hk, rfl⟩ <;>
  · simp only [enableLoop, prioLoop, targetLoop] at hi ⊢
    omega

section hardware
variable {d : Gicd} {g : Gic} {irq other max : ℕ}

@[simp] theorem SameIrq.refl : SameIrq d d irq := ⟨rfl, rfl⟩

theorem SameIrq.trans {d' d'' : Gicd} (h : SameIrq d d' irq) (h' : SameIrq d' d'' irq) :
    SameIrq d d'' irq :=
  ⟨h'.1.trans h.1, h'.2.trans h.2⟩

/-- The targets are none of the enable bits. -/
theorem read_itargetsr (d : Gicd) (n : ℕ) :
    d.read (gicdItargetsr n) = d.regs (gicdItargetsr n) := by
  rw [Gicd.read, gicdItargetsr, if_neg (by omega), if_neg (by omega)]

theorem write_itargetsr (d : Gicd) (n : ℕ) (x : BitVec 32) :
    d.write (gicdItargetsr n) x =
      { d with regs := Function.update d.regs (gicdItargetsr n) x } := by
  rw [Gicd.write, gicdItargetsr, if_neg (by omega), if_neg (by omega)]

/-- The other targets stay as they are. -/
theorem read_write_itargetsr (d : Gicd) {n n' : ℕ} (h : n' ≠ n) (x : BitVec 32) :
    (d.write (gicdItargetsr n) x).read (gicdItargetsr n') = d.read (gicdItargetsr n') := by
  have hword : gicdItargetsr n' ≠ gicdItargetsr n := by
    simp only [gicdItargetsr]
    omega
  rw [read_itargetsr, read_itargetsr, write_itargetsr]
  exact Function.update_of_ne hword _ _

theorem setEnable_regs (d : Gicd) (h : irq < 1024) : (d.setEnable irq).regs = d.regs := by
  have hin : 0x100 ≤ 0x100 + irq / 32 * 4 ∧ 0x100 + irq / 32 * 4 < 0x180 := by omega
  rw [Gicd.setEnable, Gicd.write, gicdIsenabler, if_pos hin]

/-- An implemented interrupt that is unmasked. -/
theorem unmask_same (hmax : SpiLimit max) (hslot : HasSlot max irq) (hne : max < other)
    (core : ℕ) : SameIrq g.gicd (g.unmask core irq).gicd other := by
  obtain ⟨N, hN, rfl⟩ := hmax
  have hirq := hslot.le ⟨N, hN, rfl⟩
  rw [Gic.unmask, if_neg (by simp only [gicMinLpi]; omega)]
  by_cases hspi : gicMinSpi0 ≤ irq
  · rw [if_pos hspi]
    constructor
    · rw [enabled_setEnable _ (by omega), decide_eq_false (by omega), Bool.or_false]
    · rw [Gicd.target, Gicd.target, read_itargetsr, read_itargetsr, setEnable_regs _ (by omega)]
  · rw [if_neg hspi]
    exact SameIrq.refl

/-- An implemented interrupt that gets another target. -/
theorem retarget_same (hmax : SpiLimit max) (hslot : HasSlot max irq) (hne : max < other)
    (target : BitVec 32) : SameIrq g.gicd (g.retarget irq target).gicd other := by
  obtain ⟨N, hN, rfl⟩ := hmax
  have hirq := hslot.le ⟨N, hN, rfl⟩
  rw [Gic.retarget]
  by_cases hsgi : irq < gicMinSpi0
  · rw [if_pos hsgi]
    exact SameIrq.refl
  rw [if_neg hsgi, if_neg (by simp only [gicMinLpi]; omega)]
  dsimp only
  constructor
  · rw [write_itargetsr]
    rfl
  · rw [Gicd.target, Gicd.target, read_write_itargetsr _ (by omega)]

/-- **What the physical controller is told for one interrupt.** -/
theorem tell_same {offset i core : ℕ} {val : BitVec 64} {L : RegLoop} (hmax : SpiLimit max)
    (hL : gicdLoop offset val = some L) (hslot : HasSlot max (L.irqNum + i)) (hne : max < other) :
    SameIrq g.gicd (L.tell core i g).gicd other := by
  have hle := hslot.le hmax
  rcases gicdLoop_cases hL with ⟨k, _, rfl⟩ | ⟨k, _, hk, rfl⟩ | ⟨k, _, rfl⟩ | ⟨k, _, rfl⟩
  · exact unmask_same hmax hslot hne core
  · obtain ⟨N, hN, rfl⟩ := hmax
    have hnum : (enableLoop (k * 32) val 0 Gic.mask).irqNum = k * 32 := rfl
    omega
  · exact SameIrq.refl
  · exact retarget_same hmax hslot hne _

theorem gicAfter_same {offset core : ℕ} {val : BitVec 64} {L : RegLoop} (hmax : SpiLimit max)
    (hL : gicdLoop offset val = some L)
    (himp : ∀ i < L.n, L.sel i = true → HasSlot max (L.irqNum + i)) (hne : max < other) {k : ℕ}
    (hk : k ≤ L.n) : SameIrq g.gicd (L.gicAfter core g k).gicd other := by
  induction k with
  | zero => exact SameIrq.refl
  | succ k ih =>
      rw [RegLoop.gicAfter]
      by_cases hsel : L.sel k = true
      · rw [if_pos hsel]
        exact (ih (by omega)).trans (tell_same hmax hL (himp k hk hsel) hne)
      · rw [if_neg hsel]
        exact ih (by omega)

end hardware

section writes
variable {s : Hyp} {v : Fin ncpu} {max offset : ℕ} {val : BitVec 64}

/-- **A write that names implemented interrupts only is contained.** -/
theorem writeContained (hmax : SpiLimit max) (F : VgicFits s v max)
    (hkeep : ∀ L ∈ gicdLoop offset val, L.KeepsDist v s)
    (himp : ∀ L ∈ gicdLoop offset val, ∀ i < L.n, L.sel i = true → HasSlot max (L.irqNum + i)) :
    WriteContained s v offset val := by
  cases hL : gicdLoop offset val with
  | none =>
      obtain ⟨r, m, hrun, hm⟩ := vgicdWrite_none F.toVgicFree hL
      refine (wp_iff_of_ok hrun).mpr ⟨fun x hx => hm fun hd => hx (dist_mem_own hd), ?_⟩
      exact fun irq _ _ => SameIrq.refl
  | some L =>
      have himpL := himp L hL
      have hfield := gicdLoop_field hL
      obtain ⟨s', hrun, W⟩ := vgicdWrite_loop F.toVgicFree hL (hkeep L hL)
      refine (wp_iff_of_ok hrun).mpr ⟨fun x hx => ?_, fun irq hgt _ => ?_⟩
      · rw [W.mem x fun hd => hx (dist_mem_own (lock_subset_dist _ hd))]
        refine scatter_of_notMem fun i hi hsel heq => hx ?_
        rw [heq]
        exact (himpL i hi hsel).mem_own hmax F.max_spi hfield
      · have hgic : s'.gicd = (L.gicAfter s.ram.core s.gic L.n).gicd := congrArg Gic.gicd W.gic
        rw [F.max_spi] at hgt
        rw [hgic]
        exact gicAfter_same (g := s.gic) hmax hL himpL (by exact_mod_cast hgt) le_rfl

end writes

/-! ## A read that names implemented interrupts only -/

/-- The lock is written over two memories alike. -/
theorem setDistLock_congr {m m' : Mem} {a x : ℕ} {l : Spinlock} (h : m x = m' x) :
    setDistLock m a l x = setDistLock m' a l x := by
  rw [setDistLock, setDistLock, writeLe, writeLe, writeLe, writeLe]
  split
  · rfl
  · split
    · rfl
    · exact h

/-- What is gathered depends on the bytes that are looked at only. -/
theorem gathered_congr {m m' : Mem} {addr addr' : ℕ → ℕ} {width : ℕ} {init : BitVec 32} {k : ℕ}
    (h : ∀ i < k, m (addr i) = m' (addr' i)) :
    gathered m addr width init k = gathered m' addr' width init k := by
  induction k with
  | zero => rfl
  | succ k ih =>
      rw [gathered, gathered, ih fun i hi => h i (Nat.lt_succ_of_lt hi), h k (Nat.lt_succ_self k)]

section reads
variable {s : Hyp} {v : Fin ncpu} {max offset : ℕ} {isen : BitVec 32} {r : Fin 31}

/-- The lock is one of the distributor's fields. -/
theorem lockDist_outside {x : ℕ} (hx : x ∉ block (s.dist v) sizeofVgicDist) :
    (s.lockDist v).ram.mem x = s.ram.mem x :=
  setDistLock_outside fun hin => hx (lock_subset_dist _ hin)

section others
variable {m : Mem} (hm : Set.EqOn m s.ram.mem (block (s.dist v) sizeofVgicDist))
include hm

/-- Other memory does not matter to the lock. -/
theorem VgicFree.withMem (F : VgicFree s v) : VgicFree (s.withMem m) v := by
  have hlock : distLock m (s.dist v) = distLock s.ram.mem (s.dist v) :=
    distLock_of_eqOn (hm.mono (lock_subset_dist _))
  exact ⟨F.vm_ne, F.dist_ne, F.core, (congrArg Spinlock.word hlock).trans F.lock_free⟩

/-- Nor to where the records are. -/
theorem withMem_lookup (irq : ℕ) : (s.withMem m).lookup v irq = s.lookup v irq :=
  Hyp.lookup_congr (Hyp.withMem_vcpus s m) (Hyp.withMem_vms s m) (hm.mono (ptr_subset_dist _)) irq

end others

/-- The result of a read is the register's value, or a refusal. -/
theorem readResult_eq (F : VgicFree s v) : readResult isen s v offset r =
    match gicdValue isen (s.lockDist v) v offset with
    | some x => some (0, x)
    | none => some (-1, (s.vcpus v).regs.x r) := by
  rw [readResult, vgicdRead_runs F]
  cases gicdValue isen (s.lockDist v) v offset with
  | none => rfl
  | some x =>
      simp [Hyp.setX, Hyp.setVcpu]

/-- The fields that a read shows are of the first four bytes of a record. -/
theorem gicdFields_field {F : RegFields} (h : gicdFields offset = some F) : F.field < 4 := by
  rw [gicdFields] at h
  split at h
  · rw [← Option.some.inj h]
    exact show 3 < 4 by decide
  split at h
  · rw [← Option.some.inj h]
    exact show 2 < 4 by decide
  split at h
  · rw [← Option.some.inj h]
    exact show 0 < 4 by decide
  split at h
  · rw [← Option.some.inj h]
    exact show 1 < 4 by decide
  · cases h

/-- The value of a register depends on the distributor's own bytes and on those of the records it
names. -/
theorem gicdValue_congr {t : Hyp} (hvcpus : t.vcpus = s.vcpus) (hvms : t.vms = s.vms)
    (hgicd : t.gicd = s.gicd)
    (hhead : Set.EqOn t.ram.mem s.ram.mem (block (s.dist v) sizeofVgicDist))
    (hrec : ∀ F ∈ gicdFields offset, ∀ i < F.n,
      t.ram.mem (F.addr v s i) = s.ram.mem (F.addr v s i)) :
    gicdValue isen t v offset = gicdValue isen s v offset := by
  have hdist : t.dist v = s.dist v := by rw [Hyp.dist, hvcpus, hvms, Hyp.dist]
  have hread : ∀ i n, i + n ≤ sizeofVgicDist →
      readLe t.ram.mem (t.dist v + i) n = readLe s.ram.mem (s.dist v + i) n := by
    intro i n hin
    rw [hdist]
    exact readLe_congr (hhead.mono (block_subset (Nat.le_add_right _ i) (by omega)))
  have hspis : t.spis v = s.spis v := hread 8 8 (by decide)
  rw [gicdValue, gicdValue]
  cases hF : gicdFields offset with
  | some F =>
      have haddr : F.addr v t = F.addr v s := by
        funext i
        rw [RegFields.addr, RegFields.addr, Hyp.lookup, Hyp.lookup, hspis, hvcpus]
      have hsame : ∀ init, gathered t.ram.mem (F.addr v t) F.width init F.n =
          gathered s.ram.mem (F.addr v s) F.width init F.n := by
        intro init
        rw [haddr]
        exact gathered_congr fun i hi => hrec F hF i hi
      dsimp only
      rw [hsame]
  | none =>
      have h0 := hread 0 4 (by decide)
      rw [Nat.add_zero, Nat.add_zero] at h0
      dsimp only
      rw [h0, hread 4 1 (by decide), hgicd]

/-- What the register holds does not depend on other bytes. -/
theorem readContained_depends (hmax : SpiLimit max) (F : VgicFits s v max)
    (himp : ∀ F ∈ gicdFields offset, ∀ i < F.n, HasSlot max (F.irqNum + i)) {m : Mem}
    (hm : Set.EqOn m s.ram.mem (s.own v)) :
    readResult isen (s.withMem m) v offset r = readResult isen s v offset r := by
  have F' : VgicFree (s.withMem m) v := F.toVgicFree.withMem fun x hx => hm (dist_mem_own hx)
  have hdist : (s.withMem m).dist v = s.dist v := rfl
  have hlocked : ∀ x ∈ s.own v,
      ((s.withMem m).lockDist v).ram.mem x = (s.lockDist v).ram.mem x := by
    intro x hx
    rw [Hyp.lockDist_mem, Hyp.lockDist_mem, Hyp.withMem_mem, Hyp.withMem_core, hdist]
    exact setDistLock_congr (hm hx)
  have hvalue : gicdValue isen ((s.withMem m).lockDist v) v offset =
      gicdValue isen (s.lockDist v) v offset := by
    refine gicdValue_congr (s := s.lockDist v) rfl rfl rfl (fun x hx => ?_) fun G hG i hi => ?_
    · exact hlocked x (dist_mem_own hx)
    · refine hlocked _ ?_
      rw [RegFields.addr, lockDist_lookup]
      exact (himp G hG i hi).mem_own hmax F.max_spi (gicdFields_field hG)
  rw [readResult_eq F', readResult_eq F.toVgicFree, hvalue]
  rfl

/-- Where the registers with a field for an interrupt are. -/
theorem gicdField_cases {irq lo width : ℕ} (h : gicdField offset irq = some (lo, width)) :
    (0x80 ≤ offset ∧ offset ≤ 0x3ff ∧ offset % 0x80 / 4 = irq / 32) ∨
      (0x400 ≤ offset ∧ offset ≤ 0xbff ∧ offset % 0x400 ≤ irq ∧ irq < offset % 0x400 + 4 ∧
        irq < 1020) ∨
      (0xc00 ≤ offset ∧ offset ≤ 0xcff) ∨
      (0x6000 ≤ offset ∧ offset ≤ 0x7fdf ∧ (offset - 0x6000) / 8 = irq) := by
  rw [gicdField] at h
  split at h
  case isTrue hbits =>
    split at h
    case isTrue hword => exact Or.inl ⟨hbits.1, hbits.2, hword⟩
    case isFalse => cases h
  split at h
  case isTrue hbytes =>
    split at h
    case isTrue hbyte => exact Or.inr (Or.inl ⟨hbytes.1, hbytes.2, hbyte⟩)
    case isFalse => cases h
  split at h
  case isTrue hcfg => exact Or.inr (Or.inr (Or.inl hcfg))
  split at h
  case isTrue hroute =>
    split at h
    case isTrue hirq => exact Or.inr (Or.inr (Or.inr ⟨hroute.1, hroute.2, hirq⟩))
    case isFalse => cases h
  case isFalse => cases h

/-- **What is shown of interrupts that are not implemented is zero.** -/
theorem gicdValue_zero {t : Hyp} {irq lo width : ℕ} (hmax : SpiLimit max)
    (himp : ∀ F ∈ gicdFields offset, ∀ i < F.n, HasSlot max (F.irqNum + i))
    (hread : ¬ ReadRefused max offset) (hgt : max < irq)
    (hfield : gicdField offset irq = some (lo, width)) : gicdValue isen t v offset = some 0 := by
  have hnot : ∀ F ∈ gicdFields offset, ¬ (F.irqNum ≤ irq ∧ irq < F.irqNum + F.n) := by
    rintro F hF ⟨hlo, hhi⟩
    have hle := (himp F hF (irq - F.irqNum) (by omega)).le hmax
    omega
  obtain ⟨N, hN, rfl⟩ := hmax
  simp only [ReadRefused] at hread
  have hcases := gicdField_cases hfield
  have hgrp : ¬ (0x80 ≤ offset ∧ offset ≤ 0xff) := by
    intro h
    have hno := hnot ⟨(offset - 0x80) / 4 * 32, 32, 3, 1⟩ (if_pos h)
    dsimp only at hno
    omega
  have hen : ¬ (0x100 ≤ offset ∧ offset ≤ 0x17f) := by
    intro h
    have hno := hnot ⟨(offset - 0x100) / 4 * 32, 32, 2, 1⟩ ((if_neg hgrp).trans (if_pos h))
    dsimp only at hno
    omega
  have hprio : ¬ (0x400 ≤ offset ∧ offset ≤ 0x7fb) := by
    intro h
    have hno := hnot ⟨offset - 0x400, 4, 0, 8⟩
      ((if_neg hgrp).trans ((if_neg hen).trans (if_pos h)))
    dsimp only at hno
    omega
  have htarget : ¬ (0x800 ≤ offset ∧ offset ≤ 0xbfb) := by
    intro h
    have hno := hnot ⟨offset - 0x800, 4, 1, 8⟩
      ((if_neg hgrp).trans ((if_neg hen).trans ((if_neg hprio).trans (if_pos h))))
    dsimp only at hno
    omega
  have hnone : gicdFields offset = none := by
    rw [gicdFields, if_neg hgrp, if_neg hen, if_neg hprio, if_neg htarget]
  have hz : gicdZero offset = true := by
    simp only [gicdZero, Bool.or_eq_true, Bool.and_eq_true, decide_eq_true_eq]
    omega
  rw [gicdValue, hnone]
  dsimp only
  rw [if_neg, if_neg, if_neg, if_pos hz]
  all_goals
    rintro rfl
    revert hz
    decide

/-- **A read that names implemented interrupts only is contained.** -/
theorem readContained (hmax : SpiLimit max) (F : VgicFits s v max)
    (himp : ∀ F ∈ gicdFields offset, ∀ i < F.n, HasSlot max (F.irqNum + i))
    (hread : ¬ ReadRefused max offset) : ReadContained isen s v offset r where
  depends _ hm := readContained_depends hmax F himp hm
  zero irq hgt lo width hfield := by
    rw [F.max_spi] at hgt
    rw [readResult_eq F.toVgicFree,
      gicdValue_zero hmax himp hread (by exact_mod_cast hgt) hfield]
    exact ⟨0, rfl, fun i _ => BitVec.getLsbD_zero⟩
  frame := by
    have hlock : ∀ l l' : Spinlock, Set.EqOn
        (setDistLock (setDistLock s.ram.mem (s.dist v) l) (s.dist v) l') s.ram.mem (s.own v)ᶜ := by
      intro l l' x hx
      have hout : x ∉ block (s.dist v + 16) 8 := fun hin =>
        hx (dist_mem_own (lock_subset_dist _ hin))
      rw [setDistLock_outside hout, setDistLock_outside hout]
    have hrun := @vgicdRead_runs s v offset isen r F.toVgicFree
    cases hvalue : gicdValue isen (s.lockDist v) v offset with
    | none =>
        rw [hvalue] at hrun
        exact (wp_iff_of_ok hrun).mpr ⟨hlock _ _, rfl⟩
    | some x =>
        rw [hvalue] at hrun
        have hdist : ((s.lockDist v).setX v r x).dist v = s.dist v := by
          simp [Hyp.dist, Hyp.setX, Hyp.setVcpu]
        refine (wp_iff_of_ok hrun).mpr ⟨?_, rfl⟩
        rw [Hyp.unlockDist_mem, hdist]
        exact hlock _ _

end reads

/-! ## Any other access -/

/-- A machine at `0x1000` whose distributor is at `0x2000`, with the records of its shared
interrupts at `0x100000`; its virtual CPU's records are at `0x300000`.  All other memory holds
`fill`. -/
def filledHyp (fill : Byte) (max : ℕ) : Hyp :=
  { zeroHyp ⟨0, write64 (fun x => if x < 0x3000 then 0 else fill) 0x2008 0x100000,
      ⟨.leftBy 0, 0⟩⟩ (freshPool (.leftBy 0) 0x1000) with
    vms := fun _ => { zeroVm with vgicDist := 0x2000 }
    vcpus := fun _ => { zeroVcpu with vm := 0x1000, vgicCpu := 0x300000 }
    gicMaxSpi := max }

section filled
variable {fill : Byte} {max irq offset : ℕ} {v : Fin ncpu}

theorem filled_mem : (filledHyp fill max).ram.mem =
    write64 (fun x => if x < 0x3000 then 0 else fill) 0x2008 0x100000 := rfl

theorem filled_dist : (filledHyp fill max).dist v = 0x2000 := rfl

theorem filled_spis : (filledHyp fill max).spis v = 0x100000 := by
  rw [Hyp.spis, filled_dist, filled_mem]
  exact read64_write64 _ _ (by decide)

theorem filled_lookup : (filledHyp fill max).lookup v irq = irqAddr 0x300000 0x100000 irq := by
  rw [Hyp.lookup, filled_spis]
  rfl

/-- Records are far from the distributor. -/
theorem filled_far (fill : Byte) (max : ℕ) (v : Fin ncpu) (irq : ℕ) :
    0x3000 ≤ (filledHyp fill max).lookup v irq := by
  rw [filled_lookup, irqAddr, sgiAddr, ppiAddr]
  split
  · omega
  · split <;> omega

theorem filled_apart {x : ℕ} (hx : 0x3000 ≤ x) :
    x ∉ block ((filledHyp fill max).dist v) sizeofVgicDist := by
  rw [filled_dist]
  simp only [mem_block, sizeofVgicDist]
  omega

theorem filled_byte {x : ℕ} (hx : 0x3000 ≤ x) : (filledHyp fill max).ram.mem x = fill := by
  have hout : x ∉ block 0x2008 8 := by
    simp only [mem_block]
    omega
  rw [filled_mem, write64, writeLe_of_notMem hout, if_neg (by omega)]

theorem filled_fits : VgicFits (filledHyp fill max) v max where
  vm_ne := show 0x1000 ≠ 0 by decide
  dist_ne := show 0x2000 ≠ 0 by decide
  core := show 0 < 2 ^ 31 by decide
  lock_free := by
    have hzero : readLe (filledHyp fill max).ram.mem (0x2000 + 20) 4 = 0 := by
      refine readLe_eq_zero fun x hx => ?_
      simp only [mem_block] at hx
      have hout : x ∉ block 0x2008 8 := by
        simp only [mem_block]
        omega
      rw [filled_mem, write64, writeLe_of_notMem hout, if_pos (by omega)]
    rw [filled_dist, distLock]
    dsimp only
    rw [hzero]
    rfl
  max_spi := rfl

/-- All accesses leave the pointer and the lock alone. -/
theorem filled_keepsDist (L : RegLoop) : L.KeepsDist v (filledHyp fill max) :=
  RegLoop.keepsDist_of_out fun i _ _ => filled_apart (by
    have hfar := filled_far fill max v (L.irqNum + i)
    rw [RegLoop.addr]
    omega)

/-- The record of an interrupt that is not implemented, or is looked for in the wrong place, is
none of the implemented ones. -/
theorem filled_notMem_own (hmax : SpiLimit max) (hslot : ¬ HasSlot max irq) {f : ℕ} (hf : f < 4)
    (hirq : irq < 0x1000) :
    (filledHyp fill max).lookup v irq + f ∉ (filledHyp fill max).own v := by
  rintro (hdist | ⟨other, hother, hmem⟩)
  · have hfar := filled_far fill max v irq
    exact filled_apart (by omega) hdist
  · have hlim : (filledHyp fill max).gicMaxSpi = max := rfl
    have hle : other ≤ max := by
      rw [hlim] at hother
      exact_mod_cast hother
    have hcpu : ((filledHyp fill max).vcpus v).vgicCpu = 0x300000 := rfl
    obtain ⟨N, hN, rfl⟩ := hmax
    simp only [HasSlot, not_or, not_and] at hslot
    rw [filled_lookup, filled_spis, hcpu] at hmem
    simp only [mem_block, irqAddr, slotAddr, sgiAddr, ppiAddr, sizeofIrqConfig] at hmem
    rw [if_neg hslot.1] at hmem
    split at hmem <;> split at hmem <;> (try split at hmem) <;> omega

/-- A write to a register of any other interrupt changes its record. -/
theorem filled_write {val : BitVec 64} {L : RegLoop} {i : ℕ} (hmax : SpiLimit max)
    (hL : gicdLoop offset val = some L) (hi : i < L.n) (hsel : L.sel i = true)
    (hslot : ¬ HasSlot max (L.irqNum + i)) :
    ¬ WriteContained (filledHyp (L.byte i + 1) max) v offset val := by
  intro H
  generalize hs : filledHyp (L.byte i + 1) max = s at H
  have hfar : ∀ j, 0x3000 ≤ L.addr v s j := by
    intro j
    have hrec := filled_far (L.byte i + 1) max v (L.irqNum + j)
    rw [RegLoop.addr, ← hs]
    omega
  have hfree : VgicFree s v := hs ▸ filled_fits.toVgicFree
  obtain ⟨s', hrun, W⟩ := vgicdWrite_loop hfree hL (hs ▸ filled_keepsDist L)
  have hout : L.addr v s i ∉ s.own v := by
    rw [RegLoop.addr, ← hs]
    exact filled_notMem_own hmax hslot (gicdLoop_field hL) (gicdLoop_lt hL hi)
  have hset : s'.ram.mem (L.addr v s i) = L.byte i := by
    have hlock : L.addr v s i ∉ block (s.dist v + 16) 8 := fun hin =>
      (hs ▸ filled_apart (hs ▸ hfar i)) (lock_subset_dist _ hin)
    rw [W.mem _ hlock]
    refine scatter_of_mem (fun j hj k hk heq => ?_) hi hsel
    rw [RegLoop.addr, RegLoop.addr] at heq
    have hsame : (L.irqNum + j) / 32 = (L.irqNum + k) / 32 := by
      rcases gicdLoop_cases hL with ⟨k, _, rfl⟩ | ⟨k, _, _, rfl⟩ | ⟨k, _, rfl⟩ | ⟨k, _, rfl⟩ <;>
      · simp only [enableLoop, prioLoop, targetLoop] at hj hk ⊢
        omega
    have hirq := irqAddr_inj hsame heq
    omega
  have hold : s.ram.mem (L.addr v s i) = L.byte i + 1 := by
    rw [← hs]
    exact filled_byte (hs ▸ hfar i)
  have hsame := (ok_of_wp H hrun).1 hout
  rw [hset, hold] at hsame
  have hne : ∀ b : Byte, b ≠ b + 1 := by decide
  exact hne _ hsame

/-- What is gathered shows each byte's first bit. -/
theorem gathered_bit {m : Mem} {addr : ℕ → ℕ} {width i k : ℕ} {init : BitVec 32} (hi : i < k)
    (hbit : (m (addr i)).getLsbD 0 = true) (hwidth : i * width < 32) :
    (gathered m addr width init k).getLsbD (i * width) = true := by
  induction k with
  | zero => exact absurd hi (Nat.not_lt_zero i)
  | succ k ih =>
      rw [gathered, BitVec.getLsbD_or]
      rcases Nat.lt_succ_iff_lt_or_eq.mp hi with hlt | rfl
      · rw [ih hlt, Bool.true_or]
      · simp [hwidth, hbit]

theorem gathered_zero {m : Mem} {addr : ℕ → ℕ} {width k : ℕ} (h : ∀ i < k, m (addr i) = 0) :
    gathered m addr width 0 k = 0 := by
  induction k with
  | zero => rfl
  | succ k ih =>
      rw [gathered, ih fun i hi => h i (Nat.lt_succ_of_lt hi), h k (Nat.lt_succ_self k)]
      simp

theorem gicdFields_bound {F : RegFields} {i : ℕ} (h : gicdFields offset = some F) (hi : i < F.n) :
    i * F.width < 32 ∧ F.irqNum + i < 0x1000 := by
  rw [gicdFields, gicdIsenabler] at h
  split at h
  · rw [← Option.some.inj h] at hi ⊢
    dsimp only at hi ⊢
    omega
  split at h
  · rw [← Option.some.inj h] at hi ⊢
    dsimp only at hi ⊢
    omega
  split at h
  · rw [← Option.some.inj h] at hi ⊢
    dsimp only at hi ⊢
    omega
  split at h
  · rw [← Option.some.inj h] at hi ⊢
    dsimp only at hi ⊢
    omega
  · cases h

theorem gicdValue_fields {s : Hyp} {F : RegFields} (hF : gicdFields offset = some F) :
    gicdValue 0 s v offset =
      some ((gathered s.ram.mem (F.addr v s) F.width 0 F.n).setWidth 64) := by
  rw [gicdValue, hF]
  dsimp only
  rw [ite_self]

/-- A read of a register of any other interrupt shows its record. -/
theorem filled_read {F : RegFields} {i : ℕ} {r : Fin 31} (hmax : SpiLimit max)
    (hF : gicdFields offset = some F) (hi : i < F.n) (hslot : ¬ HasSlot max (F.irqNum + i)) :
    ¬ ReadContained 0 (filledHyp 0 max) v offset r := by
  intro H
  obtain ⟨hwidth, hlt⟩ := gicdFields_bound hF hi
  generalize hs : filledHyp 0 max = s at H
  have hfree : VgicFree s v := hs ▸ filled_fits.toVgicFree
  have hfar : ∀ j, 0x3000 ≤ F.addr v s j := by
    intro j
    have hrec := filled_far 0 max v (F.irqNum + j)
    rw [RegFields.addr, ← hs]
    omega
  have hdist : ∀ j, F.addr v s j ∉ block (s.dist v) sizeofVgicDist := fun j =>
    hs ▸ filled_apart (hs ▸ hfar j)
  have hout : F.addr v s i ∉ s.own v := by
    rw [RegFields.addr, ← hs]
    exact filled_notMem_own hmax hslot (gicdFields_field hF) hlt
  -- the byte of the record is changed
  obtain ⟨m, hm⟩ : ∃ m, m = Function.update s.ram.mem (F.addr v s i) 1 := ⟨_, rfl⟩
  have hown : Set.EqOn m s.ram.mem (s.own v) := by
    intro x hx
    have hne : x ≠ F.addr v s i := fun h => hout (h ▸ hx)
    rw [hm, Function.update_of_ne hne]
  have hsame := H.depends m hown
  have hfree' : VgicFree (s.withMem m) v := hfree.withMem fun x hx => hown (dist_mem_own hx)
  rw [readResult_eq hfree', readResult_eq hfree, gicdValue_fields hF, gicdValue_fields hF] at hsame
  have haddr : F.addr v (s.lockDist v) = F.addr v s := by
    funext j
    rw [RegFields.addr, RegFields.addr, lockDist_lookup]
  have hzero : gathered (s.lockDist v).ram.mem (F.addr v (s.lockDist v)) F.width 0 F.n = 0 := by
    refine gathered_zero fun j hj => ?_
    rw [haddr, lockDist_outside (hdist j), ← hs]
    exact filled_byte (hs ▸ hfar j)
  have haddr' : F.addr v ((s.withMem m).lockDist v) i = F.addr v s i := by
    rw [RegFields.addr, RegFields.addr, lockDist_lookup, withMem_lookup]
    exact fun x hx => hown (dist_mem_own hx)
  have hbit : (gathered ((s.withMem m).lockDist v).ram.mem (F.addr v ((s.withMem m).lockDist v))
      F.width 0 F.n).getLsbD (i * F.width) = true := by
    refine gathered_bit hi ?_ hwidth
    rw [haddr', lockDist_outside (s := s.withMem m) (hdist i), Hyp.withMem_mem, hm,
      Function.update_self]
    decide
  simp only [Option.some.injEq, Prod.mk.injEq, true_and] at hsame
  rw [hzero] at hsame
  have hshown := congrArg (fun x : BitVec 64 => x.getLsbD (i * F.width)) hsame
  rw [BitVec.getLsbD_setWidth, hbit, Bool.and_true] at hshown
  simp at hshown
  omega

/-- A read that is refused is not one of zero. -/
theorem filled_refused {r : Fin 31} (hmax : SpiLimit max) (hread : ReadRefused max offset) :
    ¬ ReadContained 0 (filledHyp 0 max) v offset r := by
  intro H
  obtain ⟨N, hN, rfl⟩ := hmax
  have hlim : (filledHyp 0 (32 * (N + 1) - 1)).gicMaxSpi = (32 * (N + 1) - 1 : ℕ) := rfl
  obtain ⟨irq, hgt, lo, width, hfield⟩ : ∃ irq : ℕ, 32 * (N + 1) - 1 < irq ∧ ∃ lo width,
      gicdField offset irq = some (lo, width) := by
    rcases hread with ⟨hlo, hhi, hlt⟩ | ⟨hlo, hhi, hlt⟩
    · refine ⟨(offset - 0x180) / 4 * 32, hlt, (offset - 0x180) / 4 * 32 % 32, 1, ?_⟩
      rw [gicdField, if_pos (by omega), if_pos (by omega)]
    · refine ⟨1019, hlt, 0, 32, ?_⟩
      rw [gicdField, if_neg (by omega), if_neg (by omega), if_neg (by omega), if_pos (by omega),
        if_pos (by omega)]
  obtain ⟨x, hx, _⟩ := H.zero irq (by rw [hlim]; exact_mod_cast hgt) lo width hfield
  have hnone : gicdValue 0 ((filledHyp 0 (32 * (N + 1) - 1)).lockDist v) v offset = none := by
    have hoff : 0x180 ≤ offset ∧ offset ≤ 0x1ff ∨ 0x7fdc ≤ offset ∧ offset ≤ 0x7fdf :=
      hread.imp (fun h => ⟨h.1, h.2.1⟩) fun h => ⟨h.1, h.2.1⟩
    have hz : ¬ gicdZero offset = true := by
      simp only [gicdZero, Bool.or_eq_true, Bool.and_eq_true, decide_eq_true_eq, beq_iff_eq]
      omega
    have hF : gicdFields offset = none := by
      rw [gicdFields, if_neg (by omega), if_neg (by omega), if_neg (by omega), if_neg (by omega)]
    rw [gicdValue, hF]
    dsimp only
    rw [if_neg (by omega), if_neg (by omega), if_neg (by omega), if_neg hz, if_neg (by omega)]
  rw [readResult_eq filled_fits.toVgicFree, hnone] at hx
  simp at hx

end filled

/-! ## The accesses that are contained -/

-- What a write does is known by now, and looking through to its run is slow.
attribute [local irreducible] WriteContained

theorem gicdLoop_isenabler {k : ℕ} {val : BitVec 64} (hk : k < 32) :
    gicdLoop (gicdIsenabler k) val = some (enableLoop (k * 32) val 1 Gic.unmask) := by
  have hword : (0x100 + k * 4 - (0x100 + 0 * 4)) / 4 * 32 = k * 32 := by omega
  rw [gicdLoop, gicdIsenabler, gicdIsenabler, if_pos (by omega), hword]

/-- An enable bit of an interrupt that is not implemented, or has its record in the wrong place. -/
theorem filled_isenabler {k i max : ℕ} {val : BitVec 64} {r : Fin 31} (hmax : SpiLimit max)
    (hk : k < 32) (hi : i < 32) (hbit : val.getLsbD i = true)
    (hslot : ¬ HasSlot max (k * 32 + i)) (v : Fin ncpu) :
    ¬ Contained 0 (filledHyp 2 max) v ⟨true, gicdIsenabler k, val, r⟩ := by
  have hno := filled_write (v := v) hmax (gicdLoop_isenabler hk) hi hbit hslot
  have hfill : (enableLoop (k * 32) val 1 Gic.unmask).byte i + 1 = 2 := rfl
  rw [hfill] at hno
  rw [Contained, if_pos rfl]
  exact hno

end Xhyper
