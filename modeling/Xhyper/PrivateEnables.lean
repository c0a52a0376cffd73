import Xhyper.Isolation
import Xhyper.VgicContain
import Xhyper.VgicDevices
import Xhyper.VgicHeap

/-!
# The enables of private interrupts

Each virtual CPU has a frame of the redistributors, and the registers `GICR_ISENABLER0` and
`GICR_ICENABLER0` of a frame turn the private interrupts of its virtual CPU on and off.  Any
virtual CPU of the machine may write to any frame.

In the code a write to `GICR_ICENABLER0` does nothing, and one to `GICR_ISENABLER0` of another's
frame goes to the physical redistributor of the core that writes.  The records of sixteen of the
interrupts lie behind the ones that are initialised.

## Main definitions

* `PrivateWrite`, `PrivateRun` — writes to the two registers, and sequences of them.
* `lastPrivate` — what the last write to a frame said about an interrupt.
* `PrivateFollows` — the enables are as the last writes said.
* `PrivateWrite.Harmless` — a write that does not reach what goes wrong.
* `private_enables_follow` — the enables follow such writes.
-/

namespace Xhyper

open Memory Prog

/-! ## Writes -/

/-- A write to `GICR_ISENABLER0`, if `isSet`, or to `GICR_ICENABLER0` of a frame, by the virtual
CPU of the core `issuer`.  The upper half of the value is not looked at. -/
structure PrivateWrite where
  issuer : Fin ncpu
  frame : Fin ncpu
  isSet : Bool
  val : BitVec 64

namespace PrivateWrite

/-- The offset in the region of the redistributors. -/
def offset (w : PrivateWrite) : ℕ :=
  w.frame.val * gicrStride + if w.isSet then 0x10100 else 0x10180

/-- The write, on the core of its virtual CPU. -/
def exec (w : PrivateWrite) : Exec Hyp ℤ := do
  modify (Hyp.onCore w.issuer.val)
  vgicrWrite w.issuer w.offset w.val

variable {w : PrivateWrite}

theorem offset_div : w.offset / gicrStride = w.frame.val := by
  simp only [offset, gicrStride]
  split
  · omega
  · omega

theorem offset_mod : w.offset % gicrStride = if w.isSet then 0x10100 else 0x10180 := by
  simp only [offset, gicrStride]
  split
  · omega
  · omega

end PrivateWrite

/-- Writes to the two registers by virtual CPUs of a machine, with the states in front of them,
the last one first. -/
inductive PrivateRun (vm : ℕ) (s₀ : Hyp) : List (Hyp × PrivateWrite) → Hyp → Prop
  | start : PrivateRun vm s₀ [] s₀
  | write {ws : List (Hyp × PrivateWrite)} {s s' : Hyp} {w : PrivateWrite} {rc : ℤ} :
      PrivateRun vm s₀ ws s → (s.vcpus w.issuer).state ≠ .unused → (s.vcpus w.issuer).vm = vm →
      w.exec s = .ok rc s' → PrivateRun vm s₀ ((s, w) :: ws) s'

/-- Whether the last write to the frame `k` with the bit `i` turned the interrupt on. -/
def lastPrivate (k : Fin ncpu) (i : ℕ) : List (Hyp × PrivateWrite) → Option Bool
  | [] => none
  | (_, w) :: ws =>
      if w.frame = k ∧ w.val.getLsbD i = true then some w.isSet else lastPrivate k i ws

/-- The byte `enabled` of a private interrupt. -/
def enabledAddr (s : Hyp) (v : Fin ncpu) (i : ℕ) : ℕ := irqAddr (s.vcpus v).vgicCpu 0 i + 2

/-- A private interrupt of `v` is enabled. -/
def Hyp.PrivateOn (s : Hyp) (v : Fin ncpu) (i : ℕ) : Prop := s.ram.mem (enabledAddr s v i) ≠ 0

/-! ## The records -/

/-- The records of different virtual CPUs, and those of the distributors, are apart. -/
structure PrivateApart (s : Hyp) : Prop where
  dist_ne : ∀ v, (s.vcpus v).state ≠ .unused → s.dist v ≠ 0
  apart : ∀ v w, (s.vcpus v).state ≠ .unused → (s.vcpus w).state ≠ .unused → v ≠ w →
    ∀ i < 32, ∀ j < 32, enabledAddr s v i ≠ enabledAddr s w j
  outside : ∀ v w, (s.vcpus v).state ≠ .unused → (s.vcpus w).state ≠ .unused →
    ∀ i < 32, enabledAddr s v i ∉ block (s.dist w) sizeofVgicDist

section records
variable {s s' : Hyp} {v : Fin ncpu} {i : ℕ}

theorem lookup_private (hi : i < 32) : s.lookup v i + 2 = enabledAddr s v i := by
  rw [Hyp.lookup, enabledAddr, irqAddr, irqAddr, if_pos hi, if_pos hi]

/-- The records are in the block of the virtual CPU, if not in the array. -/
theorem enabledAddr_mem (hi : i < 32) : enabledAddr s v i ∈ block (s.vcpus v).vgicCpu (2 ^ 8) := by
  simp only [enabledAddr, irqAddr, if_pos hi, sgiAddr, ppiAddr, sizeofIrqConfig, mem_block]
  split
  · omega
  · omega

theorem enabledAddr_inj {j : ℕ} (hi : i < 32) (hj : j < 32)
    (h : enabledAddr s v i = enabledAddr s v j) : i = j :=
  irqAddr_inj (by omega) h

theorem PrivateApart.congr (A : PrivateApart s) (hvcpus : s'.vcpus = s.vcpus)
    (hvms : s'.vms = s.vms) : PrivateApart s' := by
  have haddr : ∀ v i, enabledAddr s' v i = enabledAddr s v i := by
    intro v i
    rw [enabledAddr, enabledAddr, hvcpus]
  have hdist : ∀ v, s'.dist v = s.dist v := by
    intro v
    rw [Hyp.dist, Hyp.dist, hvcpus, hvms]
  constructor
  · intro v hv
    rw [hdist]
    rw [hvcpus] at hv
    exact A.dist_ne v hv
  · intro v w hv hw hne i hi j hj
    rw [haddr, haddr]
    rw [hvcpus] at hv hw
    exact A.apart v w hv hw hne i hi j hj
  · intro v w hv hw i hi
    rw [haddr, hdist]
    rw [hvcpus] at hv hw
    exact A.outside v w hv hw i hi

/-- The records of a run's virtual CPUs are on the heap, and apart. -/
theorem VgicApart.privateApart {start : ℕ} (A : VgicApart start s) : PrivateApart s := by
  obtain ⟨u, rooms, R, hdist⟩ := A
  have hlt : ∀ v, (s.vcpus v).state ≠ .unused → v.val < u :=
    fun v hv => Nat.lt_of_not_le fun hle => hv ((R.used v).mpr hle)
  constructor
  · intro v hv
    exact R.heap.ne_zero (hdist v (hlt v hv))
  · intro v w hv hw hne i hi j hj heq
    have hvw : (s.vcpus v).vgicCpu ≠ (s.vcpus w).vgicCpu :=
      fun h => hne (R.inj v w (hlt v hv) (hlt w hw) h)
    have hd := @HeapRooms.disjoint _ _ _ R.heap _ _ _ _ 8 8 (R.cpu v (hlt v hv))
      (R.cpu w (hlt w hw)) hvw (by decide) (by decide)
    exact Set.disjoint_left.mp hd (enabledAddr_mem hi) (heq ▸ enabledAddr_mem hj)
  · intro v w hv hw i hi hin
    have hcpu := R.cpu v (hlt v hv)
    have hmem := hdist w (hlt w hw)
    have hne : (s.vcpus v).vgicCpu ≠ s.dist w := by
      intro h
      rw [h] at hcpu
      exact absurd (R.heap.size_eq hcpu hmem) (by decide)
    have hd := @HeapRooms.disjoint _ _ _ R.heap _ _ _ _ 8 5 hcpu hmem hne (by decide) (by decide)
    exact Set.disjoint_left.mp hd (enabledAddr_mem hi) hin

end records

/-! ## What one write does -/

/-- The loop of a write to `GICR_ISENABLER0`. -/
abbrev privateLoop (val : BitVec 64) : RegLoop := enableLoop 0 val 1 Gic.unmask

/-- Turning on a private interrupt sets its bit, on the core that does it. -/
theorem unmask_gicr {core irq : ℕ} (hirq : irq < 32) (g : Gic) (c j : ℕ) :
    ((g.unmask core irq).gicr c).getLsbD j =
      ((g.gicr c).getLsbD j || (decide (c = core) && decide (j = irq))) := by
  have hlpi : ¬ gicMinLpi ≤ irq := by
    simp only [gicMinLpi]
    omega
  have hspi : ¬ gicMinSpi0 ≤ irq := by
    simp only [gicMinSpi0]
    omega
  rw [Gic.unmask, if_neg hlpi, if_neg hspi]
  by_cases hc : c = core
  · subst hc
    simp only [Function.update_self, BitVec.getLsbD_or, Nat.mod_eq_of_lt hirq, decide_true,
      Bool.true_and]
    have hbit : (1#32 <<< irq).getLsbD j = decide (j = irq) := by
      rw [← BitVec.twoPow_eq, BitVec.getLsbD_twoPow]
      grind
    rw [hbit]
    cases (g.gicr c).getLsbD j <;> rfl
  · simp only [Function.update_of_ne hc, hc, decide_false, Bool.false_and, Bool.or_false]

/-- The loop sets the bits of the value, on the core that writes. -/
theorem privateLoop_gicr {core : ℕ} {val : BitVec 64} {g : Gic} {k : ℕ} (hk : k ≤ 32) (c j : ℕ) :
    (((privateLoop val).gicAfter core g k).gicr c).getLsbD j =
      ((g.gicr c).getLsbD j || (decide (c = core) && decide (j < k) && val.getLsbD j)) := by
  induction k with
  | zero => simp [RegLoop.gicAfter]
  | succ k ih =>
      have hrest := ih (by omega)
      have htell : ∀ g', (privateLoop val).tell core k g' = g'.unmask core (0 + k) := fun _ => rfl
      have hsel : (privateLoop val).sel k = val.getLsbD k := rfl
      rw [RegLoop.gicAfter, hsel]
      by_cases hbit : val.getLsbD k = true
      · rw [if_pos hbit, htell, unmask_gicr (by omega), hrest, Nat.zero_add]
        by_cases hj : j = k
        · subst hj
          simp [hbit]
        · have hlt : j < k + 1 ↔ j < k := by omega
          simp [hj, hlt]
      · rw [if_neg hbit, hrest]
        by_cases hj : j = k
        · subst hj
          simp [hbit]
        · have hlt : j < k + 1 ↔ j < k := by omega
          simp [hlt]

section exec
variable {s s' : Hyp} {w : PrivateWrite} {vm base n : ℕ} {rc : ℤ} {t v : Fin ncpu}

theorem privateLoop_addr {val : BitVec 64} {i : ℕ} (hi : i < 32) :
    (privateLoop val).addr v s i = enabledAddr s v i := by
  rw [RegLoop.addr, ← lookup_private hi]
  change s.lookup v (0 + i) + 2 = _
  rw [Nat.zero_add]

/-- The loop keeps the pointer to the shared interrupts. -/
theorem PrivateApart.keepsPtr (A : PrivateApart s) (ht : (s.vcpus t).state ≠ .unused)
    {val : BitVec 64} : (privateLoop val).KeepsPtr t s := by
  refine (RegLoop.keepsDist_of_out fun i hi _ => ?_).keepsPtr
  rw [privateLoop_addr hi]
  exact A.outside t t ht ht i hi

/-- A write to `GICR_ICENABLER0` is ignored. -/
theorem vgicrWriteReg_clear {val : BitVec 64} {offset : ℕ} (entry : Option (Fin ncpu)) (s : Hyp) :
    vgicrWriteReg entry offset 0x10180 val s = .ok 0 s := by
  have hign : gicrIgnored 0x10180 = true := by decide
  rw [vgicrWriteReg, if_pos hign]
  rfl

/-- A write to `GICR_ISENABLER0` of the frame of `t`. -/
theorem vgicrWriteReg_set {val : BitVec 64} {offset : ℕ} (A : PrivateApart s)
    (ht : (s.vcpus t).state ≠ .unused) (hvm : (s.vcpus t).vm ≠ 0)
    (hoff : offset % gicrStride = 0x10100) :
    vgicrWriteReg (some t) offset 0x10100 val s = .ok 0 ((privateLoop val).after t s 32) := by
  have hloop : gicrLoop offset val = some (privateLoop val) := if_pos hoff
  have hrun := vgicrWriteReg_loop hvm (A.dist_ne t ht) hloop (A.keepsPtr ht)
  rwa [hoff] at hrun

/-- A null pointer for the virtual CPU stops the hypervisor. -/
theorem vgicrWriteReg_null {val : BitVec 64} {offset : ℕ} :
    vgicrWriteReg none offset 0x10100 val s ≠ .ok rc s' := by
  have hign : ¬ gicrIgnored 0x10100 = true := by decide
  rw [vgicrWriteReg, if_neg hign, if_pos rfl]
  intro hok
  cases hok

theorem Owns.congr (O : Owns s vm base n) (hvcpus : s'.vcpus = s.vcpus)
    (hvms : s'.vms = s.vms) : Owns s' vm base n := by
  obtain ⟨hne, hslots, hfits, hmine, hused, hle⟩ := O
  rw [← hvcpus] at hmine hused
  rw [← hvms] at hslots hle
  exact ⟨hne, hslots, hfits, hmine, hused, hle⟩

theorem Owns.n_le (O : Owns s vm base n) : n ≤ ncpu := by
  by_contra hgt
  have hlast := O.fits ncpu (by omega)
  omega

/-- A frame is looked up, unless the machine has no such virtual CPU. -/
theorem Owns.frame_cases (O : Owns s vm base n) (hvm : (s.vcpus v).vm = vm) {offset : ℕ}
    {k : Fin ncpu} (hk : offset / gicrStride = k.val) :
    (vgicrFrame v offset s = .ok none s ∧ (s.vms vm).nvcpu ≤ k.val) ∨
    vgicrFrame v offset s = .ok (some ((s.vms vm).vcpus k)) s := by
  have hn : (s.vms vm).nvcpu < 2 ^ 32 := by
    have hle := O.nvcpu_le
    have hn := O.n_le
    simp only [ncpu] at hn
    omega
  have hmod : offset / gicrStride % 2 ^ 32 = k.val := by
    rw [hk]
    exact Nat.mod_eq_of_lt (k.isLt.trans (by decide))
  by_cases hgt : ((s.vms vm).nvcpu % 2 ^ 32).toNat < k.val
  · refine Or.inl ⟨eq_of_wp (y := pure none) fun Q E h => ?_, by omega⟩
    simp only [vgicrFrame, wp_bind, wp_get, hvm, wp_derefVm O.ne_zero, hmod, if_pos hgt]
    exact h
  · refine Or.inr (eq_of_wp (y := pure (some ((s.vms vm).vcpus k))) fun Q E h => ?_)
    simp only [vgicrFrame, wp_bind, wp_get, hvm, wp_derefVm O.ne_zero, hmod, if_neg hgt,
      dif_pos k.isLt]
    exact h

/-- A virtual CPU that has a frame is one of the machine's. -/
theorem Owns.entry (O : Owns s vm base n) {k : Fin ncpu} (h : (s.vms vm).vcpus k = some t) :
    (s.vcpus t).state ≠ .unused ∧ (s.vcpus t).vm = vm := by
  obtain ⟨hk, ht⟩ := (O.slots k t).mp h
  have hused := O.used t (by omega) (by omega)
  exact ⟨hused, (O.mine t hused).mpr ⟨by omega, by omega⟩⟩

/-- Different frames are different virtual CPUs'. -/
theorem Owns.entry_inj (O : Owns s vm base n) {k k' : Fin ncpu}
    (h : (s.vms vm).vcpus k = some t) (h' : (s.vms vm).vcpus k' = some t) : k = k' := by
  have hk := ((O.slots k t).mp h).2
  have hk' := ((O.slots k' t).mp h').2
  apply Fin.ext
  omega

/-- A write is refused, or it is one to the virtual CPU of the frame. -/
theorem PrivateWrite.exec_frame (O : Owns s vm base n) (hvm : (s.vcpus w.issuer).vm = vm) :
    (w.exec s = .ok (-1) (s.onCore w.issuer) ∧ (s.vms vm).nvcpu ≤ w.frame.val) ∨
    w.exec s = vgicrWriteReg ((s.vms vm).vcpus w.frame) w.offset
      (if w.isSet then 0x10100 else 0x10180) w.val (s.onCore w.issuer) := by
  have O' : Owns (s.onCore w.issuer) vm base n := O.congr rfl rfl
  have hframe := O'.frame_cases (v := w.issuer) hvm w.offset_div
  have hexec : w.exec s = vgicrWrite w.issuer w.offset w.val (s.onCore w.issuer) := rfl
  rw [hexec, vgicrWrite]
  rcases hframe with ⟨hnone, habsent⟩ | hsome
  · rw [bind_of_ok hnone]
    exact Or.inl ⟨rfl, habsent⟩
  · rw [bind_of_ok hsome]
    simp only [PrivateWrite.offset_mod]
    exact Or.inr rfl

/-- A write to `GICR_ISENABLER0` goes over the interrupts of the frame's virtual CPU. -/
theorem PrivateWrite.reg_set (O : Owns s vm base n) (A : PrivateApart s) (hset : w.isSet = true)
    (hentry : (s.vms vm).vcpus w.frame = some t) :
    vgicrWriteReg (some t) w.offset (if w.isSet then 0x10100 else 0x10180) w.val
      (s.onCore w.issuer) = .ok 0 ((privateLoop w.val).after t (s.onCore w.issuer) 32) := by
  obtain ⟨ht, htvm⟩ := O.entry hentry
  have hmod : w.offset % gicrStride = 0x10100 := by
    rw [PrivateWrite.offset_mod, if_pos hset]
  have Acore : PrivateApart (s.onCore w.issuer) := A.congr rfl rfl
  rw [if_pos hset]
  exact vgicrWriteReg_set Acore ht (htvm.symm ▸ O.ne_zero) hmod

/-- **What a write does**: a write to `GICR_ISENABLER0` goes over the virtual CPU's interrupts;
any other changes nothing, and so do those to a frame that is not there. -/
theorem PrivateWrite.exec_cases (O : Owns s vm base n) (A : PrivateApart s)
    (hvm : (s.vcpus w.issuer).vm = vm) (hrun : w.exec s = .ok rc s') :
    (s' = s.onCore w.issuer ∧ (w.isSet = true → (s.vms vm).nvcpu ≤ w.frame.val)) ∨
    (w.isSet = true ∧ ∃ t, (s.vms vm).vcpus w.frame = some t ∧
      s' = (privateLoop w.val).after t (s.onCore w.issuer) 32) := by
  rcases PrivateWrite.exec_frame O hvm with ⟨hrefused, habsent⟩ | hreg
  · rw [hrefused] at hrun
    cases hrun
    exact Or.inl ⟨rfl, fun _ => habsent⟩
  rw [hreg] at hrun
  cases hset : w.isSet with
  | false =>
      simp only [hset, Bool.false_eq_true, if_false, vgicrWriteReg_clear] at hrun
      cases hrun
      exact Or.inl ⟨rfl, nofun⟩
  | true =>
      cases hentry : (s.vms vm).vcpus w.frame with
      | none =>
          rw [hentry, if_pos hset] at hrun
          exact absurd hrun vgicrWriteReg_null
      | some t =>
          rw [hentry, PrivateWrite.reg_set O A hset hentry] at hrun
          cases hrun
          exact Or.inr ⟨rfl, t, rfl, rfl⟩

/-- A write to the frame of a virtual CPU returns. -/
theorem PrivateWrite.exec_present (O : Owns s vm base n) (A : PrivateApart s)
    (hvm : (s.vcpus w.issuer).vm = vm) (hlt : (w.frame.val : ℤ) < (s.vms vm).nvcpu)
    (hentry : (s.vms vm).vcpus w.frame = some t) :
    w.exec s = .ok 0 (if w.isSet then (privateLoop w.val).after t (s.onCore w.issuer) 32
      else s.onCore w.issuer) := by
  rcases PrivateWrite.exec_frame O hvm with ⟨_, habsent⟩ | hreg
  · omega
  rw [hreg, hentry]
  cases hset : w.isSet with
  | false => exact vgicrWriteReg_clear _ _
  | true =>
      have hrun := PrivateWrite.reg_set O A hset hentry
      rwa [hset] at hrun

end exec

/-! ## The enables -/

/-- **The enables follow the writes** `ws` since the state `s₀`: of each of the machine's virtual
CPUs, and of the physical redistributor of its core; and nobody else's change. -/
structure PrivateFollows (vm : ℕ) (s₀ s : Hyp) (ws : List (Hyp × PrivateWrite)) : Prop where
  enabled : ∀ k t, (s.vms vm).vcpus k = some t → (k.val : ℤ) < (s.vms vm).nvcpu →
    ∀ i < 32, s.PrivateOn t i ↔ lastPrivate k i ws = some true
  reads : ∀ k t, (s.vms vm).vcpus k = some t → (k.val : ℤ) < (s.vms vm).nvcpu →
    ∀ (v : Fin ncpu) (hw : GicrHw) (r : Fin 31), (s.vcpus v).state ≠ .unused →
      (s.vcpus v).vm = vm → ∃ x,
        vgicrRead hw v (k.val * gicrStride + 0x10100) (some r) (s.onCore v) =
          .ok 0 ((s.onCore v).setX v r x) ∧
        ∀ i, x.getLsbD i = true ↔ i < 32 ∧ lastPrivate k i ws = some true
  others : ∀ v, (s.vcpus v).state ≠ .unused →
    (∀ p ∈ ws, (s.vms vm).vcpus p.2.frame ≠ some v) → ∀ i < 32, s.PrivateOn v i ↔ s₀.PrivateOn v i
  hardware : ∀ k t, (s.vms vm).vcpus k = some t → (k.val : ℤ) < (s.vms vm).nvcpu →
    ∀ i < 32, (s.gicr t).getLsbD i = (lastPrivate k i ws).getD ((s₀.gicr t).getLsbD i)
  cores : ∀ c : Fin ncpu, (∀ p ∈ ws, (s.vms vm).vcpus p.2.frame ≠ some c) → s.gicr c = s₀.gicr c

/-- **A write that does not reach what goes wrong**: one to `GICR_ISENABLER0` that is made on the
core of the frame's virtual CPU, or changes neither core's redistributor; or one to
`GICR_ICENABLER0` that names only interrupts that are off. -/
def PrivateWrite.Harmless (w : PrivateWrite) (vm : ℕ) (s : Hyp) : Prop :=
  ∀ t, (s.vms vm).vcpus w.frame = some t → ∀ i < 32, w.val.getLsbD i = true →
    if w.isSet then
      w.issuer = t ∨ ((s.gicr w.issuer).getLsbD i = true ∧ (s.gicr t).getLsbD i = true)
    else ¬ s.PrivateOn t i ∧ (s.gicr t).getLsbD i = false

/-- No private interrupt of the machine is enabled: what was on the heap behind the initialised
records is zero. -/
def NonePrivate (vm : ℕ) (s : Hyp) : Prop :=
  ∀ k t, (s.vms vm).vcpus k = some t → (k.val : ℤ) < (s.vms vm).nvcpu →
    ∀ i < 32, ¬ s.PrivateOn t i

/-- **The invariant** of harmless writes. -/
structure PrivateInv (vm : ℕ) (s₀ s : Hyp) (ws : List (Hyp × PrivateWrite)) : Prop where
  vcpus : s.vcpus = s₀.vcpus
  vms : s.vms = s₀.vms
  bytes : ∀ k t, (s.vms vm).vcpus k = some t → (k.val : ℤ) < (s.vms vm).nvcpu →
    ∀ i < 32, s.ram.mem (enabledAddr s t i) = if lastPrivate k i ws = some true then 1 else 0
  others : ∀ v, (s.vcpus v).state ≠ .unused →
    (∀ p ∈ ws, (s.vms vm).vcpus p.2.frame ≠ some v) →
    ∀ i < 32, s.ram.mem (enabledAddr s v i) = s₀.ram.mem (enabledAddr s v i)
  hardware : ∀ k t, (s.vms vm).vcpus k = some t → (k.val : ℤ) < (s.vms vm).nvcpu →
    ∀ i < 32, (s.gicr t).getLsbD i = (lastPrivate k i ws).getD ((s₀.gicr t).getLsbD i)
  cores : ∀ c : Fin ncpu, (∀ p ∈ ws, (s.vms vm).vcpus p.2.frame ≠ some c) → s.gicr c = s₀.gicr c

section invariant
variable {s₀ s s' : Hyp} {w : PrivateWrite} {ws : List (Hyp × PrivateWrite)} {vm base n : ℕ}
  {t : Fin ncpu}

theorem lastPrivate_cons_of {k : Fin ncpu} {i : ℕ} (hk : w.frame = k)
    (hbit : w.val.getLsbD i = true) : lastPrivate k i ((s, w) :: ws) = some w.isSet :=
  if_pos ⟨hk, hbit⟩

theorem lastPrivate_cons_of_not {k : Fin ncpu} {i : ℕ}
    (h : ¬ (w.frame = k ∧ w.val.getLsbD i = true)) :
    lastPrivate k i ((s, w) :: ws) = lastPrivate k i ws :=
  if_neg h

/-- A write that changes nothing. -/
theorem PrivateInv.keep (I : PrivateInv vm s₀ s ws) (hw : w.Harmless vm s)
    (hset : w.isSet = true → (s.vms vm).nvcpu ≤ w.frame.val) :
    PrivateInv vm s₀ (s.onCore w.issuer) ((s, w) :: ws) := by
  have hlast : ∀ k t, (s.vms vm).vcpus k = some t → (k.val : ℤ) < (s.vms vm).nvcpu → ∀ i < 32,
      lastPrivate k i ((s, w) :: ws) = lastPrivate k i ws ∨
        (lastPrivate k i ((s, w) :: ws) = some false ∧ ¬ s.PrivateOn t i ∧
          (s.gicr t).getLsbD i = false) := by
    intro k t hk hlt i hi
    by_cases h : w.frame = k ∧ w.val.getLsbD i = true
    · obtain ⟨rfl, hbit⟩ := h
      have hclear : w.isSet = false := by
        cases hs : w.isSet with
        | false => rfl
        | true => exact absurd (hset hs) (not_le.mpr hlt)
      have hoff := hw t hk i hi hbit
      rw [hclear, if_neg Bool.false_ne_true] at hoff
      refine Or.inr ⟨?_, hoff⟩
      rw [lastPrivate_cons_of rfl hbit, hclear]
    · exact Or.inl (lastPrivate_cons_of_not h)
  refine ⟨I.vcpus, I.vms, fun k t hk hlt i hi => ?_, fun v hv hother => ?_,
    fun k t hk hlt i hi => ?_, fun c hother => ?_⟩
  · rcases hlast k t hk hlt i hi with h | ⟨h, hoff, _⟩
    · rw [h]
      exact I.bytes k t hk hlt i hi
    · rw [h, if_neg (by simp)]
      exact not_not.mp hoff
  · exact I.others v hv fun p hp => hother p (List.mem_cons_of_mem _ hp)
  · rcases hlast k t hk hlt i hi with h | ⟨h, _, hoff⟩
    · rw [h]
      exact I.hardware k t hk hlt i hi
    · rw [h]
      exact hoff
  · exact I.cores c fun p hp => hother p (List.mem_cons_of_mem _ hp)

/-- The bytes of the virtual CPU whose interrupts were gone over. -/
theorem privateLoop_byte {val : BitVec 64} {i : ℕ} (hi : i < 32) :
    ((privateLoop val).after t s 32).ram.mem (enabledAddr s t i) =
      if val.getLsbD i = true then 1 else s.ram.mem (enabledAddr s t i) := by
  rw [RegLoop.after_mem]
  by_cases hbit : val.getLsbD i = true
  · rw [if_pos hbit, ← privateLoop_addr (v := t) (s := s) (i := i) hi]
    refine scatter_of_mem (fun j hj k hk heq => ?_) hi hbit
    rw [privateLoop_addr hj, privateLoop_addr hk] at heq
    exact enabledAddr_inj hj hk heq
  · rw [if_neg hbit]
    refine scatter_of_notMem fun j hj hsel heq => hbit ?_
    rw [privateLoop_addr hj] at heq
    rw [enabledAddr_inj hi hj heq]
    exact hsel

/-- The bytes of the others. -/
theorem privateLoop_byte_other {val : BitVec 64} {v : Fin ncpu} {i : ℕ} (A : PrivateApart s)
    (ht : (s.vcpus t).state ≠ .unused) (hv : (s.vcpus v).state ≠ .unused) (hne : v ≠ t)
    (hi : i < 32) :
    ((privateLoop val).after t s 32).ram.mem (enabledAddr s v i) =
      s.ram.mem (enabledAddr s v i) := by
  rw [RegLoop.after_mem]
  refine scatter_of_notMem fun j hj _ heq => ?_
  rw [privateLoop_addr hj] at heq
  exact A.apart v t hv ht hne i hi j hj heq

/-- A harmless write to `GICR_ISENABLER0` changes the redistributor of the frame only. -/
theorem PrivateWrite.Harmless.gicr (hw : w.Harmless vm s) (hset : w.isSet = true)
    (hentry : (s.vms vm).vcpus w.frame = some t) (c : Fin ncpu) {i : ℕ} (hi : i < 32) :
    (((privateLoop w.val).after t (s.onCore w.issuer) 32).gicr c).getLsbD i =
      ((s.gicr c).getLsbD i || (decide (c = t) && w.val.getLsbD i)) := by
  have hloop := @privateLoop_gicr w.issuer w.val s.gic 32 le_rfl c i
  have hgicr : ((privateLoop w.val).after t (s.onCore w.issuer) 32).gicr =
      ((privateLoop w.val).gicAfter w.issuer s.gic 32).gicr := rfl
  rw [hgicr, hloop, decide_eq_true hi, Bool.and_true]
  change ((s.gicr c).getLsbD i || _) = _
  by_cases hbit : w.val.getLsbD i = true
  · have hon := hw t hentry i hi hbit
    rw [hset, if_pos rfl] at hon
    rcases hon with rfl | ⟨hissuer, hframe⟩
    · simp only [Fin.ext_iff]
    · -- both bits are set already
      by_cases hc : c = w.issuer
      · subst hc
        rw [hissuer, Bool.true_or, Bool.true_or]
      · by_cases hct : c = t
        · subst hct
          rw [hframe, Bool.true_or, Bool.true_or]
        · simp only [Fin.val_inj, hc, hct]
  · rw [Bool.not_eq_true] at hbit
    rw [hbit, Bool.and_false, Bool.and_false]

/-- A harmless write to `GICR_ISENABLER0`. -/
theorem PrivateInv.set (I : PrivateInv vm s₀ s ws) (O : Owns s vm base n) (A : PrivateApart s)
    (hw : w.Harmless vm s) (hset : w.isSet = true) (hentry : (s.vms vm).vcpus w.frame = some t) :
    PrivateInv vm s₀ ((privateLoop w.val).after t (s.onCore w.issuer) 32) ((s, w) :: ws) := by
  have ht := (O.entry hentry).1
  have Acore : PrivateApart (s.onCore w.issuer) := A.congr rfl rfl
  -- another frame is another virtual CPU's
  have hframe : ∀ k t', (s.vms vm).vcpus k = some t' → (w.frame = k ↔ t' = t) := by
    intro k t' hk
    constructor
    · rintro rfl
      exact Option.some.inj (hk.symm.trans hentry)
    · rintro rfl
      exact O.entry_inj hentry hk
  refine ⟨I.vcpus, I.vms, fun k t' hk hlt i hi => ?_, fun v hv hother i hi => ?_,
    fun k t' hk hlt i hi => ?_, fun c hother => ?_⟩
  · have hold := I.bytes k t' hk hlt i hi
    by_cases htt : t' = t
    · subst htt
      obtain rfl := (hframe k t' hk).mpr rfl
      refine (privateLoop_byte hi).trans ?_
      by_cases hbit : w.val.getLsbD i = true
      · rw [if_pos hbit, lastPrivate_cons_of rfl hbit, hset, if_pos rfl]
      · rw [if_neg hbit, lastPrivate_cons_of_not fun h => hbit h.2]
        exact hold
    · rw [lastPrivate_cons_of_not fun h => htt ((hframe k t' hk).mp h.1)]
      exact (privateLoop_byte_other Acore ht (O.entry hk).1 htt hi).trans hold
  · have hne : v ≠ t := by
      rintro rfl
      exact hother _ List.mem_cons_self hentry
    have hold := I.others v hv (fun p hp => hother p (List.mem_cons_of_mem _ hp)) i hi
    exact (privateLoop_byte_other Acore ht hv hne hi).trans hold
  · have hold := I.hardware k t' hk hlt i hi
    rw [hw.gicr hset hentry t' hi]
    by_cases htt : t' = t
    · subst htt
      obtain rfl := (hframe k t' hk).mpr rfl
      by_cases hbit : w.val.getLsbD i = true
      · rw [lastPrivate_cons_of rfl hbit, hset]
        simp [hbit]
      · rw [lastPrivate_cons_of_not fun h => hbit h.2]
        simp [hbit, hold]
    · rw [lastPrivate_cons_of_not fun h => htt ((hframe k t' hk).mp h.1)]
      simp [htt, hold]
  · have hne : c ≠ t := by
      rintro rfl
      exact hother _ List.mem_cons_self hentry
    have hold := I.cores c fun p hp => hother p (List.mem_cons_of_mem _ hp)
    rw [← hold]
    apply BitVec.eq_of_getLsbD_eq
    intro i hi
    rw [hw.gicr hset hentry c hi]
    simp [hne]

/-- **The invariant holds in every run of harmless writes.** -/
theorem PrivateRun.inv (hrun : PrivateRun vm s₀ ws s) (O : Owns s₀ vm base n)
    (A : PrivateApart s₀) (hnone : NonePrivate vm s₀) (hws : ∀ p ∈ ws, p.2.Harmless vm p.1) :
    PrivateInv vm s₀ s ws := by
  induction hrun with
  | start =>
      refine ⟨rfl, rfl, fun k t hk hlt i hi => ?_, fun _ _ _ _ _ => rfl, fun _ _ _ _ _ _ => rfl,
        fun _ _ => rfl⟩
      exact not_not.mp (hnone k t hk hlt i hi)
  | @write ws s s' w rc hprev hused hvm hexec ih =>
      have I := ih fun p hp => hws p (List.mem_cons_of_mem _ hp)
      have hw := hws (s, w) List.mem_cons_self
      have O' : Owns s vm base n := O.congr I.vcpus I.vms
      have A' : PrivateApart s := A.congr I.vcpus I.vms
      rcases PrivateWrite.exec_cases O' A' hvm hexec with ⟨rfl, habsent⟩ | ⟨hset, t, hentry, rfl⟩
      · exact I.keep hw habsent
      · exact I.set O' A' hw hset hentry

/-- What is gathered of bytes that are one or zero. -/
theorem gathered_bits {m : Mem} {addr : ℕ → ℕ} {f : ℕ → Prop} [DecidablePred f] {k : ℕ}
    (hk : k ≤ 32) (h : ∀ i < k, m (addr i) = if f i then 1 else 0) (j : ℕ) :
    (gathered m addr 1 0 k).getLsbD j = true ↔ j < k ∧ f j := by
  induction k with
  | zero => simp [gathered]
  | succ k ih =>
      have hrest := ih (by omega) fun i hi => h i (Nat.lt_succ_of_lt hi)
      have hbit : ((m (addr k)).setWidth 32 <<< (k * 1)).getLsbD j = true ↔ j = k ∧ f k := by
        rw [h k (Nat.lt_succ_self k), Nat.mul_one]
        by_cases hf : f k
        · rw [if_pos hf]
          have hone : (1 : Byte).setWidth 32 <<< k = BitVec.twoPow 32 k := by
            rw [BitVec.twoPow_eq]
            rfl
          rw [hone, BitVec.getLsbD_twoPow]
          simp only [Bool.and_eq_true, decide_eq_true_eq, hf, and_true]
          omega
        · rw [if_neg hf]
          simp [hf]
      rw [gathered, BitVec.getLsbD_or, Bool.or_eq_true, hrest, hbit]
      constructor
      · rintro (⟨hlt, hf⟩ | ⟨rfl, hf⟩)
        · exact ⟨Nat.lt_succ_of_lt hlt, hf⟩
        · exact ⟨Nat.lt_succ_self j, hf⟩
      · rintro ⟨hlt, hf⟩
        rcases Nat.lt_succ_iff_lt_or_eq.mp hlt with hlt | rfl
        · exact Or.inl ⟨hlt, hf⟩
        · exact Or.inr ⟨rfl, hf⟩

/-- A read of a frame's `GICR_ISENABLER0`. -/
theorem privateRead_eq (O : Owns s vm base n) (A : PrivateApart s) {k v : Fin ncpu}
    (hk : (s.vms vm).vcpus k = some t) (hlt : (k.val : ℤ) < (s.vms vm).nvcpu)
    (hvm : (s.vcpus v).vm = vm) (hw : GicrHw) (r : Fin 31) {offset : ℕ}
    (hoffset : offset = k.val * gicrStride + 0x10100) :
    vgicrRead hw v offset (some r) s = .ok 0 (s.setX v r
      ((gathered s.ram.mem (enabledAddr s t) 1 0 32).setWidth 64)) := by
  obtain ⟨ht, htvm⟩ := O.entry hk
  have hdiv : offset / gicrStride = k.val := by
    simp only [gicrStride] at hoffset ⊢
    omega
  have hmod : offset % gicrStride = 0x10100 := by
    simp only [gicrStride] at hoffset ⊢
    omega
  have hslip : ¬ VgicDev.gicr.ReadSlip offset := by
    rintro ⟨_, hprio, _⟩
    rw [hmod] at hprio
    exact absurd hprio (by decide)
  have hread := @vgicrReadReg_eq s v t offset r hw (htvm.symm ▸ O.ne_zero) (A.dist_ne t ht) hslip
  have hvalue : gicrValue hw s t 0x10100 =
      some ((gathered s.ram.mem (RegFields.addr ⟨0, 32, 2, 1⟩ t s) 1 0 32).setWidth 64) := rfl
  have haddr : gathered s.ram.mem (RegFields.addr ⟨0, 32, 2, 1⟩ t s) 1 0 32 =
      gathered s.ram.mem (enabledAddr s t) 1 0 32 := by
    refine gathered_congr fun i hi => ?_
    rw [RegFields.addr, ← lookup_private hi, Nat.zero_add]
  rw [hmod, hvalue, haddr] at hread
  rcases O.frame_cases hvm hdiv with ⟨_, habsent⟩ | hsome
  · omega
  · rw [hk] at hsome
    rw [vgicrRead, bind_of_ok hsome, hmod]
    exact hread

/-- The invariant is what the enables are to be. -/
theorem PrivateInv.follows (I : PrivateInv vm s₀ s ws) (O : Owns s vm base n)
    (A : PrivateApart s) : PrivateFollows vm s₀ s ws := by
  constructor
  · intro k t hk hlt i hi
    rw [Hyp.PrivateOn, I.bytes k t hk hlt i hi]
    simp
  · intro k t hk hlt v hw r _ hvm
    have O' : Owns (s.onCore v) vm base n := O.congr rfl rfl
    have A' : PrivateApart (s.onCore v) := A.congr rfl rfl
    refine ⟨_, privateRead_eq O' A' hk hlt hvm hw r rfl, fun i => ?_⟩
    have hbits := gathered_bits le_rfl (I.bytes k t hk hlt) i
    rw [← hbits, BitVec.getLsbD_setWidth, Bool.and_eq_true, decide_eq_true_eq]
    constructor
    · exact fun h => h.2
    · exact fun h => ⟨(hbits.mp h).1.trans (by decide), h⟩
  · intro v hv hother i hi
    have haddr : enabledAddr s₀ v i = enabledAddr s v i := by
      rw [enabledAddr, enabledAddr, I.vcpus]
    rw [Hyp.PrivateOn, Hyp.PrivateOn, haddr, I.others v hv hother i hi]
  · exact I.hardware
  · exact I.cores

end invariant

/-! ## Runs -/

section runs
variable {P : Platform} {himageEnd vm : ℕ} {trace : List Transition} {s s' : Hyp}

/-- **The private enables follow harmless writes** of a machine's virtual CPUs, from any state of
a run, whatever is in memory, in which none is enabled. -/
theorem private_enables_follow (himg : IsImage himageEnd) (hrun : HypRun P himageEnd trace s)
    (hvm : IsVm s vm) (m : Mem) {ws : List (Hyp × PrivateWrite)}
    (hnone : NonePrivate vm (s.withMem m)) (hwrites : PrivateRun vm (s.withMem m) ws s')
    (hws : ∀ p ∈ ws, p.2.Harmless vm p.1) : PrivateFollows vm (s.withMem m) s' ws := by
  obtain ⟨v, hv, rfl⟩ := hvm
  obtain ⟨base, n, O⟩ := (hrun.slots himg).1.owner v hv
  have O₀ : Owns (s.withMem m) (s.vcpus v).vm base n := O.congr rfl rfl
  have A₀ : PrivateApart (s.withMem m) := (hrun.vgicApart himg).privateApart.congr rfl rfl
  have I := hwrites.inv O₀ A₀ hnone hws
  exact I.follows (O₀.congr I.vcpus I.vms) (A₀.congr I.vcpus I.vms)

end runs

/-- A guest whose first virtual CPU is there, before any of its interrupts was enabled. -/
theorem exists_private_guest : ∃ trace s vm base n, HypRun obedient bootEnd trace s ∧
    IsVm s vm ∧ (s.vcpus 0).state ≠ .unused ∧ (s.vcpus 0).vm = vm ∧
    (s.vms vm).vcpus 0 = some 0 ∧ 0 < (s.vms vm).nvcpu ∧
    Owns (s.withMem fun _ => 0) vm base n ∧ PrivateApart (s.withMem fun _ => 0) ∧
    NonePrivate vm (s.withMem fun _ => 0) := by
  obtain ⟨_, s, vm, live, l₀, hrun, G, _⟩ := exists_one_guest obedient
  have hused : (s.vcpus 0).state ≠ .unused := by
    rw [G.run.state_eq 0 le_rfl (by decide)]
    decide
  have hvm : (s.vcpus 0).vm = vm := G.run.vm_eq 0 le_rfl (by decide)
  have hentry : (s.vms vm).vcpus 0 = some 0 := (G.run.slots 0 0).mpr ⟨by decide, rfl⟩
  have hcount : 0 < (s.vms vm).nvcpu := by
    rw [G.nvcpu]
    decide
  obtain ⟨base, n, O⟩ := (hrun.slots isImage_bootEnd).1.owner 0 hused
  rw [hvm] at O
  exact ⟨_, s, vm, base, n, hrun, ⟨0, hused, hvm⟩, hused, hvm, hentry, hcount, O.congr rfl rfl,
    (hrun.vgicApart isImage_bootEnd).privateApart.congr rfl rfl, fun _ _ _ _ _ _ h => h rfl⟩

/-- The virtual CPU turns its interrupt 0 on. -/
def privateSet : PrivateWrite := ⟨0, 0, true, 1⟩

theorem privateSet_harmless {vm : ℕ} {s : Hyp} (h : (s.vms vm).vcpus 0 = some 0) :
    privateSet.Harmless vm s := by
  intro t ht i _ _
  exact Or.inl (Option.some.inj (h.symm.trans ht))

/-- The interrupt is on. -/
theorem private_enables_follow_set : ∃ trace s vm s', HypRun obedient bootEnd trace s ∧
    PrivateFollows vm (s.withMem fun _ => 0) s' [(s.withMem fun _ => 0, privateSet)] ∧
    s'.PrivateOn 0 0 := by
  obtain ⟨trace, s, vm, base, n, hrun, hvm, hused, h0, hentry, hcount, O, A, hnone⟩ :=
    exists_private_guest
  have hexec := PrivateWrite.exec_present (w := privateSet) O A h0 hcount hentry
  have hwrites := PrivateRun.write .start hused h0 hexec
  have F := private_enables_follow isImage_bootEnd hrun hvm (fun _ => 0) hnone hwrites fun p hp => by
    rw [List.mem_singleton.mp hp]
    exact privateSet_harmless hentry
  exact ⟨trace, s, vm, _, hrun, F, (F.enabled 0 0 hentry hcount 0 (by decide)).mpr rfl⟩

/-- The virtual CPU turns it on and off again: it stays on. -/
theorem private_enables_stay : ∃ trace s vm ws s', HypRun obedient bootEnd trace s ∧
    IsVm s vm ∧ NonePrivate vm (s.withMem fun _ => 0) ∧
    PrivateRun vm (s.withMem fun _ => 0) ws s' ∧
    ¬ PrivateFollows vm (s.withMem fun _ => 0) s' ws := by
  obtain ⟨trace, s, vm, base, n, hrun, hvm, hused, h0, hentry, hcount, O, A, hnone⟩ :=
    exists_private_guest
  obtain ⟨s₁, hset⟩ : ∃ s₁, privateSet.exec (s.withMem fun _ => 0) = .ok 0 s₁ :=
    ⟨_, PrivateWrite.exec_present O A h0 hcount hentry⟩
  have hfirst := PrivateRun.write .start hused h0 hset
  have I := hfirst.inv O A hnone fun p hp => by
    rw [List.mem_singleton.mp hp]
    exact privateSet_harmless hentry
  have hvcpus : s₁.vcpus = s.vcpus := I.vcpus
  have hvms : s₁.vms = s.vms := I.vms
  rw [← hvcpus] at hused h0
  rw [← hvms] at hentry hcount
  have hclear := PrivateWrite.exec_present (w := ⟨0, 0, false, 1⟩) (O.congr I.vcpus I.vms)
    (A.congr I.vcpus I.vms) h0 hcount hentry
  refine ⟨trace, s, vm, _, _, hrun, hvm, hnone, hfirst.write hused h0 hclear, fun F => ?_⟩
  have hbyte : s₁.ram.mem (enabledAddr s₁ 0 0) = 1 := I.bytes 0 0 hentry hcount 0 (by decide)
  have hon : s₁.PrivateOn 0 0 := by
    rw [Hyp.PrivateOn, hbyte]
    decide
  have hlast := (F.enabled 0 0 hentry hcount 0 (by decide)).mp hon
  cases hlast

end Xhyper
