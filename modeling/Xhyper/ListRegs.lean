import Xhyper.Base
import Mathlib.Data.Nat.Bitwise
import Mathlib.Logic.Relation

/-!
# List registers

An interrupt is given to a guest by writing it into a list register of the core.
`used_lr` is the hypervisor's own record of which of them it has filled; the guest
empties them without telling, and `virq_enter` brings the record up to date when
the guest next traps.

`Ich` is what one core and the vcpu it runs have of this: the record, the list
registers, and a trace of what was done to them.  The trace is not a variable of the
program; it is there to say what a run did.  `held t i` is the interrupt that the
trace `t` leaves in register `i`.

## Main definitions

* `gicCreateLr` — the word written to a list register.
* `virqEnter`, `virqInject`, `el1IrqProc` — taking an interrupt from the guest.
* `el1IrqProc_takes` — what `el1_irq_proc` does to the registers.
* `GuestStep`, `IrqStep` — what the guest and the core may do.
* `LrInv` — the invariant.
* `irq_not_overwritten` — what holds over every run.
-/

namespace Xhyper

open Prog

/-! ## The word in a list register -/

/-- `LR_STATE(n)`. -/
def lrState (n : BitVec 64) : BitVec 64 := (n &&& 0x3#64) <<< 62

/-- `LR_HW`. -/
def lrHw : BitVec 64 := 1#64 <<< 61

/-- `LR_GROUP(n)`. -/
def lrGroup (n : BitVec 64) : BitVec 64 := (n &&& 0x1#64) <<< 60

/-- `LR_PINTID(n)`. -/
def lrPintid (n : BitVec 32) : BitVec 64 := (n.setWidth 64 &&& 0x3ff#64) <<< 32

/-- `LR_VINTID(n)`. -/
def lrVintid (n : BitVec 32) : BitVec 64 := n.setWidth 64 &&& 0xffffffff#64

/-- `LR_PENDING`. -/
abbrev lrPending : BitVec 64 := 1#64

/-- `LR_IS_INACTIVE(lr)`. -/
def lrIsInactive (lr : BitVec 64) : Bool := (lr >>> 62) &&& 0x3#64 == 0#64

/-- `gic_create_lr`. -/
def gicCreateLr (pirq virq : BitVec 32) : BitVec 64 :=
  lrState lrPending ||| lrHw ||| lrGroup 1#64 ||| lrPintid pirq ||| lrVintid virq

/-- The fields of a list register. -/
structure LrFields where
  state : BitVec 2
  hw : Bool
  group : Bool
  pINTID : BitVec 13
  vINTID : BitVec 32
  deriving DecidableEq

/-- What the hardware reads in a list register. -/
def decodeLr (lr : BitVec 64) : LrFields where
  state := lr.extractLsb' 62 2
  hw := lr.getLsbD 61
  group := lr.getLsbD 60
  pINTID := lr.extractLsb' 32 13
  vINTID := lr.extractLsb' 0 32

/-- The word without its state. -/
def lrPayload (lr : BitVec 64) : BitVec 62 := lr.extractLsb' 0 62

/-- The fields do not overlap, so the word is their sum. -/
theorem toNat_gicCreateLr (pirq virq : BitVec 32) :
    (gicCreateLr pirq virq).toNat
      = 7 * 2 ^ 60 + pirq.toNat % 2 ^ 10 * 2 ^ 32 + virq.toNat := by
  have hv := virq.isLt
  have hp := pirq.isLt
  have hhead : lrState lrPending ||| lrHw ||| lrGroup 1#64 = 7#64 <<< 60 := by decide
  have hpin : (lrPintid pirq).toNat = (pirq.toNat % 2 ^ 10) <<< 32 := by
    have hlt : (pirq.toNat % 2 ^ 10) <<< 32 < 2 ^ 64 := by
      rw [Nat.shiftLeft_eq]
      omega
    rw [lrPintid, BitVec.toNat_shiftLeft, BitVec.toNat_and, BitVec.toNat_setWidth,
      Nat.mod_eq_of_lt (show pirq.toNat < 2 ^ 64 by omega),
      show (0x3ff#64).toNat = 2 ^ 10 - 1 by decide, Nat.and_two_pow_sub_one_eq_mod,
      Nat.mod_eq_of_lt hlt]
  have hvin : (lrVintid virq).toNat = virq.toNat := by
    rw [lrVintid, BitVec.toNat_and, BitVec.toNat_setWidth,
      Nat.mod_eq_of_lt (show virq.toNat < 2 ^ 64 by omega),
      show (0xffffffff#64).toNat = 2 ^ 32 - 1 by decide, Nat.and_two_pow_sub_one_eq_mod,
      Nat.mod_eq_of_lt hv]
  have hlow : (pirq.toNat % 2 ^ 10) <<< 32 ||| virq.toNat
      = pirq.toNat % 2 ^ 10 * 2 ^ 32 + virq.toNat := by
    rw [← Nat.shiftLeft_add_eq_or_of_lt hv, Nat.shiftLeft_eq]
  have hlowlt : pirq.toNat % 2 ^ 10 * 2 ^ 32 + virq.toNat < 2 ^ 60 := by omega
  rw [gicCreateLr, hhead, BitVec.toNat_or, BitVec.toNat_or, hpin, hvin, Nat.or_assoc, hlow,
    show (7#64 <<< 60).toNat = 7 <<< 60 by decide, ← Nat.shiftLeft_add_eq_or_of_lt hlowlt,
    Nat.shiftLeft_eq, Nat.add_assoc]

/-- **What an injected word means**: a pending hardware interrupt of group 1. -/
theorem decodeLr_gicCreateLr {pirq virq : BitVec 32} (hp : pirq.toNat < 1024) :
    decodeLr (gicCreateLr pirq virq) =
      { state := 1#2, hw := true, group := true, pINTID := pirq.setWidth 13, vINTID := virq } := by
  have hv := virq.isLt
  have hword := toNat_gicCreateLr pirq virq
  have hbit : ∀ k, (gicCreateLr pirq virq).getLsbD k =
      decide ((gicCreateLr pirq virq).toNat / 2 ^ k % 2 = 1) := by
    intro k
    rw [BitVec.getLsbD, Nat.testBit_eq_decide_div_mod_eq]
  simp only [decodeLr, LrFields.mk.injEq]
  refine ⟨?_, ?_, ?_, ?_, ?_⟩
  · apply BitVec.eq_of_toNat_eq
    rw [BitVec.extractLsb'_toNat, hword, Nat.shiftRight_eq_div_pow, show (1#2).toNat = 1 by decide]
    omega
  · rw [hbit, hword, decide_eq_true_eq]
    omega
  · rw [hbit, hword, decide_eq_true_eq]
    omega
  · apply BitVec.eq_of_toNat_eq
    rw [BitVec.extractLsb'_toNat, hword, Nat.shiftRight_eq_div_pow, BitVec.toNat_setWidth]
    omega
  · apply BitVec.eq_of_toNat_eq
    rw [BitVec.extractLsb'_toNat, hword, Nat.shiftRight_eq_div_pow]
    omega

theorem lrIsInactive_gicCreateLr (pirq virq : BitVec 32) :
    lrIsInactive (gicCreateLr pirq virq) = false := by
  have hv := virq.isLt
  have hne : (gicCreateLr pirq virq >>> 62) &&& 0x3#64 ≠ 0#64 := by
    intro h
    have hnat := congrArg BitVec.toNat h
    rw [BitVec.toNat_and, BitVec.toNat_ushiftRight, toNat_gicCreateLr,
      show (0x3#64).toNat = 2 ^ 2 - 1 by decide, Nat.and_two_pow_sub_one_eq_mod,
      Nat.shiftRight_eq_div_pow, show (0#64).toNat = 0 by decide] at hnat
    omega
  simpa [lrIsInactive] using hne

/-! ## One core -/

/-- Something done to the list registers. -/
inductive IchEvent
  /-- `gic_write_list_reg(n, val)`. -/
  | write (n : Fin 16) (val : BitVec 64)
  /-- `gic_guest_eoi(irq)`. -/
  | eoi (irq : BitVec 32)
  /-- The guest takes the interrupt in `n`. -/
  | activate (n : Fin 16)
  /-- The guest is done with the interrupt in `n`. -/
  | complete (n : Fin 16)
  deriving DecidableEq

/-- The list registers of a core, and the record that the vcpu in `tpidr_el2` has of them. -/
structure Ich where
  /-- `gic_max_lrs`. -/
  gicMaxLrs : ℕ
  /-- `vcpu->vgic_cpu->used_lr`. -/
  usedLr : BitVec 16
  /-- `ICH_LR<n>_EL2`. -/
  lr : Fin 16 → BitVec 64
  /-- What was done so far, newest first. -/
  trace : List IchEvent

/-- `gic_read_list_reg`. -/
def gicReadListReg (n : ℕ) : Exec Ich (BitVec 64) := do
  if h : n < 16 then pure ((← get).lr ⟨n, h⟩) else abort "Unknow ICH LR number"

/-- `gic_write_list_reg`. -/
def gicWriteListReg (n : ℕ) (val : BitVec 64) : Exec Ich Unit := do
  if h : n < 16 then
    modify fun s => { s with
      lr := Function.update s.lr ⟨n, h⟩ val
      trace := .write ⟨n, h⟩ val :: s.trace }
  else abort "Unknow ICH LR number"

/-- One round of `virq_enter`. -/
def virqEnterRound (i : ℕ) : Exec Ich Unit := do
  if (← get).usedLr &&& 1#16 <<< i ≠ 0 then do
    let listReg ← gicReadListReg i
    if lrIsInactive listReg then
      modify fun s => { s with usedLr := s.usedLr &&& ~~~(1#16 <<< i) }
    else pure ()
  else pure ()

/-- `virq_enter`. -/
def virqEnter : Exec Ich Unit := do
  let _ ← forRange 1 0 (← get).gicMaxLrs virqEnterRound

/-- The loop of `alloc_lr` from register `i`, with `left` rounds to go. -/
def allocLrFrom : ℕ → ℕ → Exec Ich (Option ℕ)
  | _, 0 => pure none
  | i, left + 1 => do
      if (← get).usedLr &&& 1#16 <<< i = 0 then do
        modify fun s => { s with usedLr := s.usedLr ||| 1#16 <<< i }
        pure (some i)
      else allocLrFrom (i + 1) left

/-- `alloc_lr`. -/
def allocLr : Exec Ich (Option ℕ) := do allocLrFrom 0 (← get).gicMaxLrs

/-- `virq_inject`. -/
def virqInject (pirq virq : BitVec 32) : Exec Ich Unit := do
  let lr := gicCreateLr pirq virq
  match ← allocLr with
  | some n => gicWriteListReg n lr
  | none => abort "No List Register"

/-- `el1_irq_proc`, when `ICC_IAR1_EL1` reads as `iar`. -/
def el1IrqProc (iar : BitVec 32) : Exec Ich Unit := do
  virqEnter
  let irq := iar &&& 0x3ff#32
  modify fun s => { s with trace := .eoi irq :: s.trace }
  virqInject irq irq

/-! ## The bitmap -/

theorem bit_clear_iff {u : BitVec 16} {i : ℕ} (hi : i < 16) :
    u &&& 1#16 <<< i = 0 ↔ u.getLsbD i = false := by
  rw [← BitVec.twoPow_eq, BitVec.and_twoPow]
  by_cases h : u.getLsbD i
  · have hne : BitVec.twoPow 16 i ≠ 0#16 := by
      intro h0
      have hbit := congrArg (fun v : BitVec 16 => v.getLsbD i) h0
      simp [hi] at hbit
    simpa [h] using hne
  · simp [h]

theorem getLsbD_clear (u : BitVec 16) {i j : ℕ} (hj : j < 16) :
    (u &&& ~~~(1#16 <<< i)).getLsbD j = (u.getLsbD j && !decide (i = j)) := by
  rw [← BitVec.twoPow_eq, BitVec.getLsbD_and, BitVec.getLsbD_not, BitVec.getLsbD_twoPow]
  by_cases h : i = j <;> simp [h, hj]

theorem getLsbD_set (u : BitVec 16) {i j : ℕ} (hi : i < 16) :
    (u ||| 1#16 <<< i).getLsbD j = (u.getLsbD j || decide (i = j)) := by
  rw [← BitVec.twoPow_eq, BitVec.getLsbD_or, BitVec.getLsbD_twoPow]
  simp [hi]

/-! ## Taking an interrupt -/

section specs
variable {s : Ich} {E : Fault → Ich → Prop}

/-- **`virq_enter`** clears the record of the registers that the guest emptied, and
changes nothing else. -/
theorem virqEnter_spec (hmax : s.gicMaxLrs ≤ 16) :
    wp virqEnter (fun _ s' => s' = { s with usedLr := s'.usedLr } ∧
      ∀ i : Fin 16, s'.usedLr.getLsbD i =
        (s.usedLr.getLsbD i && !(decide (i < s.gicMaxLrs) && lrIsInactive (s.lr i)))) E s := by
  simp only [virqEnter, wp_bind, wp_get, wp_pure]
  refine wp_forRange (fun k s' => s' = { s with usedLr := s'.usedLr } ∧
    ∀ i : Fin 16, s'.usedLr.getLsbD i =
      (s.usedLr.getLsbD i && !(decide (i.val < k) && lrIsInactive (s.lr i)))) (by decide) ?_ ?_ ?_
  · rintro k t hk ⟨hsame, hbits⟩
    simp only [Nat.zero_add, Nat.mul_one] at hk ⊢
    have hk16 : k < 16 := by omega
    have hlr : t.lr = s.lr := by rw [hsame]
    simp only [virqEnterRound, gicReadListReg, hk16, dite_true, wp_bind, wp_get, wp_ite, wp_pure,
      wp_modify, ne_eq, bit_clear_iff hk16, hlr]
    -- a register other than `k` is treated as in the rounds before
    have hother : ∀ i : Fin 16, i.val ≠ k → (decide (i.val < k + 1)) = decide (i.val < k) := by
      intro i hi
      simp only [decide_eq_decide]
      omega
    refine ⟨fun hset => ⟨fun hin => ⟨by rw [hsame], fun i => ?_⟩, fun hact => ⟨hsame, fun i => ?_⟩⟩,
      fun hclear => ⟨hsame, fun i => ?_⟩⟩
    · rw [getLsbD_clear _ i.isLt, hbits]
      by_cases hi : i.val = k
      · have hieq : i = ⟨k, hk16⟩ := Fin.ext hi
        simp [hieq, hin]
      · rw [hother i hi]
        simp [Ne.symm hi]
    · rw [hbits]
      by_cases hi : i.val = k
      · have hieq : i = ⟨k, hk16⟩ := Fin.ext hi
        simp [hieq, hact]
      · rw [hother i hi]
    · rw [hbits]
      by_cases hi : i.val = k
      · have hold := hbits i
        rw [hi, not_not.mp hclear, decide_eq_false (Nat.lt_irrefl k)] at hold
        rw [hi]
        simp only [Bool.false_and, Bool.not_false, Bool.and_true] at hold
        rw [← hold]
        simp
      · rw [hother i hi]
  · exact ⟨rfl, fun i => by simp⟩
  · intro k t hk h
    have hkeq : k = s.gicMaxLrs := by omega
    exact hkeq ▸ h

/-- The loop of `alloc_lr` takes the first register that the record has as free, and
fails only when it has every register as taken. -/
theorem allocLrFrom_spec : ∀ (left i : ℕ), i + left ≤ 16 →
    wp (allocLrFrom i left) (fun r s' =>
      (r = none ∧ s' = s ∧ ∀ j, i ≤ j → j < i + left → s.usedLr.getLsbD j = true) ∨
      ∃ n : Fin 16, r = some n.val ∧ n.val < i + left ∧ s.usedLr.getLsbD n = false ∧
        s' = { s with usedLr := s'.usedLr } ∧
        ∀ j : Fin 16, s'.usedLr.getLsbD j = (s.usedLr.getLsbD j || decide (n = j))) E s := by
  intro left
  induction left with
  | zero => exact fun i _ => Or.inl ⟨rfl, rfl, fun j hle hlt => absurd hle (Nat.not_le_of_lt hlt)⟩
  | succ left ih =>
      intro i hi
      have hi16 : i < 16 := by omega
      simp only [allocLrFrom, wp_bind, wp_get, wp_ite, wp_modify, wp_pure, bit_clear_iff hi16]
      refine ⟨fun hclear => ?_, fun htaken => ?_⟩
      · refine Or.inr ⟨⟨i, hi16⟩, rfl, by simp only; omega, hclear, trivial, fun j => ?_⟩
        rw [getLsbD_set _ hi16]
        simp only [Fin.ext_iff]
      · refine wp_mono (ih (i + 1) (by omega)) ?_ (fun _ _ h => h)
        intro r s' hr
        rcases hr with ⟨hr, hs', hrest⟩ | ⟨n, hr, hn, h⟩
        · refine Or.inl ⟨hr, hs', fun j hle hlt => ?_⟩
          by_cases hj : j = i
          · rw [hj]
            exact Bool.eq_true_of_not_eq_false htaken
          · exact hrest j (by omega) (by omega)
        · exact Or.inr ⟨n, hr, by omega, h⟩

/-- The interrupt that `el1_irq_proc` takes. -/
abbrev irqOf (iar : BitVec 32) : BitVec 32 := iar &&& 0x3ff#32

/-- The message of a core whose registers are all taken. -/
abbrev noLr : Fault := .abort "No List Register"

/-- The record `u` is that of `s` without the registers that the guest emptied. -/
def Resynced (s : Ich) (u : BitVec 16) : Prop :=
  ∀ i : Fin 16, u.getLsbD i =
    (s.usedLr.getLsbD i && !(decide (i < s.gicMaxLrs) && lrIsInactive (s.lr i)))

/-- **What `el1_irq_proc` does.**  It drops the priority of what it took and writes it
to a register that the record, brought up to date, has as free, or stops when there is
none. -/
theorem el1IrqProc_takes {iar : BitVec 32} (hmax : s.gicMaxLrs ≤ 16) :
    wp (el1IrqProc iar) (fun _ s' => ∃ u, Resynced s u ∧ ∃ n : Fin 16, n.val < s.gicMaxLrs ∧
        u.getLsbD n = false ∧ s'.gicMaxLrs = s.gicMaxLrs ∧
        s'.lr = Function.update s.lr n (gicCreateLr (irqOf iar) (irqOf iar)) ∧
        s'.trace = .write n (gicCreateLr (irqOf iar) (irqOf iar)) :: .eoi (irqOf iar) :: s.trace ∧
        ∀ i : Fin 16, s'.usedLr.getLsbD i = (u.getLsbD i || decide (n = i)))
      (fun e s' => e = noLr ∧ Resynced s s'.usedLr ∧
        (∀ n : Fin 16, n.val < s.gicMaxLrs → s'.usedLr.getLsbD n = true) ∧
        s'.gicMaxLrs = s.gicMaxLrs ∧ s'.lr = s.lr ∧ s'.trace = .eoi (irqOf iar) :: s.trace) s := by
  simp only [el1IrqProc, wp_bind]
  refine wp_mono (virqEnter_spec hmax) ?_ (fun _ _ h => h)
  rintro _ s₁ ⟨hs₁, hbits⟩
  have hmax₁ : s₁.gicMaxLrs = s.gicMaxLrs := by rw [hs₁]
  have hlr₁ : s₁.lr = s.lr := by rw [hs₁]
  have htr₁ : s₁.trace = s.trace := by rw [hs₁]
  simp only [wp_modify, virqInject, allocLr, wp_bind, wp_get]
  refine wp_mono (allocLrFrom_spec _ 0 (by omega)) ?_ (fun _ _ h => h)
  intro r s₂ hr
  rcases hr with ⟨hr, hs₂, hfull⟩ | ⟨n, hr, hn, hfree, hs₂, hbits₂⟩
  · subst hr
    subst hs₂
    exact ⟨rfl, hbits, fun n hn => hfull n (Nat.zero_le _) (by omega), hmax₁, hlr₁, by rw [htr₁]⟩
  · subst hr
    have hmax₂ : s₂.gicMaxLrs = s.gicMaxLrs := by rw [hs₂, ← hmax₁]
    have hlr₂ : s₂.lr = s.lr := by rw [hs₂, ← hlr₁]
    have htr₂ : s₂.trace = .eoi (irqOf iar) :: s.trace := by rw [hs₂, ← htr₁]
    simp only [gicWriteListReg, n.isLt, dite_true, wp_modify, Fin.eta, hlr₂, htr₂]
    exact ⟨_, hbits, n, by omega, hfree, hmax₂, rfl, rfl, hbits₂⟩

/-- A bit that is clear in the new record was clear before or stood for an emptied
register. -/
theorem Resynced.clear {u : BitVec 16} (hu : Resynced s u)
    (hclear : ∀ i : Fin 16, s.usedLr.getLsbD i = false → lrIsInactive (s.lr i) = true)
    {i : Fin 16} (hi : u.getLsbD i = false) : lrIsInactive (s.lr i) = true := by
  rw [hu] at hi
  by_cases hold : s.usedLr.getLsbD i
  · simp only [hold, Bool.true_and, Bool.not_eq_false', Bool.and_eq_true] at hi
    exact hi.2
  · exact hclear i (by simpa using hold)

/-- **`el1_irq_proc`** writes one register, which the guest had emptied, or stops
with no register written. -/
theorem el1IrqProc_spec {iar : BitVec 32} (hmax : s.gicMaxLrs ≤ 16)
    (hclear : ∀ i : Fin 16, s.usedLr.getLsbD i = false → lrIsInactive (s.lr i) = true) :
    wp (el1IrqProc iar) (fun _ s' => s'.gicMaxLrs = s.gicMaxLrs ∧ ∃ n : Fin 16,
        n.val < s.gicMaxLrs ∧ lrIsInactive (s.lr n) = true ∧
        s'.lr = Function.update s.lr n (gicCreateLr (irqOf iar) (irqOf iar)) ∧
        s'.trace = .write n (gicCreateLr (irqOf iar) (irqOf iar)) :: .eoi (irqOf iar) :: s.trace ∧
        ∀ i : Fin 16, s'.usedLr.getLsbD i = false → lrIsInactive (s'.lr i) = true)
      (fun e s' => e = noLr ∧ s'.gicMaxLrs = s.gicMaxLrs ∧ s'.lr = s.lr ∧
        s'.trace = .eoi (irqOf iar) :: s.trace ∧
        ∀ i : Fin 16, s'.usedLr.getLsbD i = false → lrIsInactive (s'.lr i) = true) s := by
  refine wp_mono (el1IrqProc_takes hmax) ?_ ?_
  · rintro _ s' ⟨u, hu, n, hn, hfree, hmax', hlr, htr, hbits⟩
    refine ⟨hmax', n, hn, hu.clear hclear hfree, hlr, htr, fun i hi => ?_⟩
    rw [hbits, Bool.or_eq_false_iff, decide_eq_false_iff_not] at hi
    rw [hlr, Function.update_of_ne (Ne.symm hi.2)]
    exact hu.clear hclear hi.1
  · rintro e s' ⟨he, hu, -, hmax', hlr, htr⟩
    exact ⟨he, hmax', hlr, htr, fun i hi => hlr ▸ hu.clear hclear hi⟩

end specs

/-! ## Runs -/

/-- What the guest may do: take a pending interrupt, or be done with one. -/
inductive GuestStep (s : Ich) : Ich → Prop
  | activate (n : Fin 16) (v : BitVec 64) :
      (decodeLr (s.lr n)).state = 1 → (decodeLr v).state = 2 → lrPayload v = lrPayload (s.lr n) →
      GuestStep s { s with lr := Function.update s.lr n v, trace := .activate n :: s.trace }
  | complete (n : Fin 16) (v : BitVec 64) :
      lrIsInactive (s.lr n) = false → lrIsInactive v = true →
      GuestStep s { s with lr := Function.update s.lr n v, trace := .complete n :: s.trace }

/-- One move of the core: an interrupt from the guest, handled to its end or to the
stop of the hypervisor, or a move of the guest. -/
inductive IrqStep (s : Ich) : Ich → Prop
  | irq {s' : Ich} (iar : BitVec 32) : el1IrqProc iar s = .ok () s' → IrqStep s s'
  | stop {s' : Ich} {e : Fault} (iar : BitVec 32) : el1IrqProc iar s = .error e s' → IrqStep s s'
  | guest {s' : Ich} : GuestStep s s' → IrqStep s s'

/-- Any number of moves. -/
abbrev IrqRun : Ich → Ich → Prop := Relation.ReflTransGen IrqStep

/-- The word that register `i` was last given and that the guest is not done with. -/
def held : List IchEvent → Fin 16 → Option (BitVec 64)
  | [], _ => none
  | .write n v :: t, i => if n = i then some v else held t i
  | .complete n :: t, i => if n = i then none else held t i
  | .eoi _ :: t, i => held t i
  | .activate _ :: t, i => held t i

/-- Every write of the trace went to a register that held nothing. -/
def NoOverwrite : List IchEvent → Prop
  | [] => True
  | .write n _ :: t => held t n = none ∧ NoOverwrite t
  | .complete _ :: t => NoOverwrite t
  | .eoi _ :: t => NoOverwrite t
  | .activate _ :: t => NoOverwrite t

/-- Every write of the trace is an injection below the bound `k`. -/
def Injections (k : ℕ) (t : List IchEvent) : Prop :=
  ∀ n v, .write n v ∈ t → n.val < k ∧ ∃ iar, v = gicCreateLr (irqOf iar) (irqOf iar)

/-- A register agrees with what the trace leaves in it. -/
def Agrees (lr : BitVec 64) : Option (BitVec 64) → Prop
  | some v => lrIsInactive lr = false ∧ lrPayload lr = lrPayload v
  | none => lrIsInactive lr = true

/-- The record is true, and the registers hold what the trace says. -/
structure LrInv (s : Ich) : Prop where
  max_le : s.gicMaxLrs ≤ 16
  clear : ∀ i : Fin 16, s.usedLr.getLsbD i = false → lrIsInactive (s.lr i) = true
  agrees : ∀ i, Agrees (s.lr i) (held s.trace i)
  no_overwrite : NoOverwrite s.trace
  injections : Injections s.gicMaxLrs s.trace

theorem Agrees.eq_none {lr : BitVec 64} {o : Option (BitVec 64)} (h : Agrees lr o)
    (hin : lrIsInactive lr = true) : o = none := by
  cases o with
  | none => rfl
  | some v =>
      rw [h.1] at hin
      cases hin

theorem Agrees.eq_some {lr : BitVec 64} {o : Option (BitVec 64)} (h : Agrees lr o)
    (hin : lrIsInactive lr = false) : ∃ v, o = some v ∧ lrPayload lr = lrPayload v := by
  cases o with
  | none =>
      have hin' : lrIsInactive lr = true := h
      rw [hin'] at hin
      cases hin
  | some v => exact ⟨v, rfl, h.2⟩

/-- The state field decides whether a register is inactive. -/
theorem lrIsInactive_iff (lr : BitVec 64) : lrIsInactive lr = true ↔ (decodeLr lr).state = 0 := by
  rw [lrIsInactive, beq_iff_eq, decodeLr, ← BitVec.toNat_inj, ← BitVec.toNat_inj,
    BitVec.toNat_and, BitVec.toNat_ushiftRight, BitVec.extractLsb'_toNat,
    show (0x3#64).toNat = 2 ^ 2 - 1 by decide, Nat.and_two_pow_sub_one_eq_mod]
  rfl

theorem lrIsInactive_of_active {lr : BitVec 64} (h : (decodeLr lr).state = 2) :
    lrIsInactive lr = false := by
  rw [← Bool.not_eq_true, lrIsInactive_iff, h]
  decide

/-- A guest move keeps the invariant. -/
theorem LrInv.guest {s s' : Ich} (I : LrInv s) (step : GuestStep s s') : LrInv s' := by
  cases step with
  | activate n v hpending hactive hpayload =>
      have hnin : lrIsInactive (s.lr n) = false := by
        rw [← Bool.not_eq_true, lrIsInactive_iff, hpending]
        decide
      obtain ⟨w, hw, hpw⟩ := (I.agrees n).eq_some hnin
      refine ⟨I.max_le, fun i hi => ?_, fun i => ?_, I.no_overwrite, fun m w' hm => ?_⟩
      · have hold := I.clear i hi
        have hne : i ≠ n := fun h => by rw [h, hnin] at hold; cases hold
        simpa only [Function.update_of_ne hne] using hold
      · by_cases hi : i = n
        · subst hi
          simp only [held, Function.update_self, hw]
          exact ⟨lrIsInactive_of_active hactive, hpayload.trans hpw⟩
        · simp only [held, Function.update_of_ne hi]
          exact I.agrees i
      · exact I.injections m w' (by simpa using hm)
  | complete n v hnin hin =>
      refine ⟨I.max_le, fun i hi => ?_, fun i => ?_, I.no_overwrite, fun m w' hm => ?_⟩
      · by_cases hin' : i = n
        · simpa only [hin', Function.update_self] using hin
        · simpa only [Function.update_of_ne hin'] using I.clear i hi
      · by_cases hi : i = n
        · subst hi
          simp only [held, Function.update_self, if_true]
          exact hin
        · simp only [held, Function.update_of_ne hi, Ne.symm hi, if_false]
          exact I.agrees i
      · exact I.injections m w' (by simpa using hm)

/-- Taking an interrupt keeps the invariant, and so does a stop. -/
theorem LrInv.irq {s : Ich} (I : LrInv s) (iar : BitVec 32) :
    wp (el1IrqProc iar) (fun _ s' => LrInv s') (fun _ s' => LrInv s') s := by
  refine wp_mono (el1IrqProc_spec I.max_le I.clear) ?_ ?_
  · rintro _ s' ⟨hmax, n, hn, hin, hlr, htr, hclear⟩
    refine ⟨hmax ▸ I.max_le, hclear, fun i => ?_, ?_, ?_⟩
    · rw [hlr, htr]
      by_cases hi : i = n
      · subst hi
        simp only [held, if_true, Function.update_self]
        exact ⟨lrIsInactive_gicCreateLr _ _, rfl⟩
      · simp only [held, Ne.symm hi, if_false, Function.update_of_ne hi]
        exact I.agrees i
    · rw [htr]
      exact ⟨(I.agrees n).eq_none hin, I.no_overwrite⟩
    · rw [htr, hmax]
      intro m v hm
      simp only [List.mem_cons, IchEvent.write.injEq, reduceCtorEq, false_or] at hm
      rcases hm with ⟨rfl, rfl⟩ | hm
      · exact ⟨hn, iar, rfl⟩
      · exact I.injections m v hm
  · rintro e s' ⟨_, hmax, hlr, htr, hclear⟩
    refine ⟨hmax ▸ I.max_le, hclear, fun i => ?_, ?_, ?_⟩
    · rw [hlr, htr]
      exact I.agrees i
    · rw [htr]
      exact I.no_overwrite
    · rw [htr, hmax]
      intro m v hm
      exact I.injections m v (by simpa using hm)

/-- A run keeps the invariant. -/
theorem LrInv.run {s s' : Ich} (I : LrInv s) (run : IrqRun s s') : LrInv s' := by
  induction run with
  | refl => exact I
  | tail _ step ih =>
      cases step with
      | irq iar h => exact ok_of_wp (ih.irq iar) h
      | stop iar h => exact error_of_wp (ih.irq iar) h
      | guest h => exact ih.guest h

/-! ## What the trace says -/

/-- What a register holds was the last thing written to it, and the guest is not
done with it. -/
theorem held_eq_some {t : List IchEvent} {i : Fin 16} {v : BitVec 64} (h : held t i = some v) :
    ∃ t₁ t₂, t = t₁ ++ .write i v :: t₂ ∧ .complete i ∉ t₁ := by
  induction t with
  | nil => cases h
  | cons e t ih =>
      have hskip : held t i = some v → e ≠ .complete i →
          ∃ t₁ t₂, e :: t = t₁ ++ .write i v :: t₂ ∧ .complete i ∉ t₁ := by
        intro ht he
        obtain ⟨t₁, t₂, rfl, hno⟩ := ih ht
        exact ⟨e :: t₁, t₂, rfl, by simp [he.symm, hno]⟩
      cases e with
      | write n w =>
          by_cases hn : n = i
          · simp only [held, hn, if_true, Option.some_inj] at h
            exact ⟨[], t, by simp [hn, h], by simp⟩
          · simp only [held, hn, if_false] at h
            exact hskip h (by simp)
      | complete n =>
          by_cases hn : n = i
          · simp [held, hn] at h
          · simp only [held, hn, if_false] at h
            exact hskip h (by simpa using hn)
      | eoi irq => exact hskip h (by simp)
      | activate n => exact hskip h (by simp)

/-- An injection that the guest is not done with is what its register holds, and the
register was not written since. -/
theorem held_of_outstanding {t₁ t₂ : List IchEvent} {i : Fin 16} {v : BitVec 64}
    (hclean : NoOverwrite (t₁ ++ .write i v :: t₂)) (hno : .complete i ∉ t₁) :
    held (t₁ ++ .write i v :: t₂) i = some v ∧ ∀ w, .write i w ∉ t₁ := by
  induction t₁ with
  | nil => simp [held]
  | cons e t₁ ih =>
      have hno' : .complete i ∉ t₁ := fun h => hno (List.mem_cons_of_mem _ h)
      cases e with
      | write n w =>
          have hfree : held (t₁ ++ .write i v :: t₂) n = none := hclean.1
          obtain ⟨hheld, hnow⟩ := ih hclean.2 hno'
          have hn : n ≠ i := fun h => by rw [h, hheld] at hfree; cases hfree
          refine ⟨by simpa [held, hn] using hheld, fun w' => ?_⟩
          simp [hnow w', Ne.symm hn]
      | complete n =>
          have hn : n ≠ i := fun h => hno (by simp [h])
          obtain ⟨hheld, hnow⟩ := ih hclean hno'
          exact ⟨by simpa [held, hn] using hheld, fun w' => by simp [hnow w']⟩
      | eoi irq =>
          obtain ⟨hheld, hnow⟩ := ih hclean hno'
          exact ⟨hheld, fun w' => by simp [hnow w']⟩
      | activate n =>
          obtain ⟨hheld, hnow⟩ := ih hclean hno'
          exact ⟨hheld, fun w' => by simp [hnow w']⟩

/-- **No injected interrupt is overwritten.**  In every state that a core reaches
from empty list registers: a register the record has as free is inactive; the next
interrupt is written to one inactive register below `gic_max_lrs`, as a pending
hardware interrupt of group 1, or to none; an injected interrupt that the guest is
not done with is in the register it was written to, which was not written since; and
every register that is not inactive holds such an interrupt. -/
theorem irq_not_overwritten {s₀ s : Ich} (hmax : s₀.gicMaxLrs ≤ 16)
    (hlr : ∀ i, lrIsInactive (s₀.lr i) = true) (htr : s₀.trace = []) (run : IrqRun s₀ s) :
    (∀ i : Fin 16, s.usedLr.getLsbD i = false → lrIsInactive (s.lr i) = true) ∧
    (∀ iar s', el1IrqProc iar s = .ok () s' → ∃ n : Fin 16, n.val < s.gicMaxLrs ∧
      lrIsInactive (s.lr n) = true ∧
      s'.lr = Function.update s.lr n (gicCreateLr (irqOf iar) (irqOf iar)) ∧
      s'.trace = .write n (gicCreateLr (irqOf iar) (irqOf iar)) :: .eoi (irqOf iar) :: s.trace) ∧
    (∀ iar e s', el1IrqProc iar s = .error e s' → s'.lr = s.lr) ∧
    (∀ n v, .write n v ∈ s.trace → n.val < s.gicMaxLrs ∧
      ∃ irq : BitVec 32, irq.toNat < 1024 ∧ v = gicCreateLr irq irq) ∧
    (∀ pirq virq : BitVec 32, pirq.toNat < 1024 → decodeLr (gicCreateLr pirq virq) =
      { state := 1, hw := true, group := true, pINTID := pirq.setWidth 13, vINTID := virq }) ∧
    (∀ t₁ n v t₂, s.trace = t₁ ++ .write n v :: t₂ → .complete n ∉ t₁ →
      lrIsInactive (s.lr n) = false ∧ lrPayload (s.lr n) = lrPayload v ∧
        ∀ w, .write n w ∉ t₁) ∧
    (∀ n, lrIsInactive (s.lr n) = false → ∃ t₁ v t₂, s.trace = t₁ ++ .write n v :: t₂ ∧
      .complete n ∉ t₁ ∧ lrPayload (s.lr n) = lrPayload v) := by
  have I₀ : LrInv s₀ := by
    refine ⟨hmax, fun i _ => hlr i, fun i => ?_, ?_, ?_⟩
    · rw [htr]
      exact hlr i
    · rw [htr]
      trivial
    · rw [htr]
      intro n v h
      cases h
  have I := I₀.run run
  refine ⟨I.clear, ?_, ?_, ?_, fun pirq virq => decodeLr_gicCreateLr, ?_, ?_⟩
  · intro iar s' hexec
    obtain ⟨_, n, hn, hin, hlr', htr', _⟩ := ok_of_wp (el1IrqProc_spec I.max_le I.clear) hexec
    exact ⟨n, hn, hin, hlr', htr'⟩
  · intro iar e s' hexec
    obtain ⟨_, _, hlr', _⟩ := error_of_wp (el1IrqProc_spec I.max_le I.clear) hexec
    exact hlr'
  · intro n v hmem
    obtain ⟨hn, iar, hv⟩ := I.injections n v hmem
    refine ⟨hn, irqOf iar, ?_, hv⟩
    rw [irqOf, BitVec.toNat_and, show (0x3ff#32).toNat = 2 ^ 10 - 1 by decide,
      Nat.and_two_pow_sub_one_eq_mod]
    omega
  · intro t₁ n v t₂ ht hno
    have hclean := I.no_overwrite
    have hagree := I.agrees n
    rw [ht] at hclean hagree
    obtain ⟨hheld, hnow⟩ := held_of_outstanding hclean hno
    rw [hheld] at hagree
    exact ⟨hagree.1, hagree.2, hnow⟩
  · intro n hnin
    obtain ⟨v, hheld, hpay⟩ := (I.agrees n).eq_some hnin
    obtain ⟨t₁, t₂, ht, hno⟩ := held_eq_some hheld
    exact ⟨t₁, v, t₂, ht, hno, hpay⟩

/-- A core with two empty list registers. -/
def twoLrs : Ich where
  gicMaxLrs := 2
  usedLr := 0
  lr := fun _ => 0
  trace := []

/-- Interrupt 27 is injected and completed, and then interrupt 33 is injected. -/
theorem irq_not_overwritten_two : ∃ s, IrqRun twoLrs s ∧ s.trace =
      [.write 0 (gicCreateLr 33 33), .eoi 33, .complete 0, .write 0 (gicCreateLr 27 27), .eoi 27] ∧
    lrIsInactive (s.lr 0) = false := by
  have run : ∃ s, IrqRun twoLrs s ∧ s.trace = [.write 0 (gicCreateLr 33 33), .eoi 33, .complete 0,
      .write 0 (gicCreateLr 27 27), .eoi 27] := by
    have h₁ : el1IrqProc 27 twoLrs = .ok () { twoLrs with
        usedLr := 1
        lr := Function.update twoLrs.lr 0 (gicCreateLr 27 27)
        trace := [.write 0 (gicCreateLr 27 27), .eoi 27] } := by rfl
    refine ⟨_, .tail (.tail (.single (.irq 27 h₁)) (.guest (.complete 0 0 ?_ ?_)))
      (.irq 33 (by rfl)), ?_⟩
    · decide
    · decide
    · rfl
  obtain ⟨s, run, ht⟩ := run
  refine ⟨s, run, ht, ?_⟩
  have h := (irq_not_overwritten (by decide) (by decide) rfl run).2.2.2.2.2.1
    [] 0 (gicCreateLr 33 33) [.eoi 33, .complete 0, .write 0 (gicCreateLr 27 27), .eoi 27] ht
  exact (h (by simp)).1

end Xhyper
