import Xhyper.IrqDelivery

/-!
# Which interrupts are injected

`el1_irq_proc` keeps ten bits of what it reads in `ICC_IAR1_EL1` and injects whatever they spell.
The interrupt's number has 24 bits.  The numbers from 1020 on are no interrupts of a device or a
core: 1023 says that nothing is pending, and from 8192 on they are messages, which the hypervisor
does not handle.

## Main definitions

* `intid` — the number that was read.
* `Injected`, `Ignored` — what should become of an interrupt, and of another number.
* `injectsReal_iff` — when only interrupts are injected.
-/

namespace Xhyper

open Prog

/-- The number in `ICC_IAR1_EL1`. -/
def intid (iar : BitVec 32) : ℕ := iar.toNat % 2 ^ 24

/-- One register was written, with the number `n` on both sides, after one priority drop for it. -/
def Injected (s : Ich) (n : ℕ) (s' : Ich) : Prop :=
  ∃ (i : Fin 16) (w : BitVec 64) (irq : BitVec 32), i.val < s.gicMaxLrs ∧ irq.toNat = n ∧
    (decodeLr w).pINTID.toNat = n ∧ (decodeLr w).vINTID.toNat = n ∧
    s'.lr = Function.update s.lr i w ∧ s'.trace = .write i w :: .eoi irq :: s.trace

/-- No register was written, the record was brought up to date and no more, and no interrupt had
its priority dropped. -/
def Ignored (s s' : Ich) : Prop :=
  s'.lr = s.lr ∧ Resynced s s'.usedLr ∧ ∃ t, s'.trace = t ++ s.trace ∧
    (∀ i w, IchEvent.write i w ∉ t) ∧ ∀ irq, IchEvent.eoi irq ∈ t → 1020 ≤ irq.toNat

/-- An interrupt of a device or a core is injected under its number.  For another number nothing
is done, also when the call stops. -/
def InjectsReal (iar : BitVec 32) (s : Ich) : Prop :=
  (intid iar < 1020 →
    wp (el1IrqProc iar) (fun _ s' => Injected s (intid iar) s') (fun _ _ => False) s) ∧
  (1020 ≤ intid iar →
    wp (el1IrqProc iar) (fun _ s' => Ignored s s') (fun _ s' => Ignored s s') s)

section inject
variable {s s' : Ich} {iar : BitVec 32}

theorem toNat_irqOf (iar : BitVec 32) : (irqOf iar).toNat = iar.toNat % 1024 := by
  rw [irqOf, BitVec.toNat_and, show (0x3ff#32).toNat = 2 ^ 10 - 1 by decide,
    Nat.and_two_pow_sub_one_eq_mod]

/-- The number in a register that was written for an interrupt. -/
theorem injected_of_write {i : Fin 16} (hirq : intid iar < 1020) (hi : i.val < s.gicMaxLrs)
    (hlr : s'.lr = Function.update s.lr i (gicCreateLr (irqOf iar) (irqOf iar)))
    (htr : s'.trace = .write i (gicCreateLr (irqOf iar) (irqOf iar)) :: .eoi (irqOf iar) ::
      s.trace) : Injected s (intid iar) s' := by
  have hnum : (irqOf iar).toNat = intid iar := by
    rw [toNat_irqOf]
    rw [intid] at hirq ⊢
    omega
  have hlt : (irqOf iar).toNat < 1024 := by omega
  refine ⟨i, _, irqOf iar, hi, hnum, ?_, ?_, hlr, htr⟩
  · rw [decodeLr_gicCreateLr hlt, BitVec.toNat_setWidth, hnum]
    omega
  · rw [decodeLr_gicCreateLr hlt, hnum]

/-- What was written to a register was not ignored. -/
theorem not_ignored_of_write {i : Fin 16} {w : BitVec 64} {t : List IchEvent}
    (htr : s'.trace = .write i w :: t ++ s.trace) : ¬ Ignored s s' := by
  rintro ⟨_, _, t', ht', hno, _⟩
  have heq : t' = .write i w :: t := List.append_cancel_right (ht'.symm.trans htr)
  exact hno i w (heq ▸ List.mem_cons_self)

end inject

/-- **Only interrupts are injected** exactly in two cases: it is an interrupt that was read, and
there is room for it; or it is a number that is still none in ten bits, and the call stops because
there is no room. -/
theorem injectsReal_iff {s : Ich} (hmax : s.gicMaxLrs ≤ 16) (iar : BitVec 32) :
    InjectsReal iar s ↔ (intid iar < 1020 ∧ s.HasRoom) ∨
      (1020 ≤ intid iar ∧ 1020 ≤ iar.toNat % 1024 ∧ ¬ s.HasRoom) := by
  have hcall := el1IrqProc_exact hmax iar
  by_cases hreal : intid iar < 1020
  · have hno : ¬ 1020 ≤ intid iar := not_le.mpr hreal
    simp only [InjectsReal, hreal, hno, true_implies, false_implies, and_true, true_and, false_and,
      or_false]
    constructor
    · intro h
      obtain ⟨_, s', hexec, _⟩ := exists_ok_of_wp h
      exact (ok_of_wp hcall hexec).1
    · intro hroom
      refine wp_mono hcall ?_ fun _ _ h => h.1 hroom
      rintro _ s' ⟨_, i, hi, hlr, htr⟩
      exact injected_of_write hreal hi hlr htr
  · have hspecial : 1020 ≤ intid iar := not_lt.mp hreal
    simp only [InjectsReal, hreal, hspecial, true_implies, false_implies, true_and, false_and,
      false_or]
    constructor
    · intro h
      cases hexec : el1IrqProc iar s with
      | ok a s' =>
          obtain ⟨_, i, _, _, htr⟩ := ok_of_wp hcall hexec
          exact absurd (ok_of_wp h hexec) (not_ignored_of_write (t := [_]) htr)
      | error e s' =>
          obtain ⟨hroom, _, _, htr⟩ := error_of_wp hcall hexec
          obtain ⟨_, _, t, ht, _, hdrop⟩ := error_of_wp h hexec
          have heq : t = [.eoi (irqOf iar)] := List.append_cancel_right (ht.symm.trans htr)
          have hdrop := hdrop (irqOf iar) (heq ▸ List.mem_cons_self)
          exact ⟨toNat_irqOf iar ▸ hdrop, hroom⟩
    · rintro ⟨hten, hroom⟩
      refine wp_mono hcall (fun _ _ h => absurd h.1 hroom) ?_
      rintro _ s' ⟨_, hlr, hused, htr⟩
      refine ⟨hlr, hused, [_], htr, by simp, fun irq hirq => ?_⟩
      cases List.mem_singleton.mp hirq
      rwa [toNat_irqOf]

/-- Interrupt 27 is injected into an empty register. -/
theorem injectsReal_timer : InjectsReal 27 twoLrs :=
  (injectsReal_iff (by decide) 27).mpr (Or.inl ⟨by decide, 0, by decide, Or.inl (by decide)⟩)

/-- Nothing being pending is injected as interrupt 1023, and the first message as interrupt 0. -/
theorem injectsReal_aliased : ¬ InjectsReal 1023 twoLrs ∧ ¬ InjectsReal 8192 twoLrs := by
  have hspurious : ∃ s', el1IrqProc 1023 twoLrs = .ok () s' ∧
      s'.trace = [.write 0 (gicCreateLr 1023 1023), .eoi 1023] := ⟨_, rfl, rfl⟩
  have hmessage : ∃ s', el1IrqProc 8192 twoLrs = .ok () s' ∧
      s'.trace = [.write 0 (gicCreateLr 0 0), .eoi 0] := ⟨_, rfl, rfl⟩
  constructor
  · intro h
    obtain ⟨s', hexec, htr⟩ := hspurious
    have hignored := ok_of_wp (h.2 (by decide)) hexec
    exact not_ignored_of_write (t := [.eoi 1023]) htr hignored
  · intro h
    obtain ⟨s', hexec, htr⟩ := hmessage
    have hignored := ok_of_wp (h.2 (by decide)) hexec
    exact not_ignored_of_write (t := [.eoi 0]) htr hignored

end Xhyper
