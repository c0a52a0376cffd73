import Mathlib.Data.Fintype.Fin
import Mathlib.Data.Set.Card
import Xhyper.ListRegs

/-!
# The room for interrupts

An interrupt that was taken stays in a list register until the guest is done with it, and until
then it does not come again.  There is no other place for it: when every list register is taken,
the next interrupt stops the hypervisor.

## Main definitions

* `outstanding` — the interrupts taken that the guest is not done with.
* `DeliveryRun` — runs in which only other interrupts come.
* `Ich.HasRoom` — the guest has left a register free.
* `el1IrqProc_exact` — when it finds one.
* `DeliveryInv` — the invariant.
* `irq_halts_iff_full` — when the hypervisor stops, and that nothing is lost before.
-/

namespace Xhyper

open Prog

/-! ## Runs -/

/-- The interrupts that a core has taken and the guest is not done with. -/
def outstanding (s : Ich) : Set (BitVec 32) :=
  {irq | ∃ n, held s.trace n = some (gicCreateLr irq irq)}

/-- A move of the guest, or an interrupt that is not outstanding, handled to its end.  Nothing
runs after a stop. -/
inductive DeliveryStep (s : Ich) : Ich → Prop
  | irq {s' : Ich} (iar : BitVec 32) :
      irqOf iar ∉ outstanding s → el1IrqProc iar s = .ok () s' → DeliveryStep s s'
  | guest {s' : Ich} : GuestStep s s' → DeliveryStep s s'

/-- Any number of moves. -/
abbrev DeliveryRun : Ich → Ich → Prop := Relation.ReflTransGen DeliveryStep

/-- An interrupt's number is in what is written for it. -/
theorem gicCreateLr_inj {irq irq' : BitVec 32} (h : gicCreateLr irq irq = gicCreateLr irq' irq') :
    irq = irq' := by
  have hirq := irq.isLt
  have hirq' := irq'.isLt
  have hnat := congrArg BitVec.toNat h
  rw [toNat_gicCreateLr, toNat_gicCreateLr] at hnat
  apply BitVec.eq_of_toNat_eq
  omega

/-! ## When a register is found -/

/-- A register that the record has as free, or that the guest emptied. -/
def Ich.HasRoom (s : Ich) : Prop :=
  ∃ n : Fin 16, n.val < s.gicMaxLrs ∧ (s.usedLr.getLsbD n = false ∨ lrIsInactive (s.lr n) = true)

section alloc
variable {s : Ich}

/-- There is room when the record, brought up to date, has a register as free. -/
theorem hasRoom_iff {u : BitVec 16} (hu : Resynced s u) :
    s.HasRoom ↔ ∃ n : Fin 16, n.val < s.gicMaxLrs ∧ u.getLsbD n = false := by
  refine exists_congr fun n => and_congr_right fun hn => ?_
  rw [hu n, decide_eq_true hn]
  cases s.usedLr.getLsbD n <;> cases lrIsInactive (s.lr n) <;> simp

/-- **`el1_irq_proc` finds a register** exactly when there is room. -/
theorem el1IrqProc_exact (hmax : s.gicMaxLrs ≤ 16) (iar : BitVec 32) :
    wp (el1IrqProc iar) (fun _ s' => s.HasRoom ∧ ∃ i : Fin 16, i.val < s.gicMaxLrs ∧
        s'.lr = Function.update s.lr i (gicCreateLr (irqOf iar) (irqOf iar)) ∧
        s'.trace = .write i (gicCreateLr (irqOf iar) (irqOf iar)) :: .eoi (irqOf iar) :: s.trace)
      (fun _ s' => ¬ s.HasRoom ∧ s'.lr = s.lr ∧ Resynced s s'.usedLr ∧
        s'.trace = .eoi (irqOf iar) :: s.trace) s := by
  refine wp_mono (el1IrqProc_takes hmax) ?_ ?_
  · rintro _ s' ⟨u, hu, n, hn, hfree, -, hlr, htr, -⟩
    exact ⟨(hasRoom_iff hu).mpr ⟨n, hn, hfree⟩, n, hn, hlr, htr⟩
  · rintro e s' ⟨-, hu, hfull, -, hlr, htr⟩
    refine ⟨fun hroom => ?_, hlr, hu, htr⟩
    obtain ⟨n, hn, hfree⟩ := (hasRoom_iff hu).mp hroom
    rw [hfull n hn] at hfree
    cases hfree

/-- **`el1_irq_proc` stops** only when the guest has emptied no register, and finds one only when
it has. -/
theorem el1IrqProc_room {iar : BitVec 32} (hmax : s.gicMaxLrs ≤ 16) :
    wp (el1IrqProc iar) (fun _ _ => True)
      (fun _ _ => ∀ n : Fin 16, n.val < s.gicMaxLrs → lrIsInactive (s.lr n) = false) s := by
  refine wp_mono (el1IrqProc_exact hmax iar) (fun _ _ _ => trivial) ?_
  intro _ _ hstop n hn
  by_contra hempty
  exact hstop.1 ⟨n, hn, Or.inr (Bool.eq_true_of_not_eq_false hempty)⟩

end alloc

/-! ## The invariant -/

/-- Every interrupt of a trace was written to a register at once. -/
def AllWritten (t : List IchEvent) : Prop :=
  ∀ t₁ irq t₂, t = t₁ ++ .eoi irq :: t₂ → ∃ t₃ n, t₁ = t₃ ++ [.write n (gicCreateLr irq irq)]

/-- Each interrupt is in one register, and none was lost. -/
structure DeliveryInv (s : Ich) : Prop extends LrInv s where
  distinct : ∀ n m v, held s.trace n = some v → held s.trace m = some v → n = m
  written : AllWritten s.trace

theorem AllWritten.cons {t : List IchEvent} {e : IchEvent} (h : AllWritten t)
    (he : ∀ irq, e ≠ .eoi irq) : AllWritten (e :: t) := by
  intro t₁ irq t₂ ht
  cases t₁ with
  | nil => exact absurd (List.cons.inj ht).1 (he irq)
  | cons e' t₁ =>
      obtain ⟨rfl, hrest⟩ := List.cons.inj ht
      obtain ⟨t₃, n, rfl⟩ := h t₁ irq t₂ hrest
      exact ⟨e :: t₃, n, rfl⟩

theorem AllWritten.inject {t : List IchEvent} (h : AllWritten t) (n : Fin 16) (irq : BitVec 32) :
    AllWritten (.write n (gicCreateLr irq irq) :: .eoi irq :: t) := by
  intro t₁ irq' t₂ ht
  cases t₁ with
  | nil => cases (List.cons.inj ht).1
  | cons e t₁ =>
      obtain ⟨rfl, hrest⟩ := List.cons.inj ht
      cases t₁ with
      | nil =>
          obtain ⟨heq, _⟩ := List.cons.inj hrest
          cases heq
          exact ⟨[], n, rfl⟩
      | cons e t₁ =>
          obtain ⟨rfl, htail⟩ := List.cons.inj hrest
          obtain ⟨t₃, m, rfl⟩ := h t₁ irq' t₂ htail
          exact ⟨_ :: _ :: t₃, m, rfl⟩

section invariant
variable {s s' : Ich}

/-- What a register holds is an interrupt. -/
theorem LrInv.held_injection (I : LrInv s) {n : Fin 16} {v : BitVec 64}
    (h : held s.trace n = some v) : n.val < s.gicMaxLrs ∧ ∃ irq, v = gicCreateLr irq irq := by
  obtain ⟨t₁, t₂, ht, _⟩ := held_eq_some h
  obtain ⟨hn, iar, hv⟩ := I.injections n v (by simp [ht])
  exact ⟨hn, irqOf iar, hv⟩

theorem DeliveryInv.guest (I : DeliveryInv s) (step : GuestStep s s') : DeliveryInv s' := by
  have hlr := I.toLrInv.guest step
  cases step with
  | activate n v _ _ _ => exact ⟨hlr, I.distinct, I.written.cons (by simp)⟩
  | complete n v _ _ =>
      refine ⟨hlr, fun i j w hi hj => ?_, I.written.cons (by simp)⟩
      simp only [held] at hi hj
      split at hi
      · cases hi
      split at hj
      · cases hj
      exact I.distinct i j w hi hj

/-- An interrupt that is not outstanding keeps the invariant. -/
theorem DeliveryInv.irq (I : DeliveryInv s) {iar : BitVec 32} (hnew : irqOf iar ∉ outstanding s)
    (hrun : el1IrqProc iar s = .ok () s') :
    DeliveryInv s' ∧ outstanding s' = insert (irqOf iar) (outstanding s) := by
  have hlr := ok_of_wp (I.toLrInv.irq iar) hrun
  obtain ⟨_, n, _, hin, _, htr, _⟩ := ok_of_wp (el1IrqProc_spec I.max_le I.clear) hrun
  have hfree : held s.trace n = none := (I.agrees n).eq_none hin
  have hheld : ∀ i, held s'.trace i =
      if n = i then some (gicCreateLr (irqOf iar) (irqOf iar)) else held s.trace i := by
    intro i
    rw [htr]
    rfl
  -- the new word is in no other register
  have hother : ∀ i, held s.trace i ≠ some (gicCreateLr (irqOf iar) (irqOf iar)) :=
    fun i hi => hnew ⟨i, hi⟩
  refine ⟨⟨hlr, fun i j w hi hj => ?_, htr ▸ I.written.inject n _⟩, ?_⟩
  · rw [hheld] at hi hj
    split at hi
    · split at hj
      · exact ‹n = i›.symm.trans ‹n = j›
      · exact absurd (hj.trans hi.symm) (hother j)
    · split at hj
      · exact absurd (hi.trans hj.symm) (hother i)
      · exact I.distinct i j w hi hj
  · ext irq
    constructor
    · rintro ⟨i, hi⟩
      rw [hheld] at hi
      split at hi
      · exact Or.inl (gicCreateLr_inj (Option.some.inj hi)).symm
      · exact Or.inr ⟨i, hi⟩
    · rintro (rfl | ⟨i, hi⟩)
      · exact ⟨n, by rw [hheld, if_pos rfl]⟩
      · have hne : n ≠ i := by
          rintro rfl
          rw [hfree] at hi
          cases hi
        exact ⟨i, by rw [hheld, if_neg hne, hi]⟩

/-- A run keeps the invariant. -/
theorem DeliveryInv.run (I : DeliveryInv s) (run : DeliveryRun s s') : DeliveryInv s' := by
  induction run with
  | refl => exact I
  | tail _ step ih =>
      cases step with
      | irq iar hnew hrun => exact (ih.irq hnew hrun).1
      | guest h => exact ih.guest h

end invariant

/-! ## Counting -/

section count
variable {s : Ich}

/-- The registers that the guest has not emptied. -/
def busyLrs (s : Ich) : Set (Fin 16) := {n | lrIsInactive (s.lr n) = false}

/-- The interrupt in a register. -/
def lrIrq (s : Ich) (n : Fin 16) : BitVec 32 := (lrPayload (s.lr n)).extractLsb' 0 32

theorem vINTID_gicCreateLr (irq : BitVec 32) :
    (lrPayload (gicCreateLr irq irq)).extractLsb' 0 32 = irq := by
  have hirq := irq.isLt
  apply BitVec.eq_of_toNat_eq
  rw [lrPayload, BitVec.extractLsb'_toNat, BitVec.extractLsb'_toNat, toNat_gicCreateLr,
    Nat.shiftRight_zero, Nat.shiftRight_zero]
  omega

/-- A register that holds an interrupt is busy with it. -/
theorem LrInv.busy (I : LrInv s) {n : Fin 16} {irq : BitVec 32}
    (h : held s.trace n = some (gicCreateLr irq irq)) : n ∈ busyLrs s ∧ lrIrq s n = irq := by
  have hagree := I.agrees n
  rw [h] at hagree
  refine ⟨hagree.1, ?_⟩
  rw [lrIrq, hagree.2, vINTID_gicCreateLr]

theorem LrInv.held_busy (I : LrInv s) {n : Fin 16} (h : n ∈ busyLrs s) :
    held s.trace n = some (gicCreateLr (lrIrq s n) (lrIrq s n)) := by
  obtain ⟨v, hv, _⟩ := (I.agrees n).eq_some h
  obtain ⟨_, irq, rfl⟩ := I.held_injection hv
  rw [(I.busy hv).2, hv]

/-- **As many registers are busy as interrupts are outstanding.** -/
theorem DeliveryInv.ncard_outstanding (I : DeliveryInv s) :
    (outstanding s).ncard = (busyLrs s).ncard := by
  have himage : outstanding s = lrIrq s '' busyLrs s := by
    ext irq
    constructor
    · rintro ⟨n, hn⟩
      exact ⟨n, I.busy hn⟩
    · rintro ⟨n, hn, rfl⟩
      exact ⟨n, I.held_busy hn⟩
  have hinj : Set.InjOn (lrIrq s) (busyLrs s) := by
    intro n hn m hm heq
    have hheld := I.held_busy hm
    rw [← heq] at hheld
    exact I.distinct n m _ (I.held_busy hn) hheld
  rw [himage, hinj.ncard_image]

/-- The registers that the core has. -/
theorem ncard_lrs {k : ℕ} (hk : k ≤ 16) : {n : Fin 16 | n.val < k}.ncard = k := by
  rw [Set.ncard_eq_toFinset_card', Set.toFinset_ofPred, Fin.card_filter_val_lt, Nat.min_eq_right hk]

theorem LrInv.busy_subset (I : LrInv s) : busyLrs s ⊆ {n : Fin 16 | n.val < s.gicMaxLrs} := by
  intro n hn
  exact (I.held_injection (I.held_busy hn)).1

theorem DeliveryInv.ncard_le (I : DeliveryInv s) : (outstanding s).ncard ≤ s.gicMaxLrs := by
  rw [I.ncard_outstanding]
  exact (Set.ncard_le_ncard I.busy_subset).trans_eq (ncard_lrs I.max_le)

/-- No register is free when as many interrupts are outstanding as there are registers. -/
theorem DeliveryInv.full_iff (I : DeliveryInv s) : (outstanding s).ncard = s.gicMaxLrs ↔
    ∀ n : Fin 16, n.val < s.gicMaxLrs → lrIsInactive (s.lr n) = false := by
  have hcard := ncard_lrs I.max_le
  rw [I.ncard_outstanding]
  constructor
  · intro h n hn
    have hall := Set.eq_of_subset_of_ncard_le I.busy_subset (hcard.trans h.symm).le
    exact hall.ge hn
  · intro h
    have hall : busyLrs s = {n : Fin 16 | n.val < s.gicMaxLrs} :=
      I.busy_subset.antisymm fun n hn => h n hn
    rw [hall, hcard]

end count

/-! ## When the hypervisor stops -/

section stop
variable {s : Ich}

/-- With a free register, an interrupt is taken. -/
theorem DeliveryInv.taken (I : DeliveryInv s) (iar : BitVec 32)
    (hroom : (outstanding s).ncard < s.gicMaxLrs) :
    ∃ s', el1IrqProc iar s = .ok () s' := by
  have H := @el1IrqProc_room s iar I.max_le
  cases hrun : el1IrqProc iar s with
  | ok _ s' => exact ⟨s', rfl⟩
  | error e s' => exact absurd (I.full_iff.mpr (error_of_wp H hrun)) hroom.ne

/-- With none, the hypervisor stops, and the interrupt is in no register. -/
theorem DeliveryInv.stops (I : DeliveryInv s) (iar : BitVec 32)
    (hfull : (outstanding s).ncard = s.gicMaxLrs) :
    ∃ s', el1IrqProc iar s = .error noLr s' ∧ s'.lr = s.lr ∧
      s'.trace = .eoi (irqOf iar) :: s.trace := by
  have H := @el1IrqProc_spec s iar I.max_le I.clear
  cases hrun : el1IrqProc iar s with
  | ok _ s' =>
      obtain ⟨_, n, hn, hin, _⟩ := ok_of_wp H hrun
      rw [I.full_iff.mp hfull n hn] at hin
      cases hin
  | error e s' =>
      obtain ⟨rfl, _, hlr, htr, _⟩ := error_of_wp H hrun
      exact ⟨s', rfl, hlr, htr⟩

end stop

/-- A core that has taken no interrupt. -/
structure NoInterrupt (s : Ich) : Prop where
  max_le : s.gicMaxLrs ≤ 16
  empty : ∀ i, lrIsInactive (s.lr i) = true
  trace : s.trace = []

theorem NoInterrupt.inv {s : Ich} (C : NoInterrupt s) : DeliveryInv s := by
  refine ⟨⟨C.max_le, fun i _ => C.empty i, fun i => ?_, ?_, ?_⟩, ?_, ?_⟩
  · rw [C.trace]
    exact C.empty i
  · rw [C.trace]
    trivial
  · rw [C.trace]
    intro n v h
    cases h
  · rw [C.trace]
    intro n m v h
    cases h
  · rw [C.trace]
    intro t₁ irq t₂ h
    simp at h

/-- **The hypervisor stops exactly when all its list registers are taken**, by as many different
interrupts that the guest is not done with.  Until then every interrupt is taken, and each one
that was taken is in a register unless the guest was done with it. -/
theorem irq_halts_iff_full {s₀ s : Ich} (C : NoInterrupt s₀) (run : DeliveryRun s₀ s) :
    (outstanding s).ncard ≤ s.gicMaxLrs ∧
    (∀ iar, (∃ e s', el1IrqProc iar s = .error e s') ↔ (outstanding s).ncard = s.gicMaxLrs) ∧
    (∀ iar e s', el1IrqProc iar s = .error e s' → e = noLr) ∧
    (∀ iar s', irqOf iar ∉ outstanding s → el1IrqProc iar s = .ok () s' →
      outstanding s' = insert (irqOf iar) (outstanding s)) ∧
    ∀ t₁ irq t₂, s.trace = t₁ ++ .eoi irq :: t₂ → ∃ t₃ n,
      t₁ = t₃ ++ [.write n (gicCreateLr irq irq)] ∧
      (.complete n ∈ t₃ ∨ lrIsInactive (s.lr n) = false ∧
        lrPayload (s.lr n) = lrPayload (gicCreateLr irq irq)) := by
  have I := C.inv.run run
  refine ⟨I.ncard_le, fun iar => ⟨?_, ?_⟩, ?_, fun iar s' hnew hrun => (I.irq hnew hrun).2, ?_⟩
  · rintro ⟨e, s', hrun⟩
    by_contra hne
    obtain ⟨t, ht⟩ := I.taken iar (lt_of_le_of_ne I.ncard_le hne)
    rw [hrun] at ht
    cases ht
  · intro hfull
    obtain ⟨s', hrun, _⟩ := I.stops iar hfull
    exact ⟨noLr, s', hrun⟩
  · intro iar e s' hrun
    exact (error_of_wp (el1IrqProc_spec I.max_le I.clear) hrun).1
  · intro t₁ irq t₂ ht
    obtain ⟨t₃, n, rfl⟩ := I.written t₁ irq t₂ ht
    refine ⟨t₃, n, rfl, ?_⟩
    by_cases hdone : .complete n ∈ t₃
    · exact Or.inl hdone
    · have hclean := I.no_overwrite
      have hagree := I.agrees n
      rw [ht, List.append_assoc, List.singleton_append] at hclean hagree
      rw [(held_of_outstanding hclean hdone).1] at hagree
      exact Or.inr hagree

/-! ## Two list registers -/

theorem twoLrs_empty : NoInterrupt twoLrs := ⟨by decide, by decide, rfl⟩

/-- After the interrupts 27 and 33, which the guest did not even take. -/
def fullLrs : Ich where
  gicMaxLrs := 2
  usedLr := 3
  lr := Function.update (Function.update twoLrs.lr 0 (gicCreateLr 27 27)) 1 (gicCreateLr 33 33)
  trace := [.write 1 (gicCreateLr 33 33), .eoi 33, .write 0 (gicCreateLr 27 27), .eoi 27]

theorem fullLrs_run : DeliveryRun twoLrs fullLrs := by
  have hfirst : el1IrqProc 27 twoLrs = .ok () { twoLrs with
      usedLr := 1
      lr := Function.update twoLrs.lr 0 (gicCreateLr 27 27)
      trace := [.write 0 (gicCreateLr 27 27), .eoi 27] } := by rfl
  have hnone : irqOf 27 ∉ outstanding twoLrs := by
    rintro ⟨n, hn⟩
    cases hn
  refine .tail (.single (.irq 27 hnone hfirst)) (.irq 33 ?_ rfl)
  rintro ⟨n, hn⟩
  simp only [held] at hn
  split at hn
  · exact absurd (gicCreateLr_inj (Option.some.inj hn)) (by decide)
  · cases hn

/-- The interrupt 34 stops the hypervisor, and is in no register. -/
theorem irq_halts_two : NoInterrupt twoLrs ∧ ∃ s', DeliveryRun twoLrs fullLrs ∧
    irqOf 34 ∉ outstanding fullLrs ∧ el1IrqProc 34 fullLrs = .error noLr s' ∧
    .eoi 34 ∈ s'.trace ∧ s'.lr = fullLrs.lr := by
  refine ⟨twoLrs_empty, _, fullLrs_run, ?_, rfl, List.mem_cons_self, rfl⟩
  rintro ⟨n, hn⟩
  have hcases : held fullLrs.trace n ≠ some (gicCreateLr 34 34) := by
    revert n
    decide
  exact hcases hn

/-- The register of interrupt 27 still holds it. -/
theorem irq_halts_iff_full_two : (outstanding fullLrs).ncard ≤ 2 ∧
    ∃ (t₃ : List IchEvent) (n : Fin 16),
      fullLrs.trace = t₃ ++ [.write n (gicCreateLr 27 27)] ++ [.eoi 27] ∧
        (.complete n ∈ t₃ ∨ lrIsInactive (fullLrs.lr n) = false ∧
          lrPayload (fullLrs.lr n) = lrPayload (gicCreateLr 27 27)) := by
  obtain ⟨hle, _, _, _, hkept⟩ := irq_halts_iff_full twoLrs_empty fullLrs_run
  obtain ⟨t₃, n, ht₃, hplace⟩ :=
    hkept [.write 1 (gicCreateLr 33 33), .eoi 33, .write 0 (gicCreateLr 27 27)] 27 [] rfl
  exact ⟨hle, t₃, n, by rw [← ht₃]; rfl, hplace⟩

end Xhyper
