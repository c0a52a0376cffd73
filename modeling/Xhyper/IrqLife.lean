import Xhyper.IrqDelivery
import Xhyper.Lib.IrqLines

/-!
# The life of an interrupt

`el1_irq_proc` acknowledges an interrupt and drops its priority, but leaves it active: the word in
the list register names the physical interrupt, and it is deactivated when the guest is done with
the virtual one.  Until then the controller does not offer it again, which is why no two registers
hold one interrupt.  `el2_irq_proc` deactivates what it acknowledges itself.

Devices raise interrupts and take them back at any time.  An acknowledgement that finds nothing to
acknowledge is not a part of a run.

## Main definitions

* `gicGuestEoi`, `gicHypEoi` — the ends of an interrupt.
* `IrqCore`, `IrqCoreStep`, `IrqCoreRun` — a core with its interrupts.
* `IrqCoreInv` — the invariant.
* `irq_lives` — what holds in every run.
-/

namespace Xhyper

open Prog

/-! ## A core and its interrupts -/

/-- The states of the interrupts, by number. -/
abbrev IrqLines := Irq.Lines (BitVec 32)

/-- `gic_guest_eoi`: `ICC_EOIR1_EL1` is written, and drops the priority only. -/
def gicGuestEoi (irq : BitVec 32) (l : IrqLines) : IrqLines := l.drop irq

/-- `gic_dir`. -/
def gicDir (irq : BitVec 32) (l : IrqLines) : IrqLines := l.deactivate irq

/-- `gic_hyp_eoi`. -/
def gicHypEoi (irq : BitVec 32) (l : IrqLines) : IrqLines := gicDir irq (l.drop irq)

/-- The guest is done with the virtual interrupt in a list register: the physical one that the
register names is deactivated. -/
def lrDeactivate (lr : BitVec 64) (l : IrqLines) : IrqLines :=
  if (decodeLr lr).hw then l.deactivate ((decodeLr lr).pINTID.setWidth 32) else l

/-- What became of an interrupt. -/
inductive IrqLog
  /-- It was given to the guest. -/
  | delivered (irq : BitVec 32)
  /-- The guest was done with it. -/
  | completed (irq : BitVec 32)
  /-- The hypervisor took it for itself. -/
  | served (irq : BitVec 32)
  deriving DecidableEq

/-- The list registers of a core, the physical interrupts that are routed to it, and what became
of them, newest first. -/
structure IrqCore where
  ich : Ich
  lines : IrqLines
  log : List IrqLog

/-- One step of the devices, the core in one of its two handlers, or the guest. -/
inductive IrqCoreStep (k : IrqCore) : IrqCore → Prop
  | raise (irq : BitVec 32) : IrqCoreStep k { k with lines := k.lines.raise irq }
  | withdraw (irq : BitVec 32) : IrqCoreStep k { k with lines := k.lines.withdraw irq }
  | el1 {ich' : Ich} (iar : BitVec 32) : iar.toNat < 1020 → k.lines.Offers iar →
      el1IrqProc iar k.ich = .ok () ich' →
      IrqCoreStep k
        { ich := ich'
          lines := gicGuestEoi (irqOf iar) (k.lines.ack iar)
          log := .delivered iar :: k.log }
  | el2 (iar : BitVec 32) : iar.toNat < 1020 → k.lines.Offers iar →
      IrqCoreStep k { k with
        lines := gicHypEoi (irqOf iar) (k.lines.ack iar)
        log := .served iar :: k.log }
  | activate (n : Fin 16) (v : BitVec 64) : (decodeLr (k.ich.lr n)).state = 1 →
      (decodeLr v).state = 2 → lrPayload v = lrPayload (k.ich.lr n) →
      IrqCoreStep k { k with
        ich := { k.ich with lr := Function.update k.ich.lr n v, trace := .activate n :: k.ich.trace } }
  | complete (n : Fin 16) (v : BitVec 64) : lrIsInactive (k.ich.lr n) = false →
      lrIsInactive v = true →
      IrqCoreStep k
        { ich := { k.ich with lr := Function.update k.ich.lr n v, trace := .complete n :: k.ich.trace }
          lines := lrDeactivate (k.ich.lr n) k.lines
          log := .completed (decodeLr (k.ich.lr n)).vINTID :: k.log }

/-- Any number of steps. -/
abbrev IrqCoreRun : IrqCore → IrqCore → Prop := Relation.ReflTransGen IrqCoreStep

/-- A core that has acknowledged nothing.  Interrupts may be pending. -/
structure IrqCore.Idle (k : IrqCore) : Prop where
  ich : NoInterrupt k.ich
  active : ∀ irq, k.lines.active irq = false
  running : k.lines.running = []
  log : k.log = []

/-! ## Words in list registers -/

section words

theorem irqOf_toNat (iar : BitVec 32) : (irqOf iar).toNat = iar.toNat % 2 ^ 10 := by
  rw [BitVec.toNat_and, show (0x3ff#32).toNat = 2 ^ 10 - 1 by decide,
    Nat.and_two_pow_sub_one_eq_mod]

/-- A number that fits is taken as it is. -/
theorem irqOf_eq {iar : BitVec 32} (h : iar.toNat < 1024) : irqOf iar = iar := by
  apply BitVec.eq_of_toNat_eq
  rw [irqOf_toNat]
  exact Nat.mod_eq_of_lt h

/-- The fields other than the state are of the payload. -/
theorem decodeLr_payload {lr lr' : BitVec 64} (h : lrPayload lr = lrPayload lr') :
    (decodeLr lr).hw = (decodeLr lr').hw ∧ (decodeLr lr).pINTID = (decodeLr lr').pINTID ∧
      (decodeLr lr).vINTID = (decodeLr lr').vINTID := by
  have hbit : ∀ i < 62, lr.getLsbD i = lr'.getLsbD i := by
    intro i hi
    have hi' := congrArg (fun x : BitVec 62 => x.getLsbD i) h
    simpa [lrPayload, hi] using hi'
  refine ⟨hbit 61 (by decide), ?_, ?_⟩
  · ext i hi
    simp only [decodeLr, BitVec.getElem_extractLsb']
    exact hbit _ (by omega)
  · ext i hi
    simp only [decodeLr, BitVec.getElem_extractLsb']
    exact hbit _ (by omega)

end words

/-! ## The invariant -/

/-- The active interrupts are those in list registers, each in one; the log says so too. -/
structure IrqCoreInv (k : IrqCore) : Prop where
  delivery : DeliveryInv k.ich
  running : k.lines.running = []
  active : ∀ irq, k.lines.active irq = true ↔ irq ∈ outstanding k.ich
  small : ∀ irq ∈ outstanding k.ich, irq.toNat < 1024
  count : ∀ irq, k.log.count (.delivered irq) =
    k.log.count (.completed irq) + if k.lines.active irq then 1 else 0

namespace IrqCoreInv

variable {k k' : IrqCore}

theorem of_idle (C : k.Idle) : IrqCoreInv k := by
  have hnone : outstanding k.ich = ∅ := by
    ext irq
    constructor
    · rintro ⟨n, hn⟩
      rw [C.ich.trace] at hn
      cases hn
    · exact fun h => absurd h (Set.notMem_empty irq)
  refine ⟨C.ich.inv, C.running, fun irq => ?_, fun irq h => ?_, fun irq => ?_⟩
  · rw [C.active, hnone]
    simp
  · rw [hnone] at h
    exact absurd h (Set.notMem_empty irq)
  · rw [C.log, C.active]
    rfl

/-- A device changes nothing that is active. -/
theorem lines (I : IrqCoreInv k) {l : IrqLines} (hactive : l.active = k.lines.active)
    (hrunning : l.running = k.lines.running) : IrqCoreInv { k with lines := l } := by
  refine ⟨I.delivery, hrunning.trans I.running, fun irq => ?_, I.small, fun irq => ?_⟩
  · change l.active irq = true ↔ _
    rw [hactive]
    exact I.active irq
  · change k.log.count _ = k.log.count _ + if l.active irq then 1 else 0
    rw [hactive]
    exact I.count irq

/-- An interrupt that is offered is in no register. -/
theorem offers (I : IrqCoreInv k) {irq : BitVec 32} (h : k.lines.Offers irq) :
    irq ∉ outstanding k.ich := by
  intro hmem
  have hactive := (I.active irq).mpr hmem
  rw [h.2.1] at hactive
  cases hactive

/-- **An interrupt for the guest.** -/
theorem el1 (I : IrqCoreInv k) {iar : BitVec 32} {ich' : Ich} (hsmall : iar.toNat < 1020)
    (hoffer : k.lines.Offers iar) (hrun : el1IrqProc iar k.ich = .ok () ich') :
    IrqCoreInv
      { ich := ich'
        lines := gicGuestEoi (irqOf iar) (k.lines.ack iar)
        log := .delivered iar :: k.log } := by
  have hirq : irqOf iar = iar := irqOf_eq (by omega)
  have hnew : irqOf iar ∉ outstanding k.ich := hirq.symm ▸ I.offers hoffer
  obtain ⟨I', hout⟩ := I.delivery.irq hnew hrun
  rw [hirq] at hout
  have hlines : gicGuestEoi (irqOf iar) (k.lines.ack iar) =
      { pending := Function.update k.lines.pending iar false
        active := Function.update k.lines.active iar true
        running := k.lines.running } := by
    rw [gicGuestEoi, hirq, Irq.Lines.drop_ack]
  rw [hlines]
  refine ⟨I', I.running, fun irq => ?_, fun irq h => ?_, fun irq => ?_⟩
  · rw [hout, Set.mem_insert_iff, ← I.active irq]
    by_cases h : irq = iar
    · simp [h]
    · simp [h]
  · rw [hout] at h
    rcases h with rfl | h
    · omega
    · exact I.small irq h
  · have hold := I.count irq
    by_cases h : irq = iar
    · subst h
      rw [hoffer.2.1] at hold
      simp only [List.count_cons, Function.update_self, hold]
      simp
    · simp only [List.count_cons, Function.update_of_ne h, hold]
      simp [Ne.symm h]

/-- **An interrupt for the hypervisor** is over when the handler is. -/
theorem el2 (I : IrqCoreInv k) {iar : BitVec 32} (hsmall : iar.toNat < 1020)
    (hoffer : k.lines.Offers iar) :
    IrqCoreInv { k with
      lines := gicHypEoi (irqOf iar) (k.lines.ack iar)
      log := .served iar :: k.log } := by
  have hlines : gicHypEoi (irqOf iar) (k.lines.ack iar) = k.lines.withdraw iar := by
    rw [irqOf_eq (by omega), gicHypEoi, gicDir, Irq.Lines.deactivate_drop_ack hoffer]
  rw [hlines]
  have I' := I.lines (k.lines.withdraw_active iar) (k.lines.withdraw_running iar)
  refine ⟨I'.delivery, I'.running, I'.active, I'.small, fun irq => ?_⟩
  have hold := I'.count irq
  rw [List.count_cons, List.count_cons]
  simpa using hold

/-- The guest takes an interrupt. -/
theorem activate (I : IrqCoreInv k) {n : Fin 16} {v : BitVec 64}
    (hpending : (decodeLr (k.ich.lr n)).state = 1) (hactive : (decodeLr v).state = 2)
    (hpayload : lrPayload v = lrPayload (k.ich.lr n)) :
    IrqCoreInv { k with
      ich := { k.ich with lr := Function.update k.ich.lr n v, trace := .activate n :: k.ich.trace } } :=
  ⟨I.delivery.guest (.activate n v hpending hactive hpayload), I.running, I.active, I.small, I.count⟩

/-- What a register that is not inactive names. -/
theorem decode (I : IrqCoreInv k) {n : Fin 16} (h : lrIsInactive (k.ich.lr n) = false) :
    lrIrq k.ich n ∈ outstanding k.ich ∧ (decodeLr (k.ich.lr n)).hw = true ∧
      (decodeLr (k.ich.lr n)).pINTID.setWidth 32 = lrIrq k.ich n ∧
      (decodeLr (k.ich.lr n)).vINTID = lrIrq k.ich n := by
  have hheld := I.delivery.held_busy (n := n) h
  have hout : lrIrq k.ich n ∈ outstanding k.ich := ⟨n, hheld⟩
  have hsmall := I.small _ hout
  have hagree := I.delivery.agrees n
  rw [hheld] at hagree
  obtain ⟨hhw, hp, hv⟩ := decodeLr_payload hagree.2
  rw [decodeLr_gicCreateLr hsmall] at hhw hp hv
  refine ⟨hout, hhw, ?_, hv⟩
  rw [hp]
  apply BitVec.eq_of_toNat_eq
  rw [BitVec.toNat_setWidth, BitVec.toNat_setWidth]
  omega

/-- **The guest is done with an interrupt**, and it may be offered again. -/
theorem complete (I : IrqCoreInv k) {n : Fin 16} {v : BitVec 64}
    (hbusy : lrIsInactive (k.ich.lr n) = false) (hv : lrIsInactive v = true) :
    IrqCoreInv
      { ich := { k.ich with lr := Function.update k.ich.lr n v, trace := .complete n :: k.ich.trace }
        lines := lrDeactivate (k.ich.lr n) k.lines
        log := .completed (decodeLr (k.ich.lr n)).vINTID :: k.log } := by
  obtain ⟨hout, hhw, hp, hvirq⟩ := I.decode hbusy
  have hheld := I.delivery.held_busy (n := n) hbusy
  generalize lrIrq k.ich n = irq at *
  have hlines : lrDeactivate (k.ich.lr n) k.lines = k.lines.deactivate irq := by
    rw [lrDeactivate, if_pos hhw, hp]
  rw [hlines, hvirq]
  have houtstanding : ∀ j, j ∈ outstanding { k.ich with
      lr := Function.update k.ich.lr n v, trace := .complete n :: k.ich.trace } ↔
      j ≠ irq ∧ j ∈ outstanding k.ich := by
    intro j
    constructor
    · rintro ⟨m, hm⟩
      simp only [held] at hm
      split at hm
      · cases hm
      rename_i hne
      refine ⟨fun hj => hne ?_, m, hm⟩
      exact I.delivery.distinct n m _ hheld (hj ▸ hm)
    · rintro ⟨hne, m, hm⟩
      refine ⟨m, ?_⟩
      have hnm : n ≠ m := by
        rintro rfl
        exact hne (gicCreateLr_inj (Option.some.inj (hm.symm.trans hheld)))
      simp only [held, if_neg hnm]
      exact hm
  refine ⟨I.delivery.guest (.complete n v hbusy hv), I.running, fun j => ?_, fun j h => ?_,
    fun j => ?_⟩
  · rw [houtstanding, ← I.active j, Irq.Lines.deactivate_active]
    by_cases h : j = irq
    · simp [h]
    · simp [h]
  · exact I.small j ((houtstanding j).mp h).2
  · have hold := I.count j
    rw [Irq.Lines.deactivate_active]
    by_cases h : j = irq
    · subst h
      rw [(I.active j).mpr hout] at hold
      simp only [List.count_cons, Function.update_self]
      simp only [hold]
      simp
    · simp only [List.count_cons, Function.update_of_ne h, hold]
      simp [Ne.symm h]

/-- **One step.** -/
theorem step (I : IrqCoreInv k) (h : IrqCoreStep k k') :
    IrqCoreInv k' ∧ Relation.ReflTransGen DeliveryStep k.ich k'.ich := by
  cases h with
  | raise irq => exact ⟨I.lines (k.lines.raise_active irq) (k.lines.raise_running irq), .refl⟩
  | withdraw irq =>
      exact ⟨I.lines (k.lines.withdraw_active irq) (k.lines.withdraw_running irq), .refl⟩
  | el1 iar hsmall hoffer hrun =>
      refine ⟨I.el1 hsmall hoffer hrun, .single (.irq iar ?_ hrun)⟩
      rw [irqOf_eq (by omega)]
      exact I.offers hoffer
  | el2 iar hsmall hoffer => exact ⟨I.el2 hsmall hoffer, .refl⟩
  | activate n v hpending hactive hpayload =>
      exact ⟨I.activate hpending hactive hpayload,
        .single (.guest (.activate n v hpending hactive hpayload))⟩
  | complete n v hbusy hv => exact ⟨I.complete hbusy hv, .single (.guest (.complete n v hbusy hv))⟩

end IrqCoreInv

/-! ## Runs -/

/-- In every part of the log, back from some entry, each interrupt was completed as often as it was
delivered, or once less: the guest gets it again only after it was done with it. -/
def Alternates (log : List IrqLog) : Prop := ∀ t₁ t₂, log = t₁ ++ t₂ → ∀ irq,
  t₂.count (.completed irq) ≤ t₂.count (.delivered irq) ∧
    t₂.count (.delivered irq) ≤ t₂.count (.completed irq) + 1

section runs
variable {k₀ k k' : IrqCore}

theorem Alternates.cons {log : List IrqLog} {e : IrqLog} (h : Alternates log)
    (hnew : ∀ irq, (e :: log).count (.completed irq) ≤ (e :: log).count (.delivered irq) ∧
      (e :: log).count (.delivered irq) ≤ (e :: log).count (.completed irq) + 1) :
    Alternates (e :: log) := by
  intro t₁ t₂ ht
  cases t₁ with
  | nil =>
      rw [List.nil_append] at ht
      rw [← ht]
      exact hnew
  | cons e' t₁ => exact h t₁ t₂ (List.cons.inj ht).2

theorem IrqCoreInv.bounds (I : IrqCoreInv k) (irq : BitVec 32) :
    k.log.count (.completed irq) ≤ k.log.count (.delivered irq) ∧
      k.log.count (.delivered irq) ≤ k.log.count (.completed irq) + 1 := by
  rw [I.count irq]
  split <;> omega

/-- A step adds at most one entry to the log. -/
theorem IrqCoreStep.log (h : IrqCoreStep k k') : k'.log = k.log ∨ ∃ e, k'.log = e :: k.log := by
  cases h with
  | raise irq => exact Or.inl rfl
  | withdraw irq => exact Or.inl rfl
  | el1 iar _ _ _ => exact Or.inr ⟨_, rfl⟩
  | el2 iar _ _ => exact Or.inr ⟨_, rfl⟩
  | activate n v _ _ _ => exact Or.inl rfl
  | complete n v _ _ => exact Or.inr ⟨_, rfl⟩

/-- **Every run** keeps the invariant and the order of the log, and is one of the list registers
in which only other interrupts come. -/
theorem IrqCoreRun.inv (C : k₀.Idle) (run : IrqCoreRun k₀ k) :
    IrqCoreInv k ∧ Alternates k.log ∧ DeliveryRun k₀.ich k.ich := by
  induction run with
  | refl =>
      refine ⟨.of_idle C, fun t₁ t₂ ht irq => ?_, .refl⟩
      rw [C.log] at ht
      rw [(List.append_eq_nil_iff.mp ht.symm).2]
      exact ⟨le_rfl, Nat.zero_le _⟩
  | tail _ step ih =>
      obtain ⟨I, hlog, hrun⟩ := ih
      obtain ⟨I', hstep⟩ := I.step step
      refine ⟨I', ?_, hrun.trans hstep⟩
      rcases step.log with h | ⟨e, h⟩
      · exact h ▸ hlog
      · rw [h]
        exact hlog.cons fun irq => h ▸ I'.bounds irq

end runs

/-- **The life of an interrupt.**  In every run of a core, whatever devices, guest and hypervisor
do: what happens to the list registers is a run in which no interrupt comes that a register holds;
between the handlers no priority is left to drop; an interrupt is active exactly when some register
holds it, and then it is one register; the guest gets an interrupt again only after it was done with
it, so that it has got each one as often as it was done with it, and once more while it is active;
and taking an interrupt that is offered fails only when as many are active as the core has
registers. -/
theorem irq_lives {k₀ k : IrqCore} (C : k₀.Idle) (run : IrqCoreRun k₀ k) :
    DeliveryRun k₀.ich k.ich ∧ k.lines.running = [] ∧
    (∀ irq, k.lines.active irq = true ↔
      ∃! n, lrIsInactive (k.ich.lr n) = false ∧ lrIrq k.ich n = irq) ∧
    (∀ n, lrIsInactive (k.ich.lr n) = false → k.lines.active (lrIrq k.ich n) = true) ∧
    Alternates k.log ∧
    (∀ irq, k.log.count (.delivered irq) =
      k.log.count (.completed irq) + if k.lines.active irq then 1 else 0) ∧
    ∀ iar, (∃ e ich', el1IrqProc iar k.ich = .error e ich') ↔
      {irq | k.lines.active irq = true}.ncard = k.ich.gicMaxLrs := by
  obtain ⟨I, hlog, hrun⟩ := run.inv C
  have hactive : {irq | k.lines.active irq = true} = outstanding k.ich := by
    ext irq
    exact I.active irq
  refine ⟨hrun, I.running, fun irq => ?_, fun n hn => (I.active _).mpr (I.decode hn).1, hlog,
    I.count, fun iar => ?_⟩
  · rw [I.active irq]
    constructor
    · rintro ⟨n, hn⟩
      refine ⟨n, I.delivery.busy hn, fun m hm => ?_⟩
      have hm' := I.delivery.held_busy (n := m) hm.1
      rw [hm.2] at hm'
      exact I.delivery.distinct m n _ hm' hn
    · rintro ⟨n, ⟨hbusy, rfl⟩, _⟩
      exact (I.decode hbusy).1
  · rw [hactive]
    constructor
    · rintro ⟨e, s', herr⟩
      by_contra hne
      obtain ⟨t, ht⟩ := I.delivery.taken iar (lt_of_le_of_ne I.delivery.ncard_le hne)
      rw [herr] at ht
      cases ht
    · intro hfull
      obtain ⟨s', herr, _⟩ := I.delivery.stops iar hfull
      exact ⟨noLr, s', herr⟩

/-- Interrupt 27 is raised, given to the guest and raised again. -/
theorem irq_lives_two : ∃ k₀ k : IrqCore, IrqCoreRun k₀ k ∧ k.lines.pending 27 = true ∧
    k.log = [.delivered 27] ∧ k.lines.running = [] ∧
    (k.lines.active 27 = true ↔ ∃! n, lrIsInactive (k.ich.lr n) = false ∧ lrIrq k.ich n = 27) := by
  let k₀ : IrqCore := ⟨twoLrs, ⟨fun _ => false, fun _ => false, []⟩, []⟩
  have hidle : k₀.Idle := ⟨twoLrs_empty, fun _ => rfl, rfl, rfl⟩
  have hfirst : el1IrqProc 27 twoLrs = .ok () { twoLrs with
      usedLr := 1
      lr := Function.update twoLrs.lr 0 (gicCreateLr 27 27)
      trace := [.write 0 (gicCreateLr 27 27), .eoi 27] } := by rfl
  have hrun := (((Relation.ReflTransGen.single (IrqCoreStep.raise (k := k₀) 27)).tail
    (.el1 27 (by decide) ⟨rfl, rfl, rfl⟩ hfirst)).tail (.raise 27))
  obtain ⟨_, hrunning, hactive, _⟩ := irq_lives hidle hrun
  exact ⟨k₀, _, hrun, rfl, rfl, hrunning, hactive 27⟩

end Xhyper
