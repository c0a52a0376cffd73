import Xhyper.StaleLoads

/-!
# The register number 31

In an instruction that is trapped the register number 31 means the zero register: a store takes
zero from it, and a load into it is discarded.  There are three such instructions: loads and stores
in a region, and the write that sends an interrupt to other cores.

A store does this.  A load hands on a null pointer for the register, which the functions of the
devices write through, and the third instruction reads the array of registers past its end.

## Main definitions

* `Transfer`, `TransferTrap` — these instructions.
* `OperandKept` — the number is taken for what it means.
* `Unassigned` — a load that no device answers.
* `operand_kept_iff` — when it is.
-/

namespace Xhyper

open Memory Prog

/-! ## The instructions -/

/-- The instructions that move a register and are trapped. -/
inductive Transfer
  | load
  | store
  | sgi

/-- The register number in the syndrome of the instruction. -/
def Transfer.number (k : Transfer) (esr : BitVec 64) : ℕ :=
  match k with
  | load => esrSrt esr
  | store => esrSrt esr
  | sgi => (esrIss esr >>> 5 &&& 0x1f#64).toNat

/-- The syndrome is that of the instruction. -/
def Transfer.Decoded (k : Transfer) (esr : BitVec 64) : Prop :=
  match k with
  | load => esr >>> 26 &&& 0x3f#64 = 0x24#64 ∧ esrFnv esr = false ∧ esrWnr esr = false
  | store => esr >>> 26 &&& 0x3f#64 = 0x24#64 ∧ esrFnv esr = false ∧ esrWnr esr = true
  | sgi => esr >>> 26 &&& 0x3f#64 = 0x18#64 ∧
      esrIss esr &&& ~~~(0x1f#64 <<< 5) = vsysregIccSgi1rEl1

/-- A core that runs `v` takes a trap of the instruction. -/
structure TransferTrap (s : Hyp) (v : Fin ncpu) (esr : BitVec 64) (k : Transfer) : Prop where
  running : (s.cores s.ram.core).tpidrEl2 = some v
  vm_ne : (s.vcpus v).vm ≠ 0
  decoded : k.Decoded esr

/-- What a register number stands for. -/
def operand (V : Vcpu) (n : ℕ) : BitVec 64 := if h : n < 31 then V.regs.x ⟨n, h⟩ else 0

/-- Replace the register that a number stands for. -/
def Hyp.putX (s : Hyp) (v : Fin ncpu) (n : ℕ) (x : BitVec 64) : Hyp :=
  if h : n < 31 then s.setX v ⟨n, h⟩ x else s

/-- `ICC_SGI1R_EL1` of the core is written. -/
def Hyp.withSgi (s : Hyp) (x : BitVec 64) : Hyp :=
  let c := { s.cores s.ram.core with iccSgi1rEl1 := x }
  { s with cores := Function.update s.cores s.ram.core c }

section kept
variable (P : Platform) (hw : GicrHw) (isen : BitVec 32) (s : Hyp) (v : Fin ncpu) (as : List ℕ)
  (esr far hpfar : BitVec 64)

/-- A load changes the register of its number and `elr` only; one into the zero register goes well
where one into some other register does. -/
structure LoadKept : Prop where
  only : ∀ t, abortRun P hw isen s esr far hpfar = .ok () t →
    ∃ x, t.vcpus = ((s.advance v).putX v (esrSrt esr) x).vcpus
  discards : esrSrt esr = 31 → ∀ (r : Fin 31) rc u,
    vmmioHandler (vgicHandlers P hw isen) v r (abortAccess esr far hpfar) s = .ok rc u →
      ∃ t, abortRun P hw isen s esr far hpfar = .ok () t

/-- A store hands on what its number stands for, and changes no register but `elr`. -/
structure StoreKept : Prop where
  only : ∀ t, abortRun P hw isen s esr far hpfar = .ok () t → t.vcpus = (s.advance v).vcpus
  value : ∀ H : VmmioHandlers, el1SyncProc P H esr far hpfar s =
    match served s.ram.mem as true (getFaultIpa hpfar far).toNat with
    | some info =>
        (do
          let _ ← H.write info.vmmioWrite v ((getFaultIpa hpfar far).toNat - info.base)
            (operand (s.vcpus v) (esrSrt esr)) (abortAccess esr far hpfar)
          skip v 4 : Exec Hyp Unit) s
    | none => .ok () (s.advance v)

/-- **The number is taken for what it means.** -/
def OperandKept (k : Transfer) : Prop :=
  match k with
  | .load => LoadKept P hw isen s v esr far hpfar
  | .store => StoreKept P hw isen s v as esr far hpfar
  | .sgi => abortRun P hw isen s esr far hpfar =
      .ok () ((s.withSgi (operand (s.vcpus v) (Transfer.sgi.number esr))).advance v)

end kept

/-! ## Registers that are not known -/

/-- The registers that `vgicd_read` knows. -/
def gicdKnown (offset : ℕ) : Prop :=
  offset = 0 ∨ offset = 4 ∨ offset = 8 ∨ (0x80 ≤ offset ∧ offset ≤ 0xff) ∨
    (0x100 ≤ offset ∧ offset ≤ 0x17f) ∨ (0x400 ≤ offset ∧ offset ≤ 0x7fb) ∨
    (0x800 ≤ offset ∧ offset ≤ 0xbfb) ∨ gicdZero offset = true ∨ offset = 0xffe8

/-- No register is assigned: the frame is refused, or the register is not known. -/
def VgicDev.Unassigned (d : VgicDev) (s : Hyp) (v : Fin ncpu) (offset : ℕ) : Prop :=
  match d with
  | gicd => ¬ gicdKnown offset
  | gicr => FrameRefused s v offset ∨ ¬ gicrKnown (offset % gicrStride)

section null
variable {hw : GicrHw} {isen : BitVec 32} {s : Hyp} {v : Fin ncpu} {offset : ℕ}

/-- Nothing is written through a null pointer. -/
theorem wp_setReg_none {α : Type} {x : BitVec 64} {f : Unit → Exec Hyp α} {Q : α → Hyp → Prop} :
    wp (setReg v none x >>= f) Q (fun _ _ => True) s := by
  rw [wp_bind]
  trivial

/-- A program whose result goes through a null pointer does not return. -/
theorem wp_then_null {α β : Type} {x : Exec Hyp β} {f : β → Exec Hyp α} {Q : α → Hyp → Prop}
    (h : ∀ b u, wp (f b) Q (fun _ _ => True) u) : wp (x >>= f) Q (fun _ _ => True) s := by
  rw [wp_bind]
  exact wp_partial.mpr fun b u _ => h b u

theorem vgicdReadReg_null (h : gicdKnown offset) (a : ℕ) {Q : Bool → Hyp → Prop} :
    wp (vgicdReadReg isen v a offset none) Q (fun _ _ => True) s := by
  rw [vgicdReadReg]
  simp only [wp_ite]
  refine ⟨fun _ => wp_then_null fun _ _ => wp_setReg_none, fun h0 => ?_⟩
  refine ⟨fun _ => wp_then_null fun _ _ => wp_setReg_none, fun h4 => ?_⟩
  refine ⟨fun _ => wp_then_null fun _ _ => wp_setReg_none, fun h8 => ?_⟩
  refine ⟨fun _ => wp_then_null fun _ _ => wp_setReg_none, fun hgrp => ?_⟩
  refine ⟨fun _ => wp_then_null fun _ _ => wp_setReg_none, fun hen => ?_⟩
  refine ⟨fun _ => ?_, fun hprio => ?_⟩
  · generalize offset - 0x400 = irqNum
    exact wp_then_null fun _ _ => wp_setReg_none
  refine ⟨fun _ => ?_, fun htarget => ?_⟩
  · generalize offset - 0x800 = irqNum
    exact wp_then_null fun _ _ => wp_setReg_none
  refine ⟨fun _ => wp_setReg_none, fun hzero => ?_⟩
  refine ⟨fun _ => wp_then_null fun _ _ => wp_setReg_none, fun hpidr => ?_⟩
  refine absurd h ?_
  simp only [gicdKnown, not_or]
  exact ⟨h0, h4, h8, hgrp, hen, hprio, htarget, hzero, hpidr⟩

theorem vgicrReadReg_null {o : ℕ} (h : gicrKnown o) (entry : Option (Fin ncpu))
    {Q : ℤ → Hyp → Prop} :
    wp (vgicrReadReg hw v entry offset o none) Q (fun _ _ => True) s := by
  rw [vgicrReadReg]
  simp only [wp_ite]
  refine ⟨fun _ => wp_setReg_none, fun hzero => ?_⟩
  refine ⟨fun _ => wp_then_null fun _ _ => wp_then_null fun _ _ => wp_setReg_none, fun hword => ?_⟩
  refine ⟨fun _ => wp_then_null fun _ _ => wp_then_null fun _ _ => wp_setReg_none, fun htyper => ?_⟩
  refine ⟨fun _ => wp_then_null fun _ _ => wp_then_null fun _ _ => wp_setReg_none, fun hen => ?_⟩
  refine ⟨fun _ => wp_then_null fun _ _ => wp_then_null fun _ _ => wp_setReg_none, fun hprio => ?_⟩
  exact absurd h (not_or.mpr ⟨hzero, not_or.mpr ⟨hword, not_or.mpr ⟨htyper,
    not_or.mpr ⟨hen, hprio⟩⟩⟩⟩)

/-- An unknown register is treated alike, whatever the register of the load. -/
theorem vgicdReadReg_unknown (h : ¬ gicdKnown offset) (a : ℕ) (reg : Option (Fin 31)) :
    vgicdReadReg isen v a offset reg = pure false := by
  simp only [gicdKnown, not_or] at h
  obtain ⟨h0, h4, h8, hgrp, hen, hprio, htarget, hzero, hpidr⟩ := h
  rw [vgicdReadReg, if_neg h0, if_neg h4, if_neg h8, if_neg hgrp, if_neg hen, if_neg hprio,
    if_neg htarget, if_neg hzero, if_neg hpidr]

/-- A read that goes through the null pointer does not return. -/
theorem VgicDev.read_null {d : VgicDev} (h : ¬ d.Unassigned s v offset) {rc : ℤ} {t : Hyp} :
    d.read hw isen v offset none s ≠ .ok rc t := by
  intro hrun
  cases d with
  | gicd =>
      have hknown : gicdKnown offset := not_not.mp h
      have hwp : wp (vgicdRead isen v offset none) (fun _ _ => False) (fun _ _ => True) s := by
        rw [vgicdRead, wp_bind, wp_get, wp_bind]
        refine wp_partial.mpr fun V u _ => ?_
        rw [wp_ite]
        refine ⟨fun _ => trivial, fun _ => wp_then_null fun _ u' => ?_⟩
        rw [wp_bind]
        exact vgicdReadReg_null hknown _
      exact wp_partial.mp hwp rc t hrun
  | gicr =>
      obtain ⟨hrefused, hknown⟩ := not_or.mp h
      obtain ⟨e, u, hframe, hrest⟩ := ok_of_bind hrun
      obtain ⟨rfl, hnone⟩ := vgicrFrame_ok hframe
      cases e with
      | none => exact hrefused (hnone.mp rfl)
      | some entry =>
          have hwp := @vgicrReadReg_null hw u v offset _ (not_not.mp hknown) entry fun _ _ => False
          exact wp_partial.mp hwp rc t hrest

/-- A read that assigns nothing is the same for every register. -/
theorem VgicDev.read_unassigned {d : VgicDev} (h : d.Unassigned s v offset)
    (reg reg' : Option (Fin 31)) :
    d.read hw isen v offset reg s = d.read hw isen v offset reg' s := by
  cases d with
  | gicd =>
      have hsame : vgicdRead isen v offset reg = vgicdRead isen v offset reg' := by
        simp only [vgicdRead, vgicdReadReg_unknown h]
      exact congrFun hsame s
  | gicr =>
      cases hframe : vgicrFrame v offset s with
      | error e u => exact (bind_of_error hframe).trans (bind_of_error hframe).symm
      | ok e u =>
          refine (bind_of_ok hframe).trans (Eq.trans ?_ (bind_of_ok hframe).symm)
          obtain ⟨rfl, hnone⟩ := vgicrFrame_ok hframe
          cases e with
          | none => rfl
          | some entry =>
              have hunknown : ¬ gicrKnown (offset % gicrStride) := by
                refine h.resolve_left fun hr => ?_
                exact Option.some_ne_none _ (hnone.mpr hr)
              dsimp only
              rw [vgicrReadReg_unknown hunknown, vgicrReadReg_unknown hunknown]

end null

/-! ## The three instructions -/

/-- A load that no device answers. -/
def LoadUnassigned (P : Platform) (s : Hyp) (v : Fin ncpu) (ipa : ℕ) : Option VmmioInfo → Prop
  | none => True
  | some info => ∀ d ∈ P.readDev info.vmmioRead, d.Unassigned s v (ipa - info.base)

/-- The number is not 31, or the instruction is a store, or a load that no device answers. -/
def OperandSafe (P : Platform) (s : Hyp) (v : Fin ncpu) (as : List ℕ) (esr far hpfar : BitVec 64)
    (k : Transfer) : Prop :=
  k.number esr < 31 ∨
    match k with
    | .load => LoadUnassigned P s v (getFaultIpa hpfar far).toNat
        (served s.ram.mem as false (getFaultIpa hpfar far).toNat)
    | .store => True
    | .sgi => False

section kept
variable {P : Platform} {hw : GicrHw} {isen : BitVec 32} {s : Hyp} {v : Fin ncpu} {as : List ℕ}
  {esr far hpfar : BitVec 64}

theorem vmmioVal_eq_operand (V : Vcpu) (n : ℕ) : vmmioVal V n = operand V n := by
  rw [vmmioVal, vmmioReg, operand]
  by_cases h : n < 31
  · rw [dif_pos h, dif_pos h]
  · rw [dif_neg h, dif_neg h]

/-- A store. -/
theorem store_kept (T : TransferTrap s v esr .store) (R : Regions s (s.vcpus v).vm as) :
    StoreKept P hw isen s v as esr far hpfar := by
  obtain ⟨hec, hfnv, hwnr⟩ := T.decoded
  refine ⟨fun t hrun => abortRun_store_only T.running hec hfnv hwnr hrun, fun H => ?_⟩
  rw [el1SyncProc_eq T.running T.vm_ne hec hfnv R, hwnr]
  cases served s.ram.mem as true (getFaultIpa hpfar far).toNat with
  | none => rfl
  | some info =>
      have hcall : (abortAccess esr far hpfar).wnr = true := hwnr
      dsimp only
      rw [VmmioInfo.call, if_pos hcall, vmmioVal_eq_operand]
      rfl

/-- The number of the register has five bits. -/
theorem Transfer.number_le (k : Transfer) (esr : BitVec 64) : k.number esr ≤ 31 := by
  have hmask : ∀ x : BitVec 64, (x &&& 0x1f#64).toNat ≤ 31 := by
    intro x
    rw [BitVec.toNat_and]
    exact Nat.and_le_right
  cases k with
  | load => exact hmask _
  | store => exact hmask _
  | sgi => exact hmask _

/-- The write that sends an interrupt is handed to `vgicv3_generate_sgi`. -/
theorem wp_el1SyncProc_sgi (T : TransferTrap s v esr .sgi) {H : VmmioHandlers}
    {Q : Unit → Hyp → Prop} {E : Fault → Hyp → Prop} :
    wp (el1SyncProc P H esr far hpfar) Q E s ↔
      wp (vgicv3GenerateSgi v (Transfer.sgi.number esr)) (fun _ t => Q () (t.advance v)) E s := by
  obtain ⟨hec, hreg⟩ := T.decoded
  rw [esrIss] at hreg
  simp only [el1SyncProc, wp_bind, wp_get, T.running]
  rw [if_neg (by rw [hec]; decide), if_neg (by rw [hec]; decide), if_pos hec, wp_bind,
    vsysregHandler, if_pos hreg, wp_bind]
  rfl

/-- The value of the register is written. -/
theorem el1SyncProc_sgi (T : TransferTrap s v esr .sgi) (hn : Transfer.sgi.number esr < 31)
    (H : VmmioHandlers) : el1SyncProc P H esr far hpfar s =
      .ok () ((s.withSgi (operand (s.vcpus v) (Transfer.sgi.number esr))).advance v) := by
  refine eq_of_wp (y := set ((s.withSgi (operand (s.vcpus v) (Transfer.sgi.number esr))).advance v))
    fun Q E h => ?_
  rw [operand, dif_pos hn] at h
  rw [wp_el1SyncProc_sgi T, vgicv3GenerateSgi, dif_pos hn]
  exact h

/-- The number 31 is behind the array. -/
theorem el1SyncProc_sgi_zero (T : TransferTrap s v esr .sgi)
    (hn : ¬ Transfer.sgi.number esr < 31) (H : VmmioHandlers) (t : Hyp) :
    el1SyncProc P H esr far hpfar s ≠ .ok () t := by
  have hfault : wp (el1SyncProc P H esr far hpfar) (fun _ _ => False) (fun _ _ => True) s := by
    rw [wp_el1SyncProc_sgi T, vgicv3GenerateSgi, dif_neg hn]
    trivial
  exact fun hrun => wp_partial.mp hfault () _ hrun

/-- The write that sends an interrupt. -/
theorem sgi_kept (T : TransferTrap s v esr .sgi) :
    abortRun P hw isen s esr far hpfar =
        .ok () ((s.withSgi (operand (s.vcpus v) (Transfer.sgi.number esr))).advance v) ↔
      Transfer.sgi.number esr < 31 := by
  by_cases hn : Transfer.sgi.number esr < 31
  · exact iff_of_true (el1SyncProc_sgi T hn _) hn
  · exact iff_of_false (el1SyncProc_sgi_zero T hn _ _) hn

/-- A load changes the register of its number and `elr` only. -/
theorem load_only (T : TransferTrap s v esr .load) {t : Hyp}
    (hrun : abortRun P hw isen s esr far hpfar = .ok () t) :
    ∃ x, t.vcpus = ((s.advance v).putX v (esrSrt esr) x).vcpus := by
  obtain ⟨hec, hfnv, _⟩ := T.decoded
  by_cases hn : esrSrt esr < 31
  · have A : GuestAbort s v esr ⟨esrSrt esr, hn⟩ := ⟨T.running, T.vm_ne, hec, hfnv, rfl⟩
    obtain ⟨x, hx⟩ := (abortRun_only A hrun).1
    refine ⟨x, ?_⟩
    rw [Hyp.putX, dif_pos hn]
    exact hx
  · have hnone : vmmioReg (esrSrt esr) = none := dif_neg hn
    obtain ⟨u, hu, rfl⟩ := el1SyncProc_keeps (f := fun s => s.vcpus) T.running hec hfnv
      (fun _ a offset x => keeps_handlers_read (by simp [hnone]) (fun _ _ => rfl) a offset x)
      (fun a offset val x => keeps_handlers_write (fun _ _ _ => rfl) a offset val x) hrun
    refine ⟨0, ?_⟩
    rw [Hyp.putX, dif_neg hn]
    exact advance_vcpus hu

/-- A load that no device answers is the same for every register. -/
theorem load_discards (T : TransferTrap s v esr .load) (R : Regions s (s.vcpus v).vm as)
    (h : LoadUnassigned P s v (getFaultIpa hpfar far).toNat
      (served s.ram.mem as false (getFaultIpa hpfar far).toNat)) {r : Fin 31} {rc : ℤ} {u : Hyp}
    (hrun : vmmioHandler (vgicHandlers P hw isen) v r (abortAccess esr far hpfar) s = .ok rc u) :
    ∃ t, abortRun P hw isen s esr far hpfar = .ok () t := by
  obtain ⟨hec, hfnv, hwnr⟩ := T.decoded
  have hload : (abortAccess esr far hpfar).wnr = false := hwnr
  have hipa : (abortAccess esr far hpfar).ipa = (getFaultIpa hpfar far).toNat := rfl
  rw [vmmioHandler_eq T.vm_ne R, hload, hipa] at hrun
  rw [abortRun, el1SyncProc_eq T.running T.vm_ne hec hfnv R, hwnr]
  cases hfound : served s.ram.mem as false (getFaultIpa hpfar far).toNat with
  | none => exact ⟨_, rfl⟩
  | some info =>
      rw [hfound] at h hrun
      dsimp only at hrun ⊢
      simp only [VmmioInfo.call, hload, hipa, Bool.false_eq_true, if_false, vgicHandlers] at hrun ⊢
      cases hd : P.readDev info.vmmioRead with
      | none =>
          rw [hd] at hrun
          cases hrun
      | some d =>
          rw [hd] at hrun
          dsimp only at hrun ⊢
          rw [VgicDev.read_unassigned (h d hd) _ (vmmioReg (esrSrt esr))] at hrun
          exact ⟨_, bind_of_ok hrun⟩

/-- A load into the zero register that a device answers does not return. -/
theorem load_null (T : TransferTrap s v esr .load) (R : Regions s (s.vcpus v).vm as)
    (hn : ¬ esrSrt esr < 31)
    (h : ¬ LoadUnassigned P s v (getFaultIpa hpfar far).toNat
      (served s.ram.mem as false (getFaultIpa hpfar far).toNat)) {t : Hyp} :
    abortRun P hw isen s esr far hpfar ≠ .ok () t := by
  intro hrun
  obtain ⟨hec, hfnv, hwnr⟩ := T.decoded
  have hnone : vmmioReg (esrSrt esr) = none := dif_neg hn
  have hload : (abortAccess esr far hpfar).wnr = false := hwnr
  have hipa : (abortAccess esr far hpfar).ipa = (getFaultIpa hpfar far).toNat := rfl
  rw [abortRun, el1SyncProc_eq T.running T.vm_ne hec hfnv R, hwnr, hnone] at hrun
  cases hfound : served s.ram.mem as false (getFaultIpa hpfar far).toNat with
  | none =>
      rw [hfound] at h
      exact h trivial
  | some info =>
      rw [hfound] at h hrun
      simp only [LoadUnassigned, not_forall] at h
      obtain ⟨d, hd, hassigned⟩ := h
      rw [Option.mem_def] at hd
      dsimp only at hrun
      obtain ⟨rc, u, hcall, _⟩ := ok_of_bind hrun
      simp only [VmmioInfo.call, hload, hipa, Bool.false_eq_true, if_false, vgicHandlers, hd] at hcall
      exact VgicDev.read_null hassigned hcall

theorem load_kept (T : TransferTrap s v esr .load) (R : Regions s (s.vcpus v).vm as)
    (h : OperandSafe P s v as esr far hpfar .load) : LoadKept P hw isen s v esr far hpfar := by
  refine ⟨fun t hrun => load_only T hrun, fun hzero r rc u hrun => ?_⟩
  have hnot : ¬ Transfer.load.number esr < 31 := by
    rw [Transfer.number, hzero]
    exact Nat.lt_irrefl 31
  exact load_discards T R (h.resolve_left hnot) hrun

/-- **The register number is taken for what it means** if it is not 31, and for 31 in stores and in
loads that no device answers.  Otherwise it is not, if the instruction goes well with another
register. -/
theorem operand_kept_iff {k : Transfer} (T : TransferTrap s v esr k)
    (R : Regions s (s.vcpus v).vm as) :
    (OperandSafe P s v as esr far hpfar k → OperandKept P hw isen s v as esr far hpfar k) ∧
    ((k = .load → ∃ (r : Fin 31) (rc : ℤ) (u : Hyp),
        vmmioHandler (vgicHandlers P hw isen) v r (abortAccess esr far hpfar) s = .ok rc u) →
      (OperandKept P hw isen s v as esr far hpfar k ↔ OperandSafe P s v as esr far hpfar k)) := by
  cases k with
  | store =>
      have hsafe : OperandSafe P s v as esr far hpfar .store := Or.inr trivial
      exact ⟨fun _ => store_kept T R, fun _ => iff_of_true (store_kept T R) hsafe⟩
  | sgi =>
      have hsafe : OperandSafe P s v as esr far hpfar .sgi ↔ Transfer.sgi.number esr < 31 :=
        or_iff_left id
      exact ⟨fun h => (sgi_kept T).mpr (hsafe.mp h), fun _ => (sgi_kept T).trans hsafe.symm⟩
  | load =>
      refine ⟨load_kept T R, fun hreturns => ⟨fun H => ?_, load_kept T R⟩⟩
      by_contra hunsafe
      obtain ⟨hn, hassigned⟩ := not_or.mp hunsafe
      obtain ⟨r, rc, u, hrun⟩ := hreturns rfl
      have hzero : esrSrt esr = 31 :=
        Nat.le_antisymm (Transfer.load.number_le esr) (Nat.le_of_not_lt hn)
      obtain ⟨t, ht⟩ := H.discards hzero r rc u hrun
      exact load_null T R hn hassigned ht

end kept

/-! ## On a machine with a distributor -/

theorem gicdGuest_trap {k : Transfer} {esr : BitVec 64} (h : k.Decoded esr) :
    TransferTrap (gicdGuest 0) 0 esr k := ⟨rfl, show 0x1000 ≠ 0 by decide, h⟩

/-- A load from `GICD_CTLR` into the zero register stops the hypervisor. -/
theorem load_zero_lost : ¬ OperandKept obedient (fun _ _ => 0) 0 (gicdGuest 0) 0 [0x8000]
    0x939f0000 0 0x80000 .load := by
  intro H
  have T : TransferTrap (gicdGuest 0) 0 0x939f0000 .load :=
    gicdGuest_trap ⟨by decide, by decide, by decide⟩
  have hipa : (getFaultIpa 0x80000 0).toNat = gicdBase + 0 := by decide
  have hserved := @gicdGuest_served 0 0 false (by decide)
  have hdev : obedient.readDev gicdInfo.vmmioRead = some .gicd := rfl
  have hload : (abortAccess 0x939f0000 0 0x80000).wnr = false := by decide
  have haddr : (abortAccess 0x939f0000 0 0x80000).ipa = gicdBase + 0 := hipa
  obtain ⟨rc, u, hread, _⟩ := @VgicDev.load_runs .gicd (gicdGuest 0) 0 0 (fun _ _ => 0) 0 0
    gicdGuest_free (by simp [VgicDev.ReadSlip])
  have hrun : vmmioHandler (vgicHandlers obedient (fun _ _ => 0) 0) 0 (0 : Fin 31)
      (abortAccess 0x939f0000 0 0x80000) (gicdGuest 0) = .ok rc u := by
    rw [vmmioHandler_eq T.vm_ne gicdGuest_regions, hload, haddr, hserved]
    simp only [VmmioInfo.call, hload, Bool.false_eq_true, if_false, vgicHandlers, hdev]
    exact hread
  obtain ⟨t, ht⟩ := H.discards (by decide) 0 rc u hrun
  refine load_null T gicdGuest_regions (by decide) ?_ ht
  rw [hipa, hserved]
  exact fun h => h .gicd hdev (Or.inl rfl)

/-- The write of `ICC_SGI1R_EL1` from the zero register reads past the array. -/
theorem sgi_zero_lost : ¬ OperandKept obedient (fun _ _ => 0) 0 (gicdGuest 0) 0 [0x8000]
    0x623a33f6 0 0 .sgi := by
  intro H
  have T : TransferTrap (gicdGuest 0) 0 0x623a33f6 .sgi :=
    gicdGuest_trap ⟨by decide, by decide⟩
  exact absurd ((sgi_kept T).mp H) (by decide)

/-- The two instructions for which the number 31 is not the zero register. -/
theorem operand_lost : ¬ OperandKept obedient (fun _ _ => 0) 0 (gicdGuest 0) 0 [0x8000]
      0x939f0000 0 0x80000 .load ∧
    ¬ OperandKept obedient (fun _ _ => 0) 0 (gicdGuest 0) 0 [0x8000] 0x623a33f6 0 0 .sgi :=
  ⟨load_zero_lost, sgi_zero_lost⟩

/-- A store of the zero register to `GICD_CTLR`. -/
theorem operand_kept_store : OperandKept obedient (fun _ _ => 0) 0 (gicdGuest 0) 0 [0x8000]
    0x939f0040 0 0x80000 .store := by
  have T : TransferTrap (gicdGuest 0) 0 0x939f0040 .store :=
    gicdGuest_trap ⟨by decide, by decide, by decide⟩
  exact (operand_kept_iff T gicdGuest_regions).1 (Or.inr trivial)

end Xhyper
