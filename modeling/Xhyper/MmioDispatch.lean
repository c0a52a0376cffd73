import Xhyper.Lib.Chain
import Xhyper.Psci

/-!
# Data aborts, with any number of regions

A core that runs a guest takes a data abort at an address that is not mapped.  The first region of
the machine's list that the address is in, and that has the function for the access, serves it.
Then the guest goes on behind the instruction, whether it was served or not.

## Main definitions

* `GuestAbort` — such an abort.
* `Regions` — the records of a machine's list.
* `served` — the record that serves an access.
* `el1SyncProc_served` — what `el1_sync_proc` does.
-/

namespace Xhyper

open Memory Prog

/-! ## The syndrome -/

section syndrome
variable (esr : BitVec 64)

/-- `esr_iss`. -/
def esrIss : BitVec 64 := esr &&& 0x1ffffff#64

/-- The instruction's data is in the syndrome: the bit ISV, which no function looks at. -/
def esrIsv : Bool := decide ((esrIss esr >>> 24 &&& 0x1#64).toNat ≠ 0)

/-- The logarithm of the access' size: the field SAS. -/
def esrSas : ℕ := (esrIss esr >>> 22 &&& 0x3#64).toNat

/-- What is loaded is sign-extended: the bit SSE, which no function looks at. -/
def esrSse : Bool := decide ((esrIss esr >>> 21 &&& 0x1#64).toNat ≠ 0)

/-- The number of the register: the field SRT. -/
def esrSrt : ℕ := (esrIss esr >>> 16 &&& 0x1f#64).toNat

/-- The address is not valid: the bit FnV. -/
def esrFnv : Bool := decide ((esrIss esr >>> 10 &&& 0x1#64).toNat ≠ 0)

/-- The access is a write: the bit WnR. -/
def esrWnr : Bool := decide ((esrIss esr >>> 6 &&& 0x1#64).toNat ≠ 0)

end syndrome

/-- A core that runs `v` takes a data abort, whose register is `r`. -/
structure GuestAbort (s : Hyp) (v : Fin ncpu) (esr : BitVec 64) (r : Fin 31) : Prop where
  running : (s.cores s.ram.core).tpidrEl2 = some v
  vm_ne : (s.vcpus v).vm ≠ 0
  ec : esr >>> 26 &&& 0x3f#64 = 0x24#64
  fnv : esrFnv esr = false
  srt : esrSrt esr = r

/-! ## The list of regions -/

/-- The addresses of the records of a machine's list. -/
structure Regions (s : Hyp) (vm : ℕ) (as : List ℕ) : Prop where
  chain : Chain (fun a => (readVmmio s.ram.mem a).next) (s.vms vm).vmmios as
  pointer : (s.vms vm).vmmios < 2 ^ 64

/-- The record serves an access. -/
def VmmioInfo.Serves (info : VmmioInfo) (wnr : Bool) (ipa : ℕ) : Prop :=
  (info.base ≤ ipa ∧ ipa < (info.base + info.size) % 2 ^ 64) ∧
    (if wnr then info.vmmioWrite else info.vmmioRead) ≠ 0

instance (info : VmmioInfo) (wnr : Bool) (ipa : ℕ) : Decidable (info.Serves wnr ipa) :=
  inferInstanceAs (Decidable (_ ∧ _))

/-- The first record of a list that serves an access. -/
def served (m : Mem) (as : List ℕ) (wnr : Bool) (ipa : ℕ) : Option VmmioInfo :=
  (as.map (readVmmio m)).find? fun info => info.Serves wnr ipa

section list
variable {H : VmmioHandlers} {v : Fin ncpu} {s : Hyp} {as : List ℕ}

/-- Only pointers are on the list. -/
theorem regions_lt {m : Mem} {a : ℕ}
    (C : Chain (fun a => (readVmmio m a).next) a as) (ha : a < 2 ^ 64) : ∀ p ∈ as, p < 2 ^ 64 := by
  induction as generalizing a with
  | nil =>
      intro p hp
      exact absurd hp List.not_mem_nil
  | cons b as ih =>
      obtain ⟨rfl, _, hrest⟩ := C
      intro p hp
      rcases List.mem_cons.mp hp with rfl | hp
      · exact ha
      · exact ih hrest (read64_lt m a) p hp

/-- The loop does not run out of fuel. -/
theorem Regions.length_lt {vm : ℕ} (R : Regions s vm as) : as.length < 2 ^ 64 :=
  R.chain.length_lt (regions_lt R.chain R.pointer) (by norm_num)

variable {reg : Option (Fin 31)} {val : BitVec 64} {x : VmmioAccess}

/-- One round of the loop of `vmmio_handler`. -/
theorem vmmioLoop_step {fuel a : ℕ} (ha : a ≠ 0) :
    vmmioLoop H v reg val x (fuel + 1) a s =
      if (readVmmio s.ram.mem a).Serves x.wnr x.ipa then
        (readVmmio s.ram.mem a).call H v reg val x s
      else vmmioLoop H v reg val x fuel (readVmmio s.ram.mem a).next s := by
  have hget : ∀ x : Hyp → Exec Hyp ℤ, (do let t ← get; x t : Exec Hyp ℤ) s = x s s := fun _ => rfl
  rw [vmmioLoop, if_neg ha, hget]
  generalize readVmmio s.ram.mem a = info
  rw [VmmioInfo.call]
  by_cases hin : info.base ≤ x.ipa ∧ x.ipa < (info.base + info.size) % 2 ^ 64
  · rw [if_pos hin]
    cases x.wnr with
    | false =>
        rw [if_neg Bool.false_ne_true, if_neg Bool.false_ne_true]
        by_cases hread : info.vmmioRead ≠ 0
        · rw [if_pos hread, if_pos ⟨hin, hread⟩]
        · rw [if_neg hread, if_neg fun h => hread h.2]
    | true =>
        rw [if_pos rfl, if_pos rfl]
        by_cases hwrite : info.vmmioWrite ≠ 0
        · rw [if_pos hwrite, if_pos ⟨hin, hwrite⟩]
        · rw [if_neg hwrite, if_neg fun h => hwrite h.2]
  · rw [if_neg hin, if_neg fun h => hin h.1]

/-- **The loop of `vmmio_handler`** finds the record, by induction on the list. -/
theorem vmmioLoop_served {fuel a : ℕ} (hfuel : as.length < fuel)
    (C : Chain (fun a => (readVmmio s.ram.mem a).next) a as) :
    vmmioLoop H v reg val x fuel a s =
      match served s.ram.mem as x.wnr x.ipa with
      | some info => info.call H v reg val x s
      | none => .ok 0 s := by
  induction as generalizing fuel a with
  | nil =>
      obtain ⟨fuel, rfl⟩ := Nat.exists_eq_succ_of_ne_zero (Nat.ne_zero_of_lt hfuel)
      rw [vmmioLoop, if_pos (show a = 0 from C)]
      rfl
  | cons b as ih =>
      obtain ⟨fuel, rfl⟩ := Nat.exists_eq_succ_of_ne_zero (Nat.ne_zero_of_lt hfuel)
      obtain ⟨rfl, hne, hrest⟩ := C
      rw [vmmioLoop_step hne]
      by_cases hs : (readVmmio s.ram.mem a).Serves x.wnr x.ipa
      · have hfirst : served s.ram.mem (a :: as) x.wnr x.ipa =
            some (readVmmio s.ram.mem a) := by
          rw [served, List.map_cons]
          exact List.find?_cons_of_pos (decide_eq_true hs)
        rw [if_pos hs, hfirst]
      · have hlater : served s.ram.mem (a :: as) x.wnr x.ipa =
            served s.ram.mem as x.wnr x.ipa := by
          rw [served, List.map_cons]
          exact List.find?_cons_of_neg fun h => hs (of_decide_eq_true h)
        rw [if_neg hs, hlater]
        exact ih (Nat.lt_of_succ_lt_succ hfuel) hrest

end list

/-! ## The way of an abort through `el1_sync_proc` -/

/-- The guest goes on behind the instruction. -/
def Hyp.advance (s : Hyp) (v : Fin ncpu) : Hyp :=
  s.setVcpu v { s.vcpus v with regs := { (s.vcpus v).regs with elr := (s.vcpus v).regs.elr + 4 } }

section abort
variable {P : Platform} {H : VmmioHandlers} {s : Hyp} {v : Fin ncpu} {r : Fin 31} {as : List ℕ}
  {esr far hpfar : BitVec 64}

/-- The access that `data_abort_handler` hands on. -/
def abortAccess (esr far hpfar : BitVec 64) : VmmioAccess where
  ipa := (getFaultIpa hpfar far).toNat
  wnr := esrWnr esr
  accsize := 2 ^ esrSas esr

theorem wp_dataAbortHandler {Q : ℤ → Hyp → Prop} {E : Fault → Hyp → Prop}
    (hfnv : esrFnv esr = false) :
    wp (dataAbortHandler H v (esrIss esr) far hpfar) Q E s ↔
      wp (vmmioHandler H v (esrSrt esr) (abortAccess esr far hpfar))
        (fun rc t => Q (if rc < 0 then -1 else 0) t) E s := by
  have hvalid : ¬ (esrIss esr >>> 10 &&& 0x1#64).toNat ≠ 0 := of_decide_eq_false hfnv
  rw [dataAbortHandler, if_neg hvalid]
  simp only [wp_bind]
  have hend : ∀ (rc : ℤ) (t : Hyp), wp (if rc < 0 then pure (-1) else pure 0 : Exec Hyp ℤ) Q E t ↔
      Q (if rc < 0 then -1 else 0) t := by
    intro rc t
    split <;> rfl
  simp only [hend]
  rfl

/-- `el1_sync_proc` hands an abort to `vmmio_handler` and ignores the answer, whatever the number
of the register. -/
theorem wp_el1SyncProc_dataAbort {Q : Unit → Hyp → Prop} {E : Fault → Hyp → Prop}
    (hrunning : (s.cores s.ram.core).tpidrEl2 = some v) (hec : esr >>> 26 &&& 0x3f#64 = 0x24#64)
    (hfnv : esrFnv esr = false) :
    wp (el1SyncProc P H esr far hpfar) Q E s ↔
      wp (vmmioHandler H v (esrSrt esr) (abortAccess esr far hpfar))
        (fun _ t => Q () (t.advance v)) E s := by
  simp only [el1SyncProc, wp_bind, wp_get, hrunning]
  rw [if_neg (by rw [hec]; decide), if_neg (by rw [hec]; decide), if_neg (by rw [hec]; decide),
    if_pos hec, wp_bind]
  exact wp_dataAbortHandler hfnv

/-- What the register of an abort holds. -/
theorem vmmioVal_of_fin (V : Vcpu) (r : Fin 31) : vmmioVal V r = V.regs.x r := by
  rw [vmmioVal, vmmioReg, dif_pos r.isLt]

theorem vmmioReg_of_fin (r : Fin 31) : vmmioReg r = some r := dif_pos r.isLt

/-- `vmmio_handler` calls the function of the record that serves the access. -/
theorem vmmioHandler_eq {x : VmmioAccess} (hvm : (s.vcpus v).vm ≠ 0)
    (R : Regions s (s.vcpus v).vm as) (n : ℕ) :
    vmmioHandler H v n x s =
      match served s.ram.mem as x.wnr x.ipa with
      | some info => info.call H v (vmmioReg n) (vmmioVal (s.vcpus v) n) x s
      | none => .ok (if (s.vms (s.vcpus v).vm).vmmios = 0 then -1 else 0) s := by
  have hbody : vmmioHandler H v n x s =
      (if (s.vms (s.vcpus v).vm).vmmios = 0 then pure (-1)
      else vmmioLoop H v (vmmioReg n) (vmmioVal (s.vcpus v) n) x (2 ^ 64)
        (s.vms (s.vcpus v).vm).vmmios : Exec Hyp ℤ) s := by
    refine eq_of_wp fun Q E h => ?_
    simp only [vmmioHandler, wp_bind, wp_get, wp_derefVm hvm]
    exact h
  rw [hbody]
  by_cases hnone : (s.vms (s.vcpus v).vm).vmmios = 0
  · obtain rfl : as = [] := R.chain.eq_nil_iff.mpr hnone
    rw [if_pos hnone, if_pos hnone]
    rfl
  · rw [if_neg hnone, if_neg hnone]
    exact vmmioLoop_served R.length_lt R.chain

theorem vmmioHandler_served {x : VmmioAccess} (A : GuestAbort s v esr r)
    (R : Regions s (s.vcpus v).vm as) :
    vmmioHandler H v r x s =
      match served s.ram.mem as x.wnr x.ipa with
      | some info => info.call H v (some r) ((s.vcpus v).regs.x r) x s
      | none => .ok (if (s.vms (s.vcpus v).vm).vmmios = 0 then -1 else 0) s := by
  rw [vmmioHandler_eq A.vm_ne R, vmmioReg_of_fin, vmmioVal_of_fin]

/-- **`el1_sync_proc` serves an abort** by the first record that can, and the guest goes on behind
the instruction in any case. -/
theorem el1SyncProc_eq (hrunning : (s.cores s.ram.core).tpidrEl2 = some v)
    (hvm : (s.vcpus v).vm ≠ 0) (hec : esr >>> 26 &&& 0x3f#64 = 0x24#64) (hfnv : esrFnv esr = false)
    (R : Regions s (s.vcpus v).vm as) :
    el1SyncProc P H esr far hpfar s =
      match served s.ram.mem as (esrWnr esr) (getFaultIpa hpfar far).toNat with
      | some info =>
          (do
            let _ ← info.call H v (vmmioReg (esrSrt esr)) (vmmioVal (s.vcpus v) (esrSrt esr))
              (abortAccess esr far hpfar)
            skip v 4 : Exec Hyp Unit) s
      | none => .ok () (s.advance v) := by
  have hhandler := @vmmioHandler_eq H s v as (abortAccess esr far hpfar) hvm R (esrSrt esr)
  cases hs : served s.ram.mem as (esrWnr esr) (getFaultIpa hpfar far).toNat with
  | none =>
      have hrun : vmmioHandler H v (esrSrt esr) (abortAccess esr far hpfar) s =
          .ok (if (s.vms (s.vcpus v).vm).vmmios = 0 then -1 else 0) s :=
        hhandler.trans (by simp only [abortAccess, hs])
      refine eq_of_wp (y := set (s.advance v)) fun Q E h => ?_
      rw [wp_el1SyncProc_dataAbort hrunning hec hfnv, wp_iff_of_ok hrun]
      exact h
  | some info =>
      have hrun : vmmioHandler H v (esrSrt esr) (abortAccess esr far hpfar) s =
          info.call H v (vmmioReg (esrSrt esr)) (vmmioVal (s.vcpus v) (esrSrt esr))
            (abortAccess esr far hpfar) s :=
        hhandler.trans (by simp only [abortAccess, hs])
      refine eq_of_wp (y := (do
        let _ ← info.call H v (vmmioReg (esrSrt esr)) (vmmioVal (s.vcpus v) (esrSrt esr))
          (abortAccess esr far hpfar)
        skip v 4 : Exec Hyp Unit)) fun Q E h => ?_
      rw [wp_el1SyncProc_dataAbort hrunning hec hfnv, wp_congr hrun]
      exact (wp_bind _ _).mp h

theorem el1SyncProc_served (A : GuestAbort s v esr r) (R : Regions s (s.vcpus v).vm as) :
    el1SyncProc P H esr far hpfar s =
      match served s.ram.mem as (esrWnr esr) (getFaultIpa hpfar far).toNat with
      | some info =>
          (do
            let _ ← info.call H v (some r) ((s.vcpus v).regs.x r) (abortAccess esr far hpfar)
            skip v 4 : Exec Hyp Unit) s
      | none => .ok () (s.advance v) := by
  rw [el1SyncProc_eq A.running A.vm_ne A.ec A.fnv R, A.srt, vmmioReg_of_fin, vmmioVal_of_fin]

end abort

end Xhyper
