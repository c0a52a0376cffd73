import Xhyper.HypRun
import Xhyper.LockBalance
import Xhyper.MmioAccess

/-!
# What a trap of a guest can change

`el1_sync_proc` answers calls, writes to a system register and data aborts.  Whatever the syndrome
says, the machines' records, the page allocator, the heap's lists and what each core runs are the
same when it returns; a virtual CPU keeps its machine, and a call can make one ready that was in
use before.  Calls and writes to a system register change no memory, and a data abort the bytes
that its access names.

## Main definitions

* `Trapped` — the states before and after.
* `el1SyncProc_trapped` — every trap that returns.
* `abortStores` — the bytes of an abort's access.
* `AbortReady.mem` — that it changes no others.
-/

namespace Xhyper

open Memory Prog

/-- **What a trap leaves alone.** -/
structure Trapped (s s' : Hyp) : Prop where
  core : s'.ram.core = s.ram.core
  pages : s'.ram.pages = s.ram.pages
  vms : s'.vms = s.vms
  sysBlk : s'.sysBlk = s.sysBlk
  tpidr : ∀ c, (s'.cores c).tpidrEl2 = (s.cores c).tpidrEl2
  vttbr : ∀ c, (s'.cores c).vttbrEl2 = (s.cores c).vttbrEl2
  vm : ∀ i, (s'.vcpus i).vm = (s.vcpus i).vm
  used : ∀ i, (s'.vcpus i).state = .unused ↔ (s.vcpus i).state = .unused

/-- The parts of the state that are the same, with the states of the virtual CPUs. -/
def Hyp.untrapped (s : Hyp) : ℕ × Pages × (ℕ → Vm) × BlkPool × (ℕ → Option (Fin ncpu) × ℕ) ×
    (Fin ncpu → ℕ × VcpuState) :=
  (s.ram.core, s.ram.pages, s.vms, s.sysBlk,
    fun c => ((s.cores c).tpidrEl2, (s.cores c).vttbrEl2),
    fun i => ((s.vcpus i).vm, (s.vcpus i).state))

namespace Trapped

variable {s s' s'' : Hyp}

theorem trans (h : Trapped s s') (h' : Trapped s' s'') : Trapped s s'' where
  core := h'.core.trans h.core
  pages := h'.pages.trans h.pages
  vms := h'.vms.trans h.vms
  sysBlk := h'.sysBlk.trans h.sysBlk
  tpidr c := (h'.tpidr c).trans (h.tpidr c)
  vttbr c := (h'.vttbr c).trans (h.vttbr c)
  vm i := (h'.vm i).trans (h.vm i)
  used i := (h'.used i).trans (h.used i)

theorem of_untrapped (h : s'.untrapped = s.untrapped) : Trapped s s' := by
  simp only [Hyp.untrapped, Prod.mk.injEq] at h
  obtain ⟨hcore, hpages, hvms, hpool, hctrl, hvcpu⟩ := h
  have hc := fun c => congrFun hctrl c
  have hi := fun i => congrFun hvcpu i
  simp only [Prod.mk.injEq] at hc hi
  exact ⟨hcore, hpages, hvms, hpool, fun c => (hc c).1, fun c => (hc c).2, fun i => (hi i).1,
    fun i => by rw [(hi i).2]⟩

/-- Turning a virtual CPU on that is in use. -/
theorem cpuOn {P : Platform} {i : Fin ncpu} {targetCpu entryAddr : BitVec 64}
    (hused : (s.vcpus i).state ≠ .unused) : Trapped s (s.cpuOn P i targetCpu entryAddr) where
  core := rfl
  pages := rfl
  vms := rfl
  sysBlk := rfl
  tpidr _ := rfl
  vttbr _ := rfl
  vm j := by
    rw [cpuOn_vcpus]
    by_cases hj : j = i
    · rw [hj, Function.update_self]
      rfl
    · rw [Function.update_of_ne hj]
  used j := by
    rw [cpuOn_vcpus]
    by_cases hj : j = i
    · subst hj
      rw [Function.update_self]
      exact ⟨fun h => (by cases h), fun h => absurd h hused⟩
    · rw [Function.update_of_ne hj]

end Trapped

/-! ## Registers of a virtual CPU -/

section registers
variable (v : Fin ncpu)

/-- Registers are not among these parts. -/
theorem untrapped_setVcpu {s : Hyp} {t : Vcpu} (hvm : t.vm = (s.vcpus v).vm)
    (hstate : t.state = (s.vcpus v).state) : (s.setVcpu v t).untrapped = s.untrapped := by
  have hvcpu : (fun i => (((s.setVcpu v t).vcpus i).vm, ((s.setVcpu v t).vcpus i).state)) =
      fun i => ((s.vcpus i).vm, (s.vcpus i).state) := by
    funext i
    simp only [Hyp.setVcpu]
    by_cases hi : i = v
    · rw [hi, Function.update_self, hvm, hstate]
    · rw [Function.update_of_ne hi]
  simp only [Hyp.untrapped, hvcpu]
  rfl

theorem untrapped_setX (s : Hyp) (r : Fin 31) (x : BitVec 64) :
    (s.setX v r x).untrapped = s.untrapped :=
  untrapped_setVcpu v rfl rfl

end registers

/-! ## Calls and the system register -/

/-- Parts that neither a call, `CPU_ON` apart, nor a write to `ICC_SGI1R_EL1` changes. -/
structure Uncalled {ρ : Type} (v : Fin ncpu) (f : Hyp → ρ) : Prop where
  regs : ∀ (s : Hyp) (regs : Regs), f (s.setVcpu v { s.vcpus v with regs := regs }) = f s
  smcs : ∀ (s : Hyp) (xs : List Smc), f { s with smcs := xs } = f s
  sgi : ∀ (s : Hyp) (r : BitVec 64), f { s with
    cores := Function.update s.cores s.ram.core
      { s.cores s.ram.core with iccSgi1rEl1 := r } } = f s

theorem uncalled_untrapped (v : Fin ncpu) : Uncalled v Hyp.untrapped where
  regs _ _ := untrapped_setVcpu v rfl rfl
  smcs _ _ := rfl
  sgi s r := by
    simp only [Hyp.untrapped, Prod.mk.injEq, true_and, and_true]
    funext c
    by_cases hc : c = s.ram.core
    · rw [hc, Function.update_self]
    · rw [Function.update_of_ne hc]

theorem uncalled_mem (v : Fin ncpu) : Uncalled v fun s => s.ram.mem :=
  ⟨fun _ _ => rfl, fun _ _ => rfl, fun _ _ => rfl⟩

namespace Uncalled

variable {ρ : Type} {f : Hyp → ρ} {P : Platform} {v : Fin ncpu} (U : Uncalled v f)
include U

theorem skip (n : BitVec 64) : Keeps f (skip v n) := .modify fun s => U.regs s _

theorem modifyX (i : Fin 31) (r : BitVec 64) : Keeps f (modifyX v i r) :=
  .modify fun s => U.regs s _

theorem smcCall (funid targetCpu entryAddr : BitVec 64) :
    Keeps f (smcCall P funid targetCpu entryAddr) := fun s => U.smcs s _

/-- A write to `ICC_SGI1R_EL1`. -/
theorem vsysregHandler (iss : BitVec 64) : Keeps f (vsysregHandler v iss) := by
  refine .ite (Keeps.bind ?_ fun _ => .pure _) (.pure _)
  unfold vgicv3GenerateSgi
  split
  case isFalse => exact .throw _
  case isTrue => exact .bind .get fun s => Keeps.bind (.modify fun s => U.sgi s _) fun _ => .pure _

/-- Any call but `CPU_ON`. -/
theorem vpsciTrapSmc {funid : BitVec 64} (hon : funid ≠ psciSystemCpuon)
    (targetCpu entryAddr : BitVec 64) : Keeps f (vpsciTrapSmc P v funid targetCpu entryAddr) := by
  unfold Xhyper.vpsciTrapSmc
  refine .ite ?_ (.ite ?_ (.ite (.pure _) (.ite (.pure _) ?_)))
  · exact ((U.smcCall _ _ _).bind fun _ => .pure _).bind fun _ => .pure _
  · exact ((U.smcCall _ _ _).bind fun _ => .pure _).bind fun _ => .pure _
  · rw [if_neg hon]
    exact .ite (.pure _) (.ite (.pure _) (.throw _))

end Uncalled

/-! ## The kinds of traps -/

section traps
variable {P : Platform} {v : Fin ncpu} {hw : GicrHw} {isen : BitVec 32}

/-- A data abort. -/
theorem keeps_dataAbortHandler (iss far hpfar : BitVec 64) :
    Keeps Hyp.untrapped (dataAbortHandler (vgicHandlers P hw isen) v iss far hpfar) := by
  refine .ite (.throw _) (Keeps.bind ?_ fun _ => .ite (.pure _) (.pure _))
  refine .bind .get fun s => (keeps_derefVm _).bind fun V => .ite (.pure _) ?_
  refine keeps_vmmioLoop (fun _ a offset => ?_) (fun a offset => ?_) _ _
  · exact keeps_handlers_read (fun r _ s x => untrapped_setX v s r x) (fun _ _ => rfl) a offset _
  · exact keeps_handlers_write (fun _ _ _ => rfl) a offset _ _

/-- A call to the firmware: it makes a virtual CPU ready, or changes none. -/
theorem vpsciTrapSmc_ends {s : Hyp} (funid targetCpu entryAddr : BitVec 64) :
    wp (vpsciTrapSmc P v funid targetCpu entryAddr) (fun _ s' => s'.untrapped = s.untrapped ∨
      ∃ i, Targets s v targetCpu i ∧ s' = s.cpuOn P i targetCpu entryAddr) (fun _ _ => True) s := by
  by_cases hon : funid = psciSystemCpuon
  · subst hon
    exact wp_vpsciTrapSmc_cpuon (fun i hi => Or.inr ⟨i, hi, rfl⟩) fun _ _ => trivial
  · have hkeep := (uncalled_untrapped v).vpsciTrapSmc (P := P) hon targetCpu entryAddr
    exact wp_mono (hkeep s) (fun _ _ h => Or.inl h) fun _ _ _ => trivial

/-- A call of a virtual CPU in use. -/
theorem hvcSmcHandler_trapped {start : ℕ} {s : Hyp} (S : Slots start s)
    (hused : (s.vcpus v).state ≠ .unused) (imm : BitVec 64) :
    wp (hvcSmcHandler P v imm) (fun _ s' => Trapped s s') (fun _ _ => True) s := by
  rw [hvcSmcHandler]
  split
  case isFalse => exact .of_untrapped rfl
  case isTrue =>
    simp only [vpsciHandler, wp_bind, wp_get]
    refine wp_mono (vpsciTrapSmc_ends _ _ _) (fun r s' h => ?_) fun _ _ _ => trivial
    have hcall : Trapped s s' := by
      rcases h with h | ⟨i, hi, rfl⟩
      · exact .of_untrapped h
      · obtain ⟨_, _, _, _, _, hon⟩ := S.target hused hi
        exact .cpuOn hon
    exact wp_mono ((uncalled_untrapped v).modifyX 0 r s') (fun _ _ h => hcall.trans (.of_untrapped h))
      fun _ _ _ => trivial

end traps

/-- **Every trap of a virtual CPU in use**, whatever its syndrome says. -/
theorem el1SyncProc_trapped {P : Platform} {hw : GicrHw} {isen : BitVec 32} {start : ℕ} {s : Hyp}
    {v : Fin ncpu} (S : Slots start s) (hrunning : (s.cores s.ram.core).tpidrEl2 = some v)
    (hused : (s.vcpus v).state ≠ .unused) (esr far hpfar : BitVec 64) :
    wp (el1SyncProc P (vgicHandlers P hw isen) esr far hpfar) (fun _ s' => Trapped s s')
      (fun _ _ => True) s := by
  have hskip : ∀ (n : BitVec 64) {t : Hyp}, Trapped s t →
      wp (skip v n) (fun _ s' => Trapped s s') (fun _ _ => True) t := fun n t ht =>
    wp_mono ((uncalled_untrapped v).skip n t) (fun _ _ h => ht.trans (.of_untrapped h)) fun _ _ _ => trivial
  have hkeep : ∀ {α : Type} {x : Exec Hyp α}, Keeps Hyp.untrapped x →
      wp x (fun _ s' => Trapped s s') (fun _ _ => True) s := fun hx =>
    wp_mono (hx s) (fun _ _ h => .of_untrapped h) fun _ _ _ => trivial
  simp only [el1SyncProc, wp_bind, wp_get, hrunning]
  split
  · rw [wp_bind]
    refine wp_mono (hvcSmcHandler_trapped S hused _) (fun r t ht => ?_) fun _ _ h => h
    split
    · trivial
    · exact hskip _ ht
  split
  · rw [wp_bind]
    refine wp_mono (hvcSmcHandler_trapped S hused _) (fun r t ht => ?_) fun _ _ h => h
    split
    · trivial
    · exact hskip _ ht
  split
  · rw [wp_bind]
    refine wp_mono (hkeep ((uncalled_untrapped v).vsysregHandler _)) (fun r t ht => ?_) fun _ _ h => h
    split
    · trivial
    · exact hskip _ ht
  split
  · rw [wp_bind]
    exact wp_mono (hkeep (keeps_dataAbortHandler _ _ _)) (fun r t ht => hskip _ ht) fun _ _ h => h
  · trivial

/-! ## What a trap does to memory -/

/-- A call changes none. -/
theorem keeps_mem_hvcSmcHandler {P : Platform} {v : Fin ncpu} (imm : BitVec 64) :
    Keeps (fun s => s.ram.mem) (hvcSmcHandler P v imm) := by
  have hcall : ∀ funid targetCpu entryAddr,
      Keeps (fun s => s.ram.mem) (vpsciTrapSmc P v funid targetCpu entryAddr) := by
    intro funid targetCpu entryAddr
    by_cases hon : funid = psciSystemCpuon
    · subst hon
      exact fun s => wp_vpsciTrapSmc_cpuon (fun _ _ => rfl) fun _ _ => rfl
    · exact (uncalled_mem v).vpsciTrapSmc hon targetCpu entryAddr
  refine .ite (Keeps.bind ?_ fun _ => .pure _) (.pure _)
  exact .bind .get fun s => (hcall _ _ _).bind fun r => (uncalled_mem v).modifyX 0 r

/-- **A trap that is no data abort** changes none. -/
theorem keeps_mem_el1SyncProc {P : Platform} {H : VmmioHandlers} {esr : BitVec 64}
    (hec : esr >>> 26 &&& 0x3f#64 ≠ 0x24#64) (far hpfar : BitVec 64) :
    Keeps (fun s => s.ram.mem) (el1SyncProc P H esr far hpfar) := by
  refine .bind .get fun s => .bind .get fun t => ?_
  cases (s.cores t.ram.core).tpidrEl2 with
  | none => exact .throw _
  | some v =>
      have hskip := fun n => (uncalled_mem v).skip n
      refine .ite ((keeps_mem_hvcSmcHandler _).bind fun _ => .ite (.throw _) (hskip _)) ?_
      refine .ite ((keeps_mem_hvcSmcHandler _).bind fun _ => .ite (.throw _) (hskip _)) ?_
      refine .ite (((uncalled_mem v).vsysregHandler _).bind fun _ => .ite (.throw _) (hskip _)) ?_
      rw [if_neg hec]
      exact .throw _

namespace VgicDev

variable (d : VgicDev) (s : Hyp) (v : Fin ncpu) (offset : ℕ) (val : BitVec 64)

/-- The loop that the code goes over at an offset of the region. -/
def regLoop : Option RegLoop :=
  match d with
  | gicd => gicdLoop offset val
  | gicr => gicrLoop offset val

/-- The bytes that a write sets in records. -/
def recordStores : Set ℕ :=
  {x | ∃ L ∈ d.regLoop offset val, ∃ i < L.n, L.sel i = true ∧
    x = L.addr (d.cpu s v offset) s i}

/-- A write can be made: the device is ready, and no byte that is set in a record is one of the
distributor's own. -/
structure Writable : Prop where
  ready : d.Ready s v offset
  apart : Disjoint (d.recordStores s v offset val) (block (s.dist v) sizeofVgicDist)

variable {d s v offset val} {t : Hyp} {rc : ℤ}

/-- A write changes these bytes, and to the distributor its own. -/
theorem Writable.mem (W : d.Writable s v offset val) (hrun : d.write v offset val s = .ok rc t)
    {x : ℕ} (hx : x ∉ d.recordStores s v offset val)
    (hown : d = .gicd → x ∉ block (s.dist v) sizeofVgicDist) : t.ram.mem x = s.ram.mem x := by
  cases d with
  | gicd =>
      have F : VgicFree s v := W.ready
      have hplaces := distPlace_of_ne F.vm_ne F.dist_ne
      have heffect := ok_of_wp (vgicdWrite_effect v offset val F.core (fun _ => F.lock_free)
        fun _ => W.apart) (bind_of_ok hrun)
      refine heffect.mem x hx fun a ha => ?_
      have ha' : LockPlace.dist a ∈ LockOp.distPlace s v := ha
      rw [hplaces, List.mem_singleton] at ha'
      cases ha'
      exact hown rfl
  | gicr =>
      have F : FrameReady s v offset := W.ready
      have hframe := F.write_eq.symm.trans hrun
      cases hL : gicrLoop offset val with
      | none =>
          obtain ⟨_, hnone⟩ := vgicrWriteReg_plain hL s (some (s.frameVcpu v offset))
          cases hnone.symm.trans hframe
          rfl
      | some L =>
          have hstores : ∀ i < L.n, L.sel i = true → L.addr (s.frameVcpu v offset) s i ∈
              gicr.recordStores s v offset val := fun i hi hsel => ⟨L, hL, i, hi, hsel, rfl⟩
          have hvm : (s.vcpus (s.frameVcpu v offset)).vm ≠ 0 := F.same_vm ▸ F.vm_ne
          have hptr : L.KeepsPtr (s.frameVcpu v offset) s := by
            refine (RegLoop.keepsDist_of_out fun i hi hsel => ?_).keepsPtr
            rw [F.dist_eq]
            exact Set.disjoint_left.mp W.apart (hstores i hi hsel)
          have hloop := vgicrWriteReg_loop hvm (F.dist_eq ▸ F.dist_ne) hL hptr
          cases hloop.symm.trans hframe
          rw [RegLoop.after_mem]
          refine scatter_of_notMem fun i hi hsel heq => hx ?_
          rw [heq]
          exact hstores i hi hsel

/-- A read of the distributor changes its own bytes at most, one of a redistributor none. -/
theorem read_mem {hw : GicrHw} {isen : BitVec 32} {reg : Option (Fin 31)}
    (hrun : d.read hw isen v offset reg s = .ok rc t) {x : ℕ}
    (hown : d = .gicd → x ∉ block (s.dist v) sizeofVgicDist) : t.ram.mem x = s.ram.mem x := by
  cases d with
  | gicd =>
      have heffect := ok_of_wp (vgicdRead_effect isen v offset reg) (bind_of_ok hrun)
      refine heffect.mem x (Set.notMem_empty x) fun a ha => ?_
      have ha' : LockPlace.dist a ∈ LockOp.distPlace s v := ha
      rw [LockOp.distPlace] at ha'
      split at ha'
      · exact absurd ha' List.not_mem_nil
      · cases List.mem_singleton.mp ha'
        exact hown rfl
  | gicr =>
      have hkeep : Keeps (fun s => s.ram.mem) (vgicrRead hw v offset reg) :=
        keeps_vgicrRead (fun _ _ _ _ => rfl) hw offset
      exact congrFun (hkeep.of_ok hrun) x

end VgicDev

/-! ## Data aborts -/

section abort
variable (P : Platform) (s : Hyp) (v : Fin ncpu) (as : List ℕ) (esr far hpfar : BitVec 64)

/-- The record of the list that serves an abort. -/
def abortServed : Option VmmioInfo :=
  served s.ram.mem as (esrWnr esr) (getFaultIpa hpfar far).toNat

/-- The device that an abort goes to, with the offset in its region. -/
def AbortAt (d : VgicDev) (offset : ℕ) : Prop :=
  ∃ info ∈ abortServed s as esr far hpfar, offset = (getFaultIpa hpfar far).toNat - info.base ∧
    (if esrWnr esr then P.writeDev info.vmmioWrite else P.readDev info.vmmioRead) = some d

/-- **The bytes that an abort can change**: at the distributor its own, and those that a store sets
in records. -/
def abortStores : Set ℕ :=
  {x | ∃ d offset, AbortAt P s as esr far hpfar d offset ∧
    (d = .gicd ∧ x ∈ block (s.dist v) sizeofVgicDist ∨
      esrWnr esr = true ∧ x ∈ d.recordStores s v offset (vmmioVal (s.vcpus v) (esrSrt esr)))}

/-- **An abort of `v` that can be served**: its store can be made, if it is one. -/
structure AbortReady : Prop where
  running : (s.cores s.ram.core).tpidrEl2 = some v
  vm_ne : (s.vcpus v).vm ≠ 0
  ec : esr >>> 26 &&& 0x3f#64 = 0x24#64
  regions : Regions s (s.vcpus v).vm as
  writable : esrWnr esr = true → ∀ d offset, AbortAt P s as esr far hpfar d offset →
    d.Writable s v offset (vmmioVal (s.vcpus v) (esrSrt esr))

variable {P s v as esr far hpfar} {hw : GicrHw} {isen : BitVec 32} {t : Hyp}

/-- A load changes none, where the distributor does not serve it. -/
theorem abortStores_of_load (hwnr : esrWnr esr = false)
    (hdev : ∀ offset, ¬ AbortAt P s as esr far hpfar .gicd offset) :
    abortStores P s v as esr far hpfar = ∅ := by
  refine Set.eq_empty_iff_forall_notMem.mpr ?_
  rintro x ⟨d, offset, hat, ⟨rfl, _⟩ | ⟨hstore, _⟩⟩
  · exact hdev offset hat
  · rw [hwnr] at hstore
    cases hstore

/-- An abort without a valid address stops the core. -/
theorem AbortReady.fnv (A : AbortReady P s v as esr far hpfar)
    (hrun : abortRun P hw isen s esr far hpfar = .ok () t) : esrFnv esr = false := by
  by_contra hfnv
  have hset : (esrIss esr >>> 10 &&& 0x1#64).toNat ≠ 0 :=
    of_decide_eq_true (Bool.eq_true_of_not_eq_false hfnv)
  have hstop : wp (el1SyncProc P (vgicHandlers P hw isen) esr far hpfar) (fun _ _ => False)
      (fun _ _ => True) s := by
    simp only [el1SyncProc, wp_bind, wp_get, A.running]
    rw [if_neg (by rw [A.ec]; decide), if_neg (by rw [A.ec]; decide),
      if_neg (by rw [A.ec]; decide), if_pos A.ec, wp_bind, dataAbortHandler]
    rw [esrIss] at hset
    simp only [if_pos hset]
    trivial
  exact wp_partial.mp hstop () t hrun

/-- **A data abort** changes the bytes that its access sets, and no others. -/
theorem AbortReady.mem (A : AbortReady P s v as esr far hpfar)
    (hrun : abortRun P hw isen s esr far hpfar = .ok () t) {x : ℕ}
    (hx : x ∉ abortStores P s v as esr far hpfar) : t.ram.mem x = s.ram.mem x := by
  have heq := @el1SyncProc_eq P (vgicHandlers P hw isen) s v as esr far hpfar A.running A.vm_ne A.ec
    (A.fnv hrun) A.regions
  have hrun' := heq.symm.trans hrun
  cases hserved : served s.ram.mem as (esrWnr esr) (getFaultIpa hpfar far).toNat with
  | none =>
      rw [hserved] at hrun'
      cases hrun'
      rfl
  | some info =>
      rw [hserved] at hrun'
      obtain ⟨rc, u, hcall, hskip⟩ := ok_of_bind hrun'
      have hmem : t.ram.mem = u.ram.mem := ((uncalled_mem v).skip 4).of_ok hskip
      rw [hmem]
      rw [VmmioInfo.call] at hcall
      split at hcall
      case isTrue hwnr =>
        have hwnr' : esrWnr esr = true := hwnr
        simp only [vgicHandlers] at hcall
        cases hd : P.writeDev info.vmmioWrite with
        | none =>
            rw [hd] at hcall
            cases hcall
        | some d =>
            rw [hd] at hcall
            have hat : AbortAt P s as esr far hpfar d
                ((getFaultIpa hpfar far).toNat - info.base) :=
              ⟨info, hserved, rfl, by rw [if_pos hwnr', hd]⟩
            exact (A.writable hwnr' _ _ hat).mem hcall
              (fun h => hx ⟨_, _, hat, .inr ⟨hwnr', h⟩⟩) fun hdev h => hx ⟨_, _, hat, .inl ⟨hdev, h⟩⟩
      case isFalse hwnr =>
        have hwnr' : ¬ esrWnr esr = true := hwnr
        simp only [vgicHandlers] at hcall
        cases hd : P.readDev info.vmmioRead with
        | none =>
            rw [hd] at hcall
            cases hcall
        | some d =>
            rw [hd] at hcall
            have hat : AbortAt P s as esr far hpfar d
                ((getFaultIpa hpfar far).toNat - info.base) :=
              ⟨info, hserved, rfl, by rw [if_neg hwnr', hd]⟩
            exact VgicDev.read_mem hcall fun hdev h => hx ⟨_, _, hat, .inl ⟨hdev, h⟩⟩

end abort

end Xhyper
