import Xhyper.HypRun

/-!
# The calls of `vcpu_alloc`

`create_guest_vm` calls `vcpu_alloc` once for each virtual CPU of the machine it makes.  Here it is
cut into the parts between these calls, so that every call has a state in front of it, and a
sequence of machines is a run over the parts.

The loop of `vcpu_alloc` compares its pointer with one that moves along with it.  As long as a
place is free it is found before that matters.

## Main definitions

* `createStart`, `createVcpuAt`, `createEnd` — the parts of `create_guest_vm`.
* `VcpuRun` — any number of machines, in steps from one call to the next.
* `AllocSound` — what a call is to do.
* `vcpu_alloc_sound` — when it does.
* `createGuestVm_vcpuRun` — making a machine is such steps.
-/

namespace Xhyper

open Memory Prog

/-! ## The parts of `create_guest_vm` -/

/-- `create_guest_vm` up to the first call of `create_vcpu`. -/
def createStart (vmConfig : VmConfig) : Exec Hyp ℕ := do
  match vmConfig.guestImage with
  | none => abort "Guest vm are required when creating geust vm"
  | some image =>
      if vmConfig.ncpu > ncpu then abort "The number of VCPUs cannot exceed %d"
      else do
        match ← zoom Hyp.heapPart (xmalloc sizeofVm) with
        | none => abort "Unable to alloc a vm, no memory"
        | some vm => do
            modifyVm vm fun _ => zeroVm
            setVmName vm image.guestName
            modifyVm vm fun V => { V with vmLock := archSpinlockInit V.vmLock }
            modifyVm vm fun V => { V with nvcpu := vmConfig.ncpu }
            modifyVm vm fun V => { V with dtb := vmConfig.dtbAddr }
            pure vm

/-- `create_vcpu` behind the call of `vcpu_alloc`, which gave `r`. -/
def createVcpuAfter (vm vcpuid : ℕ) (entry : BitVec 64) (r : Option (Fin ncpu)) :
    Exec Hyp (Fin ncpu) := do
  match r with
  | none => abort "Unable to alloc a vcpu"
  | some i => do
      modifyVcpu i fun v => { v with vm := vm, cpuid := vcpuid }
      let cnt := ((← get).cores (← get).ram.core).sysRegs.cntfrqEl0
      modifyVcpu i fun v => { v with
        regs := { v.regs with spsr := spsrInit, elr := entry }
        sysRegs := { v.sysRegs with
          mpidrEl1 := BitVec.ofNat 64 vcpuid
          midrEl1 := 0x410FD081
          cntfrqEl0 := cnt } }
      if vcpuid = 0 then do
        let dtb := (← derefVm vm).dtb
        modifyVcpu i fun v => { v with
          regs := { v.regs with x := Function.update v.regs.x 0 (BitVec.ofNat 64 dtb) } }
      else pure ()
      let vgicCpu ← createVgicCpu vcpuid
      modifyVcpu i fun v => { v with vgicCpu := vgicCpu }
      let vmcr := ((← get).cores (← get).ram.core).ichVmcrEl2
      modifyVcpu i fun v => { v with gicContext := { v.gicContext with vmcr := vmcr } }
      pure i

/-- `vm->vcpus[cpu] = create_vcpu(...)` behind the call of `vcpu_alloc`. -/
def createVcpuAt (vm cpu : ℕ) (entry : BitVec 64) (r : Option (Fin ncpu)) : Exec Hyp Unit := do
  let i ← createVcpuAfter vm cpu entry r
  if h : cpu < ncpu then
    modifyVm vm fun V => { V with vcpus := Function.update V.vcpus ⟨cpu, h⟩ (some i) }
  else throw .outOfBounds

/-- `create_guest_vm` behind the last call of `create_vcpu`. -/
def createEnd (P : Platform) (vmConfig : VmConfig) (vm : ℕ) : Exec Hyp Unit := do
  match ← zoom Hyp.ramPart allocOnePage with
  | none => abort "Unable to alloc the vttbr"
  | some vttbr => do
      modifyVm vm fun V => { V with vttbr := vttbr }
      zoom Hyp.ramPart (doMemoryMapping vttbr vmConfig)
      zoom Hyp.ramPart (doDeviceMapping vttbr)
      let vgicDist ← createVgicDist P vm
      modifyVm vm fun V => { V with vgicDist := vgicDist }
      readyFirst vm

/-- The entry point of the virtual CPU `k`: the machine's for the first one, and none for the
others. -/
def VmConfig.entryOf (vmConfig : VmConfig) (k : ℕ) : BitVec 64 :=
  if k = 0 then BitVec.ofNat 64 vmConfig.entryAddr else 0

theorem createVcpu_eq (vm vcpuid : ℕ) (entry : BitVec 64) :
    createVcpu vm vcpuid entry = vcpuAlloc >>= createVcpuAfter vm vcpuid entry := rfl

theorem addVcpu_eq (vm cpu : ℕ) (entry : BitVec 64) :
    addVcpu vm cpu entry = vcpuAlloc >>= createVcpuAt vm cpu entry := by
  rw [addVcpu, createVcpu_eq, bind_assoc]
  rfl

/-- **`create_guest_vm` is its parts.** -/
theorem createGuestVm_eq (P : Platform) (vmConfig : VmConfig) :
    createGuestVm P vmConfig = (do
      let vm ← createStart vmConfig
      addVcpu vm 0 (vmConfig.entryOf 0)
      let _ ← forRange 1 1 vmConfig.ncpu.toNat fun cpu => addVcpu vm cpu 0
      createEnd P vmConfig vm) := by
  have hentry : vmConfig.entryOf 0 = BitVec.ofNat 64 vmConfig.entryAddr := rfl
  rw [createGuestVm, buildGuestVm, createStart, hentry]
  cases himage : vmConfig.guestImage with
  | none => rfl
  | some image =>
      by_cases hcount : vmConfig.ncpu > ncpu
      · simp only [if_pos hcount]
        rfl
      simp only [if_neg hcount, bind_assoc]
      congr 1
      funext r
      cases r with
      | none => rfl
      | some vm =>
          simp only [vmInit, createEnd, bind_assoc, pure_bind]
          refine bind_congr fun _ => bind_congr fun _ => bind_congr fun _ => bind_congr fun _ => ?_
          refine bind_congr fun _ => bind_congr fun _ => bind_congr fun _ => bind_congr fun r => ?_
          cases r with
          | none => rfl
          | some vttbr => simp only [bind_assoc, pure_bind, bind_pure_unit]

/-! ## Runs over the calls -/

/-- Where a core is: outside of `create_guest_vm`, or in front of the place where the virtual CPU
`k` of the machine `vm` is made. -/
inductive CreatePoint
  | idle
  | vcpu (vmConfig : VmConfig) (vm k : ℕ)

/-- Machines made one after the other, each on any core, in steps from one call of `vcpu_alloc` to
the next.  The places that the calls returned are listed, the last one first. -/
inductive VcpuRun (P : Platform) (himageEnd : ℕ) : List (Fin ncpu) → CreatePoint → Hyp → Prop
  | boot {s : Hyp} : Booted himageEnd s → s.vcpusLock.word = 0 → VcpuRun P himageEnd [] .idle s
  | start {taken : List (Fin ncpu)} {core : Fin ncpu} {cfg : VmConfig} {vm : ℕ} {s s' : Hyp} :
      VcpuRun P himageEnd taken .idle s → createStart cfg (s.onCore core) = .ok vm s' →
      VcpuRun P himageEnd taken (.vcpu cfg vm 0) s'
  | vcpu {taken : List (Fin ncpu)} {cfg : VmConfig} {vm k : ℕ} {i : Fin ncpu} {s s₁ s' : Hyp} :
      VcpuRun P himageEnd taken (.vcpu cfg vm k) s → k < cfg.slots →
      vcpuAlloc s = .ok (some i) s₁ → createVcpuAt vm k (cfg.entryOf k) (some i) s₁ = .ok () s' →
      VcpuRun P himageEnd (i :: taken) (.vcpu cfg vm (k + 1)) s'
  | finish {taken : List (Fin ncpu)} {cfg : VmConfig} {vm : ℕ} {s s' : Hyp} :
      VcpuRun P himageEnd taken (.vcpu cfg vm cfg.slots) s → createEnd P cfg vm s = .ok () s' →
      VcpuRun P himageEnd taken .idle s'

/-- **What a call is to do**: it returns a place that no call before returned, or a null pointer,
which it does exactly when there is no such place.  A call that looks at memory behind the array
does not return. -/
def AllocSound (taken : List (Fin ncpu)) (s : Hyp) : Prop :=
  ∃ r s', vcpuAlloc s = .ok r s' ∧ (∀ i, r = some i → i ∉ taken) ∧ (r = none ↔ ∀ i, i ∈ taken)

/-! ## One call -/

section call
variable {s : Hyp}

theorem vcpuScan_runs {l : List (Fin ncpu)} (hlock : s.vcpusLock = .heldBy s.ram.core) :
    wp (vcpuScan l) (fun r s' => ∃ i, r = some i ∧ (s.vcpus i).state = .unused ∧
        s' = { s.setVcpu i { s.vcpus i with state := .alloced } with
          vcpusLock := .leftBy s.ram.core })
      (fun e _ => e = .outOfBounds ∧ ∀ i ∈ l, (s.vcpus i).state ≠ .unused) s := by
  induction l with
  | nil => exact ⟨rfl, fun i hi => absurd hi List.not_mem_nil⟩
  | cons i rest ih =>
      simp only [vcpuScan, wp_bind, wp_get, wp_ite, wp_modifyVcpu]
      refine ⟨fun hfree => ?_, fun hused => ?_⟩
      · rw [wp_spinUnlock hlock]
        exact ⟨i, rfl, hfree, rfl⟩
      · refine wp_mono ih (fun _ _ h => h) ?_
        rintro e _ ⟨he, hrest⟩
        refine ⟨he, fun j hj => ?_⟩
        rcases List.mem_cons.mp hj with rfl | hj
        · exact hused
        · exact hrest j hj

/-- **`vcpu_alloc`** finds a place that is not in use, if there is one, and runs off the array
otherwise. -/
theorem vcpuAlloc_runs (hlock : s.vcpusLock.word = 0) :
    wp vcpuAlloc (fun r s' => ∃ i, r = some i ∧ (s.vcpus i).state = .unused ∧
        s' = { s.setVcpu i { s.vcpus i with state := .alloced } with
          vcpusLock := .leftBy s.ram.core })
      (fun e _ => e = .outOfBounds ∧ ∀ i, (s.vcpus i).state ≠ .unused) s := by
  simp only [vcpuAlloc, wp_bind, wp_get]
  rw [wp_spinLock (by simpa using hlock)]
  refine wp_mono (vcpuScan_runs rfl) (fun _ _ h => h) ?_
  rintro e _ ⟨he, hall⟩
  exact ⟨he, fun i => hall i (List.mem_finRange i)⟩

end call

/-! ## The invariant -/

/-- What the calls depend on: the states of the virtual CPUs, their lock, and which ones the
machines have. -/
def Hyp.slotPart (s : Hyp) :
    (Fin ncpu → VcpuState) × Spinlock × (ℕ → Fin ncpu → Option (Fin ncpu)) :=
  (fun i => (s.vcpus i).state, s.vcpusLock, fun vm => (s.vms vm).vcpus)

/-- The places taken are those in use, the lock is free, and a machine that is made has only
places that are taken. -/
structure SlotInv (taken : List (Fin ncpu)) (point : CreatePoint) (s : Hyp) : Prop where
  unused : ∀ i, (s.vcpus i).state = .unused ↔ i ∉ taken
  lock : s.vcpusLock.word = 0
  entries : ∀ cfg vm k, point = .vcpu cfg vm k →
    ∀ j i, (s.vms vm).vcpus j = some i → i ∈ taken

section invariant
variable {P : Platform} {taken : List (Fin ncpu)} {point : CreatePoint} {cfg : VmConfig}
  {vm k : ℕ} {s s' : Hyp}

theorem Hyp.aside_slotPart : Hyp.Aside Hyp.slotPart := by
  refine ⟨fun _ _ => rfl, fun _ _ => rfl, fun s vm V hV => ?_⟩
  have hvms : (fun a => ((s.setVm vm V).vms a).vcpus) = fun a => (s.vms a).vcpus := by
    funext a
    by_cases ha : a = vm
    · subst ha
      simp only [Hyp.setVm, Function.update_self, hV]
    · simp only [Hyp.setVm, Function.update_of_ne ha]
  exact Prod.ext rfl (Prod.ext rfl hvms)

theorem SlotInv.congr (I : SlotInv taken point s) (h : s'.slotPart = s.slotPart) :
    SlotInv taken point s' := by
  obtain ⟨hstate, hrest⟩ := Prod.ext_iff.mp h
  obtain ⟨hlock, hvms⟩ := Prod.ext_iff.mp hrest
  constructor
  · intro i
    have hi : (s'.vcpus i).state = (s.vcpus i).state := congrFun hstate i
    rw [hi]
    exact I.unused i
  · have hword : s'.vcpusLock = s.vcpusLock := hlock
    rw [hword]
    exact I.lock
  · intro cfg vm k hp j i hi
    have hj : (s'.vms vm).vcpus j = (s.vms vm).vcpus j := congrFun (congrFun hvms vm) j
    exact I.entries cfg vm k hp j i (hj.symm.trans hi)

/-- A program that leaves these alone keeps the invariant. -/
theorem SlotInv.bind {α β : Type} {x : Exec Hyp α} {f : α → Exec Hyp β} {Q : β → Hyp → Prop}
    (I : SlotInv taken point s) (hx : Keeps Hyp.slotPart x)
    (h : ∀ a t, SlotInv taken point t → wp (f a) Q (fun _ _ => True) t) :
    wp (x >>= f) Q (fun _ _ => True) s := by
  rw [wp_bind]
  exact wp_mono (hx s) (fun a t ht => h a t (I.congr ht)) fun _ _ _ => trivial

/-- Other fields of a virtual CPU are written. -/
theorem keeps_slotPart_modifyVcpu (i : Fin ncpu) {f : Vcpu → Vcpu}
    (hf : ∀ v, (f v).state = v.state) : Keeps Hyp.slotPart (modifyVcpu i f) := by
  refine .modify fun s => ?_
  have hstate : (fun j => ((s.setVcpu i (f (s.vcpus i))).vcpus j).state) =
      fun j => (s.vcpus j).state := by
    funext j
    by_cases hj : j = i
    · subst hj
      simp only [Hyp.setVcpu, Function.update_self, hf]
    · simp only [Hyp.setVcpu, Function.update_of_ne hj]
  exact Prod.ext hstate rfl

/-- Behind the call, `create_vcpu` fills in the other fields. -/
theorem keeps_slotPart_createVcpuAfter (vcpuid : ℕ) (entry : BitVec 64) (r : Option (Fin ncpu)) :
    Keeps Hyp.slotPart (createVcpuAfter vm vcpuid entry r) := by
  cases r with
  | none => exact .throw _
  | some i =>
      have hrest : Keeps Hyp.slotPart (do
          let vgicCpu ← createVgicCpu vcpuid
          modifyVcpu i fun v => { v with vgicCpu := vgicCpu }
          let vmcr := ((← get).cores (← get).ram.core).ichVmcrEl2
          modifyVcpu i fun v => { v with gicContext := { v.gicContext with vmcr := vmcr } }
          pure i) := by
        refine (Hyp.aside_slotPart.keeps_createVgicCpu _).bind fun _ => .bind ?_ fun _ => ?_
        · exact keeps_slotPart_modifyVcpu i fun _ => rfl
        refine .bind .get fun _ => .bind .get fun _ => .bind ?_ fun _ => .pure _
        exact keeps_slotPart_modifyVcpu i fun _ => rfl
      refine .bind ?_ fun _ => .bind .get fun _ => .bind .get fun _ => .bind ?_ fun _ => ?_
      · exact keeps_slotPart_modifyVcpu i fun _ => rfl
      · exact keeps_slotPart_modifyVcpu i fun _ => rfl
      refine .ite ((Hyp.Aside.keeps_derefVm _ _).bind fun _ => .bind ?_ fun _ => hrest) hrest
      exact keeps_slotPart_modifyVcpu i fun _ => rfl

/-- It returns the place that the call gave. -/
theorem createVcpuAfter_returns {vcpuid : ℕ} {entry : BitVec 64} {i : Fin ncpu} :
    wp (createVcpuAfter vm vcpuid entry (some i)) (fun j _ => j = i) (fun _ _ => True) s := by
  have hrest : ∀ s, wp (do
      let vgicCpu ← createVgicCpu vcpuid
      modifyVcpu i fun v => { v with vgicCpu := vgicCpu }
      let vmcr := ((← get).cores (← get).ram.core).ichVmcrEl2
      modifyVcpu i fun v => { v with gicContext := { v.gicContext with vmcr := vmcr } }
      pure i) (fun j _ => j = i) (fun _ _ => True) s := by
    intro s
    refine wp_bind_of_forall fun _ _ => wp_bind_of_forall fun _ _ => ?_
    exact wp_bind_of_forall fun _ _ => wp_bind_of_forall fun _ _ =>
      wp_bind_of_forall fun _ _ => rfl
  refine wp_bind_of_forall fun _ _ => wp_bind_of_forall fun _ _ => wp_bind_of_forall fun _ _ => ?_
  refine wp_bind_of_forall fun _ _ => ?_
  by_cases h0 : vcpuid = 0
  · rw [if_pos h0]
    exact wp_bind_of_forall fun _ _ => wp_bind_of_forall fun _ _ => hrest _
  · rw [if_neg h0]
    exact hrest _

/-- The start of `create_guest_vm` makes a machine with no virtual CPU. -/
theorem SlotInv.start (I : SlotInv taken .idle s) {core : Fin ncpu}
    (hrun : createStart cfg (s.onCore core) = .ok vm s') :
    SlotInv taken (.vcpu cfg vm 0) s' := by
  have hwp : wp (createStart cfg) (fun vm s' => (∀ i, (s'.vcpus i).state = (s.vcpus i).state) ∧
      s'.vcpusLock = s.vcpusLock ∧ ∀ j, (s'.vms vm).vcpus j = none) (fun _ _ => True)
      (s.onCore core) := by
    rw [createStart]
    cases cfg.guestImage with
    | none => trivial
    | some image =>
        dsimp only
        by_cases hcount : cfg.ncpu > ncpu
        · rw [if_pos hcount]
          trivial
        rw [if_neg hcount, wp_bind]
        refine wp_mono (Hyp.aside_slotPart.keeps_heap _ _) ?_ fun _ _ _ => trivial
        intro r t ht
        obtain ⟨hstate, hrest⟩ := Prod.ext_iff.mp ht
        obtain ⟨hlock, _⟩ := Prod.ext_iff.mp hrest
        cases r with
        | none => trivial
        | some vm =>
            by_cases hname : image.guestName.length < vmNameLen
            · simp only [setVmName, if_pos hname, wp_bind, wp_modifyVm, wp_pure]
              refine ⟨congrFun hstate, hlock, fun j => ?_⟩
              simp only [Hyp.setVm, Function.update_self, zeroVm]
            · simp only [setVmName, if_neg hname, wp_bind, wp_modifyVm, wp_throw]
  obtain ⟨hstate, hlock, hnone⟩ := wp_partial.mp hwp _ _ hrun
  constructor
  · intro i
    rw [hstate]
    exact I.unused i
  · rw [hlock]
    exact I.lock
  · rintro _ _ _ ⟨⟩ j i hi
    rw [hnone] at hi
    cases hi

/-- A call and what `create_vcpu` does with the place. -/
theorem SlotInv.vcpu (I : SlotInv taken (.vcpu cfg vm k) s) {i : Fin ncpu} {s₁ : Hyp}
    (halloc : vcpuAlloc s = .ok (some i) s₁)
    (hrun : createVcpuAt vm k (cfg.entryOf k) (some i) s₁ = .ok () s') :
    SlotInv (i :: taken) (.vcpu cfg vm (k + 1)) s' := by
  obtain ⟨j, hj, hfree, hs₁⟩ := wp_partial.mp (wp_mono (vcpuAlloc_runs I.lock) (fun _ _ h => h)
    fun _ _ _ => trivial) _ _ halloc
  obtain rfl := Option.some.inj hj
  have I₁ : SlotInv (i :: taken) (.vcpu cfg vm (k + 1)) s₁ := by
    subst hs₁
    constructor
    · intro j
      by_cases hji : j = i
      · subst hji
        simp [Hyp.setVcpu]
      · simp only [Hyp.setVcpu, Function.update_of_ne hji, I.unused j, List.mem_cons, hji, false_or]
    · rfl
    · rintro _ _ _ ⟨⟩ j i' hi'
      exact List.mem_cons_of_mem _ (I.entries cfg vm k rfl j i' hi')
  have hwp : wp (createVcpuAt vm k (cfg.entryOf k) (some i))
      (fun _ s' => SlotInv (i :: taken) (.vcpu cfg vm (k + 1)) s') (fun _ _ => True) s₁ := by
    rw [createVcpuAt, wp_bind]
    have hkeeps := wp_mono (@keeps_slotPart_createVcpuAfter vm k (cfg.entryOf k) (some i) s₁)
      (fun _ _ h => h) fun _ _ _ => trivial
    refine wp_mono (wp_and hkeeps createVcpuAfter_returns) ?_ fun _ _ _ => trivial
    rintro j t ⟨ht, rfl⟩
    have It := I₁.congr ht
    by_cases hk : k < ncpu
    · rw [dif_pos hk, wp_modifyVm]
      refine ⟨It.unused, It.lock, ?_⟩
      rintro _ _ _ ⟨⟩ l i' hi'
      simp only [Hyp.setVm, Function.update_self] at hi'
      by_cases hl : l = ⟨k, hk⟩
      · rw [hl, Function.update_self] at hi'
        obtain rfl := Option.some.inj hi'
        exact List.mem_cons_self
      · rw [Function.update_of_ne hl] at hi'
        exact It.entries cfg vm (k + 1) rfl l i' hi'
    · rw [dif_neg hk]
      trivial
  exact wp_partial.mp hwp _ _ hrun

/-- The end of `create_guest_vm` makes the first virtual CPU ready, which was taken. -/
theorem SlotInv.finish (I : SlotInv taken (.vcpu cfg vm k) s)
    (hrun : createEnd P cfg vm s = .ok () s') : SlotInv taken .idle s' := by
  have A := Hyp.aside_slotPart
  have hwp : wp (createEnd P cfg vm) (fun _ s' => SlotInv taken .idle s') (fun _ _ => True) s := by
    refine I.bind (A.keeps_ram _) fun r t It => ?_
    cases r with
    | none => trivial
    | some vttbr =>
        refine It.bind (.modify fun s => A.vm s vm _ rfl) fun _ _ I₁ => ?_
        refine I₁.bind (A.keeps_ram _) fun _ _ I₂ => I₂.bind (A.keeps_ram _) fun _ _ I₃ => ?_
        refine I₃.bind (A.unlisted.keeps_createVgicDist _ _) fun _ _ I₄ => ?_
        refine I₄.bind (.modify fun s => A.vm s vm _ rfl) fun _ u Iu => ?_
        simp only [readyFirst, wp_bind, wp_get]
        cases hfirst : (u.vms vm).vcpus 0 with
        | none => trivial
        | some i =>
            rw [wp_modifyVcpu]
            have hi := Iu.entries cfg vm k rfl 0 i hfirst
            refine ⟨fun j => ?_, Iu.lock, by rintro _ _ _ ⟨⟩⟩
            by_cases hj : j = i
            · subst hj
              simp [Hyp.setVcpu, hi]
            · simp only [Hyp.setVcpu, Function.update_of_ne hj]
              exact Iu.unused j
  exact wp_partial.mp hwp _ _ hrun

/-- **The invariant holds in every run.** -/
theorem VcpuRun.inv {himageEnd : ℕ} (himg : IsImage himageEnd)
    (hrun : VcpuRun P himageEnd taken point s) : SlotInv taken point s := by
  induction hrun with
  | boot hboot hlock =>
      refine ⟨fun i => ?_, hlock, nofun⟩
      have hfree := ((hboot.slots himg).2 i).mpr (Nat.zero_le _)
      exact ⟨fun _ => List.not_mem_nil, fun _ => hfree⟩
  | start _ hstart ih => exact ih.start hstart
  | vcpu _ _ halloc hrest ih => exact ih.vcpu halloc hrest
  | finish _ hend ih => exact ih.finish hend

end invariant

/-! ## The calls -/

section calls
variable {P : Platform} {himageEnd : ℕ} {taken : List (Fin ncpu)} {point : CreatePoint}
  {cfg : VmConfig} {vm k : ℕ} {s s' : Hyp}

/-- With a place left, a call returns one that was not taken. -/
theorem SlotInv.sound (I : SlotInv taken point s) (hfree : ∃ i, i ∉ taken) :
    AllocSound taken s := by
  obtain ⟨j, hj⟩ := hfree
  cases halloc : vcpuAlloc s with
  | ok r s' =>
      obtain ⟨i, rfl, hi, _⟩ := ok_of_wp (vcpuAlloc_runs I.lock) halloc
      refine ⟨_, s', halloc, ?_, ?_⟩
      · rintro _ ⟨⟩
        exact (I.unused i).mp hi
      · exact ⟨nofun, fun hall => absurd (hall j) hj⟩
  | error e s' =>
      have hused := (error_of_wp (vcpuAlloc_runs I.lock) halloc).2 j
      exact absurd ((I.unused j).mpr hj) hused

/-- With none left, it looks at memory behind the array. -/
theorem SlotInv.overruns (I : SlotInv taken point s) (hfull : ∀ i, i ∈ taken) :
    ∃ s', vcpuAlloc s = .error .outOfBounds s' := by
  cases halloc : vcpuAlloc s with
  | ok r s' =>
      obtain ⟨i, _, hi, _⟩ := ok_of_wp (vcpuAlloc_runs I.lock) halloc
      exact absurd (hfull i) ((I.unused i).mp hi)
  | error e s' =>
      obtain ⟨rfl, _⟩ := error_of_wp (vcpuAlloc_runs I.lock) halloc
      exact ⟨s', rfl⟩

/-- **Every call of `vcpu_alloc`, however many machines are made**, does what it is to do exactly
when a place is left. -/
theorem vcpu_alloc_sound (himg : IsImage himageEnd)
    (hrun : VcpuRun P himageEnd taken (.vcpu cfg vm k) s) :
    AllocSound taken s ↔ ∃ i, i ∉ taken := by
  have I := hrun.inv himg
  constructor
  · rintro ⟨r, s', halloc, _⟩
    by_contra hno
    obtain ⟨t, ht⟩ := I.overruns fun i => not_not.mp fun hi => hno ⟨i, hi⟩
    rw [ht] at halloc
    cases halloc
  · exact I.sound

/-! ## Making a machine is such steps -/

/-- From a call on, the next virtual CPUs of the machine. -/
theorem VcpuRun.addVcpu {taken : List (Fin ncpu)}
    (hrun : VcpuRun P himageEnd taken (.vcpu cfg vm k) s) (hk : k < cfg.slots)
    (hadd : addVcpu vm k (cfg.entryOf k) s = .ok () s') :
    ∃ i, VcpuRun P himageEnd (i :: taken) (.vcpu cfg vm (k + 1)) s' := by
  rw [addVcpu_eq] at hadd
  obtain ⟨r, s₁, halloc, hrest⟩ := ok_of_bind hadd
  cases r with
  | none => cases hrest
  | some i => exact ⟨i, .vcpu hrun hk halloc hrest⟩

/-- **`create_guest_vm`**, when it returns, has called `vcpu_alloc` for each of the machine's
virtual CPUs. -/
theorem createGuestVm_vcpuRun (hrun : VcpuRun P himageEnd taken .idle s) {core : Fin ncpu}
    (hcreate : createGuestVm P cfg (s.onCore core) = .ok () s') :
    ∃ new, new.length = cfg.slots ∧ VcpuRun P himageEnd (new ++ taken) .idle s' := by
  rw [createGuestVm_eq] at hcreate
  obtain ⟨vm, s₁, hstart, hcreate⟩ := ok_of_bind hcreate
  obtain ⟨_, s₂, hfirst, hcreate⟩ := ok_of_bind hcreate
  obtain ⟨_, s₃, hothers, hend⟩ := ok_of_bind hcreate
  have hslots : cfg.slots = max 1 cfg.ncpu.toNat := rfl
  obtain ⟨i, hrun₂⟩ := (VcpuRun.start hrun hstart).addVcpu (by omega) hfirst
  have hloop : wp (forRange 1 1 cfg.ncpu.toNat fun cpu => addVcpu vm cpu 0)
      (fun _ u => ∃ new, new.length = cfg.slots ∧
        VcpuRun P himageEnd (new ++ taken) (.vcpu cfg vm cfg.slots) u)
      (fun _ _ => True) s₂ := by
    refine wp_forRange (fun k u => ∃ new, new.length = k + 1 ∧
      VcpuRun P himageEnd (new ++ taken) (.vcpu cfg vm (k + 1)) u) (by decide) ?_
      ⟨[i], rfl, hrun₂⟩ ?_
    · rintro k u hk ⟨new, hlen, hu⟩
      have hindex : 1 + k * 1 = k + 1 := by omega
      have hentry : cfg.entryOf (k + 1) = 0 := if_neg (by omega)
      refine wp_partial.mpr fun _ u' hadd => ?_
      rw [hindex, ← hentry] at hadd
      obtain ⟨j, hu'⟩ := hu.addVcpu (by omega) hadd
      exact ⟨j :: new, by simp [hlen], hu'⟩
    · rintro k u hk ⟨new, hlen, hu⟩
      have hlast : k + 1 = cfg.slots := by omega
      rw [hlast] at hlen hu
      exact ⟨new, hlen, hu⟩
  obtain ⟨new, hlen, hrun₃⟩ := wp_partial.mp hloop _ _ hothers
  exact ⟨new, hlen, hrun₃.finish hend⟩

end calls

/-! ## Two machines -/

/-- The start of `create_guest_vm` returns when there is a block for the machine. -/
theorem Able.createStart {start : ℕ} {spis : ℤ} {l : List (Fin blkSliceBit)} {s : Hyp}
    {cfg : VmConfig} {image : Guest} (A : Able start spis (7 :: l) s)
    (himage : cfg.guestImage = some image) (hname : image.guestName.length < vmNameLen)
    (hcount : cfg.ncpu ≤ ncpu) : ∃ vm s', createStart cfg s = .ok vm s' := by
  have hwp : wp (Xhyper.createStart cfg) (fun _ _ => True) (fun _ _ => False) s := by
    have hle : ¬ cfg.ncpu > ncpu := not_lt.mpr hcount
    simp only [Xhyper.createStart, himage, if_neg hle, wp_bind]
    refine A.xmalloc (by decide) (by decide) fun vm t _ _ _ _ _ => ?_
    simp only [setVmName, if_pos hname, wp_bind, wp_modifyVm, wp_pure]
  obtain ⟨vm, s', hrun, _⟩ := exists_ok_of_wp hwp
  exact ⟨vm, s', hrun⟩

/-- The small guest with `n` virtual CPUs. -/
abbrev guestWithCpus (n : ℤ) : VmConfig := { smallGuest with ncpu := n }

/-- The first call of a second machine, when the first one has `n` virtual CPUs. -/
theorem exists_second_call (n : ℤ) (hfit : (guestWithCpus n).slots ≤ ncpu)
    (hblocks : ∀ c : Fin blkSliceBit, (VmConfig.blocks (guestWithCpus n) 5 ++ [7]).count c * 2 ^ c.val ≤
      1024) : ∃ taken s vm, VcpuRun obedient bootEnd taken (.vcpu smallGuest vm 0) s ∧
      ∀ i, i ∈ taken ↔ i.val < (guestWithCpus n).slots := by
  have hn : n ≤ ncpu := by
    have hslots : (guestWithCpus n).slots = max 1 n.toNat := rfl
    omega
  obtain ⟨s, hboot, V, _⟩ := @exists_booted bootEnd 63 _ isImage_bootEnd hblocks
  obtain ⟨s', vm, _, _, hrun, _, _, V', _⟩ := V.create isImage_bootEnd
    (HypRun.boot (P := obedient) hboot) (by decide) (by omega)
    ((smallGuest_creatable fun p => smallGuest_high).withNcpu hn)
    (by change smallGuest.pages _ _ ≤ _; decide)
  obtain ⟨core, hcreate⟩ : ∃ core : Fin ncpu,
      createGuestVm obedient (guestWithCpus n) (s.onCore core) = .ok () s' := by
    cases hrun with
    | step _ hstep =>
        cases hstep with
        | create h => exact ⟨_, h⟩
  have hidle := VcpuRun.boot (P := obedient) hboot V.able.vcpus_free
  obtain ⟨new, _, hidle'⟩ := createGuestVm_vcpuRun hidle hcreate
  have A : Able (poolStart bootEnd) 63 [7] (s'.onCore 0) := V'.able.congr rfl V'.able.vcpus_free rfl
  obtain ⟨vm₂, s₂, hstart⟩ := @Able.createStart _ _ _ _ smallGuest _ A rfl (by decide) (by decide)
  refine ⟨_, s₂, vm₂, @VcpuRun.start _ _ _ 0 _ _ _ _ hidle' hstart, fun i => ?_⟩
  -- the places of the first machine are those that are taken
  have hused := V'.used i
  rw [(hidle'.inv isImage_bootEnd).unused i, Nat.zero_add] at hused
  rw [← not_iff_not, hused, not_lt]

/-- With two places taken the call returns another one. -/
theorem vcpu_alloc_sound_third : ∃ taken s vm,
    VcpuRun obedient bootEnd taken (.vcpu smallGuest vm 0) s ∧ (∀ i, i ∈ taken ↔ i.val < 2) ∧
    AllocSound taken s := by
  obtain ⟨taken, s, vm, hrun, htaken⟩ := exists_second_call 2 (by decide) (by decide)
  refine ⟨taken, s, vm, hrun, htaken, (vcpu_alloc_sound isImage_bootEnd hrun).mpr ⟨2, ?_⟩⟩
  rw [htaken]
  decide

/-- The call for a fifth virtual CPU runs off the array. -/
theorem vcpu_alloc_overruns : ∃ taken s vm,
    VcpuRun obedient bootEnd taken (.vcpu smallGuest vm 0) s ∧ (∀ i, i ∈ taken) ∧
    ¬ AllocSound taken s := by
  obtain ⟨taken, s, vm, hrun, htaken⟩ := exists_second_call 4 (by decide) (by decide)
  have hfull : ∀ i, i ∈ taken := fun i => (htaken i).mpr i.isLt
  refine ⟨taken, s, vm, hrun, hfull, ?_⟩
  rintro ⟨r, s', halloc, _⟩
  obtain ⟨t, ht⟩ := (hrun.inv isImage_bootEnd).overruns hfull
  rw [ht] at halloc
  cases halloc

end Xhyper
