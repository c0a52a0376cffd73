import Xhyper.Creation
import Xhyper.Lib.Frame
import Xhyper.Psci

/-!
# Runs of the hypervisor

After the primary core has set up the allocators and the arrays, machines are created, cores
start the virtual CPUs at their places, and virtual CPUs turn others on.  A run is any
sequence of such steps that return, each on any core.

## Main definitions

* `Booted` — the state in front of the first step.
* `HypEvent`, `HypStep`, `HypRun` — steps and runs.
* `HypRun.slots` — in every state of a run the virtual CPUs in use belong to machines.
-/

namespace Xhyper

open Memory Prog

/-! ## The start -/

/-- Where the image ends: the three pages for the pool are in it, behind its load address. -/
structure IsImage (himageEnd : ℕ) : Prop where
  aligned : himageEnd % pageSize = 0
  pool : himageVaddr + 3 * pageSize ≤ himageEnd
  le : himageEnd ≤ phyEnd

/-- Where the blocks of the pool start. -/
def poolStart (himageEnd : ℕ) : ℕ := blkPoolStart himageEnd + alignUp sizeofBlkPool

/-- The state after `hyperInit`, when the variables of the page allocator were zero. -/
def Booted (himageEnd : ℕ) (s : Hyp) : Prop :=
  ∃ s₀ : Hyp, s₀.ram.pages.freelist = 0 ∧ s₀.ram.pages.lock.word = 0 ∧
    hyperInit himageEnd s₀ = .ok () s

theorem IsImage.region {himageEnd : ℕ} (h : IsImage himageEnd) : IsRegion (poolStart himageEnd) := by
  have hpool := h.pool
  have hle := h.le
  have halign := h.aligned
  have hstart : poolStart himageEnd = himageEnd - 12288 + 536 := rfl
  simp only [pageSize, himageVaddr, phyEnd] at hpool hle halign
  rw [hstart]
  refine ⟨by omega, by omega, ?_⟩
  simp only [configBlkSize]
  omega

/-- Pages behind the image are behind the devices and the heap. -/
theorem IsImage.highPages {himageEnd : ℕ} (himg : IsImage himageEnd) {l : List ℕ}
    (hl : ∀ p ∈ l, himageEnd ≤ p) :
    HighPages (poolStart himageEnd) l := by
  have hpool := himg.pool
  have hstart : poolStart himageEnd = himageEnd - 12288 + 536 := rfl
  simp only [pageSize, himageVaddr] at hpool
  refine ⟨fun p hp => ?_, fun p hp => ?_⟩
  · have := hl p hp
    simp only [pl011Base]
    omega
  · have := hl p hp
    rw [hstart]
    simp only [configBlkSize]
    omega

/-- The free list is built from the lock and the list head alone. -/
theorem hyperInit_pages {himageEnd : ℕ} {s : Hyp} (himg : IsImage himageEnd)
    (hlock : s.ram.pages.lock.word = 0) (hfree : s.ram.pages.freelist = 0) :
    wp (do
        zoom Hyp.ramPart (kallocInit himageEnd)
        pcpuInit
        vcpuInit)
      (fun _ s' => s'.ram.Pool (initPages himageEnd ((phyEnd - himageEnd) / pageSize)))
      (fun _ _ => False) s := by
  have hpos : 0 < himageEnd := by
    have hpool := himg.pool
    simp only [pageSize, himageVaddr] at hpool
    omega
  have hinit : archSpinlockInit s.ram.pages.lock = { coreid := -1, word := 0 } := by
    simp [archSpinlockInit, hlock]
  rw [wp_bind, wp_zoom]
  refine wp_mono (kallocInit_spec himg.aligned hpos hinit hfree) ?_ fun _ _ h => h
  intro _ r hr
  simp only [pcpuInit, vcpuInit, wp_bind, wp_modify]
  exact hr.1

/-- **After boot** no virtual CPU is in use and the heap is empty. -/
theorem Booted.slots {himageEnd : ℕ} {s : Hyp} (himg : IsImage himageEnd)
    (h : Booted himageEnd s) :
    Slots (poolStart himageEnd) s ∧ Used s 0 := by
  obtain ⟨s₀, _, _, hrun⟩ := h
  have hwp : wp (hyperInit himageEnd)
      (fun _ s => Slots (poolStart himageEnd) s ∧ Used s 0) (fun _ _ => True) s₀ := by
    rw [hyperInit, wp_bind, wp_zoom, xmallocInit]
    refine (wp_blkPoolInit himg.region).mpr ?_
    rw [wp_bind]
    refine wp_ramPart_ends fun _ r _ => ?_
    simp only [pcpuInit, vcpuInit, wp_bind, wp_modify]
    have hunused : ∀ {P : Prop} (i : Fin ncpu), ¬ (VcpuState.unused = .unused) → P :=
      fun _ h => absurd rfl h
    refine ⟨⟨⟨0, fun i => ?_⟩, fun i hi => hunused i hi, [], ⟨[], List.Subset.refl _, ?_⟩,
      fun i hi => hunused i hi⟩, fun i => ?_⟩
    · exact ⟨fun _ => Nat.zero_le _, fun _ => rfl⟩
    · exact freshPool_blocks himg.region _ _ _
    · exact ⟨fun _ => Nat.zero_le _, fun _ => rfl⟩
  have hend := ok_of_wp hwp hrun
  exact hend

/-! ## Steps -/

/-- What happens on a core. -/
inductive HypEvent
  /-- `create_guest_vm`. -/
  | create (cfg : VmConfig)
  /-- `start_vcpu`. -/
  | start
  /-- The virtual CPU `v` makes `PSCI_SYSTEM_CPUON`. -/
  | cpuOn (v : Fin ncpu) (targetCpu entryAddr : BitVec 64)

/-- One step on the core `core`.  The number of a `CPU_ON` is in range. -/
inductive HypStep (P : Platform) (core : Fin ncpu) : HypEvent → Hyp → Hyp → Prop
  | create {cfg : VmConfig} {s s' : Hyp} :
      createGuestVm P cfg (s.onCore core) = .ok () s' → HypStep P core (.create cfg) s s'
  | start {s s' : Hyp} : startVcpu (s.onCore core) = .ok () s' → HypStep P core .start s s'
  | cpuOn {v : Fin ncpu} {targetCpu entryAddr r : BitVec 64} {s s' : Hyp} :
      (s.vcpus v).state ≠ .unused →
      (targetCpu.toNat : ℤ) < (s.vms (s.vcpus v).vm).nvcpu →
      vpsciTrapSmc P v psciSystemCpuon targetCpu entryAddr (s.onCore core) = .ok r s' →
      HypStep P core (.cpuOn v targetCpu entryAddr) s s'

/-- A step of a run, with the states around it. -/
structure Transition where
  pre : Hyp
  event : HypEvent
  post : Hyp

/-- The steps of a run from boot, last one first, and the state it ends in. -/
inductive HypRun (P : Platform) (himageEnd : ℕ) : List Transition → Hyp → Prop
  | boot {s : Hyp} : Booted himageEnd s → HypRun P himageEnd [] s
  | step {trace : List Transition} {core : Fin ncpu} {ev : HypEvent} {s s' : Hyp} :
      HypRun P himageEnd trace s → HypStep P core ev s s' →
      HypRun P himageEnd (⟨s, ev, s'⟩ :: trace) s'

/-! ## What the steps do to the virtual CPUs -/

section steps
variable {P : Platform} {himageEnd : ℕ} {start : ℕ} {s s' : Hyp} {core : Fin ncpu}

/-- What `switch_vcpu` does up to `switch_out`: the virtual CPU runs on its machine's table. -/
structure Switched (s : Hyp) (i : Fin ncpu) (s' : Hyp) : Prop where
  ram : s'.ram = s.ram
  vms : s'.vms = s.vms
  sysBlk : s'.sysBlk = s.sysBlk
  smcs : s'.smcs = s.smcs
  vcpus : s'.vcpus = Function.update s.vcpus i { s.vcpus i with state := .running }
  tpidr : (s'.cores s.ram.core).tpidrEl2 = some i
  vttbr : (s'.cores s.ram.core).vttbrEl2 = (s.vms (s.vcpus i).vm).vttbr
  other_cores : ∀ c, c ≠ s.ram.core → s'.cores c = s.cores c

/-- `switch_vcpu` returns when the virtual CPU has a machine. -/
theorem wp_switchVcpu {i : Fin ncpu} {Q : Unit → Hyp → Prop} {E : Fault → Hyp → Prop}
    (hcore : s.ram.core < ncpu) (hvm : (s.vcpus i).vm ≠ 0)
    (hQ : ∀ s', Switched s i s' → Q () s') : wp (switchVcpu i) Q E s := by
  simp only [switchVcpu, wp_bind, setCurPcpu, wp_get, hcore, dite_true, wp_set, wp_modifyCore,
    wp_modifyVcpu]
  rw [wp_derefVm (by simpa [Hyp.setVcpu] using hvm)]
  simp only [restoreSysreg, restoreGicContext, wp_bind, wp_get, wp_modifyCore]
  refine hQ _ ⟨rfl, rfl, rfl, rfl, rfl, ?_, ?_, fun c hc => ?_⟩
  · simp [Hyp.setVcpu]
  · simp [Hyp.setVcpu]
  · simp [Hyp.setVcpu, Function.update_of_ne hc]

/-- What `start_vcpu` does: the virtual CPU at the core's place was ready, and runs on its
machine's table. -/
structure Started (s : Hyp) (i : Fin ncpu) (s' : Hyp) : Prop where
  ready : (s.vcpus i).state = .ready
  ram : s'.ram = s.ram
  vms : s'.vms = s.vms
  sysBlk : s'.sysBlk = s.sysBlk
  vcpus : s'.vcpus = Function.update s.vcpus i { s.vcpus i with state := .running }
  tpidr : (s'.cores s.ram.core).tpidrEl2 = some i
  vttbr : (s'.cores s.ram.core).vttbrEl2 = (s.vms (s.vcpus i).vm).vttbr

/-- `start_vcpu`, when the virtual CPU at the core's place is ready and has a machine. -/
theorem wp_startVcpu {i : Fin ncpu} {Q : Unit → Hyp → Prop} {E : Fault → Hyp → Prop}
    (hcore : s.ram.core = i.val) (hready : (s.vcpus i).state = .ready)
    (hvm : (s.vcpus i).vm ≠ 0) (hQ : ∀ s', Started s i s' → Q () s') : wp startVcpu Q E s := by
  obtain ⟨i, hi⟩ := i
  simp only at hcore
  subst hcore
  have hne : ¬ (s.vcpus ⟨s.ram.core, hi⟩).state ≠ .ready := fun h => h hready
  simp only [startVcpu, wp_bind, wp_get, hi, dite_true, if_neg hne]
  exact wp_switchVcpu hi hvm fun s' h =>
    hQ s' ⟨hready, h.ram, h.vms, h.sysBlk, h.vcpus, h.tpidr, h.vttbr⟩

/-- `start_vcpu` returns only then. -/
theorem startVcpu_ends : wp startVcpu (fun _ s' => ∃ i : Fin ncpu, s.ram.core = i.val ∧
    (s.vcpus i).vm ≠ 0 ∧ Started s i s') (fun _ _ => True) s := by
  by_cases hcore : s.ram.core < ncpu
  swap
  · simp only [startVcpu, wp_bind, wp_get, hcore, dite_false, wp_throw]
  by_cases hready : (s.vcpus ⟨s.ram.core, hcore⟩).state = .ready
  swap
  · simp only [startVcpu, wp_bind, wp_get, hcore, dite_true, ne_eq, hready, not_false_eq_true,
      if_true, wp_abort]
  by_cases hvm : (s.vcpus ⟨s.ram.core, hcore⟩).vm = 0
  · have hne : ¬ (s.vcpus ⟨s.ram.core, hcore⟩).state ≠ .ready := fun h => h hready
    simp only [startVcpu, wp_bind, wp_get, hcore, dite_true, if_neg hne, switchVcpu, setCurPcpu,
      wp_set, wp_modifyCore, wp_modifyVcpu, derefVm, Hyp.setVcpu, Function.update_self, hvm, if_true,
      wp_throw]
  · exact wp_startVcpu (i := ⟨s.ram.core, hcore⟩) rfl hready hvm fun s' h => ⟨_, rfl, hvm, h⟩

/-- Turning a virtual CPU on, which is in use. -/
theorem Slots.cpuOn {i : Fin ncpu} {targetCpu entryAddr : BitVec 64} (S : Slots start s)
    (hused : (s.vcpus i).state ≠ .unused) : Slots start (s.cpuOn P i targetCpu entryAddr) := by
  refine S.congr rfl rfl (fun j => ?_) fun j => ?_
  · by_cases hj : j = i
    · subst hj
      rw [cpuOn_vcpus, Function.update_self]
      rfl
    · rw [cpuOn_vcpus, Function.update_of_ne hj]
  · by_cases hj : j = i
    · subst hj
      rw [cpuOn_vcpus, Function.update_self]
      exact ⟨fun h => (by cases h), fun h => absurd h hused⟩
    · rw [cpuOn_vcpus, Function.update_of_ne hj]

theorem Slots.started {i : Fin ncpu} (S : Slots start s) (h : Started s i s') : Slots start s' := by
  have hvcpus := h.vcpus
  refine S.congr h.vms h.sysBlk (fun j => ?_) fun j => ?_
  · by_cases hj : j = i
    · subst hj
      rw [hvcpus, Function.update_self]
    · rw [hvcpus, Function.update_of_ne hj]
  · by_cases hj : j = i
    · subst hj
      rw [hvcpus, Function.update_self, h.ready]
      exact ⟨fun h => (by cases h), fun h => (by cases h)⟩
    · rw [hvcpus, Function.update_of_ne hj]

theorem Slots.onCore (S : Slots start s) (core : ℕ) : Slots start (s.onCore core) :=
  S.congr rfl rfl (fun _ => rfl) fun _ => Iff.rfl

/-- The virtual CPU that a virtual CPU in use turns on is at the place of its number. -/
theorem Slots.target {v i : Fin ncpu} {targetCpu : BitVec 64} (S : Slots start s)
    (hv : (s.vcpus v).state ≠ .unused) (h : Targets s v targetCpu i) :
    ∃ base n, Owns s (s.vcpus v).vm base n ∧ targetCpu.toNat < n ∧
      i.val = base + targetCpu.toNat ∧ (s.vcpus i).state ≠ .unused := by
  obtain ⟨base, n, O⟩ := S.owner v hv
  obtain ⟨_, hlt, hslot⟩ := h
  obtain ⟨hn, hi⟩ := (O.slots _ i).mp hslot
  simp only at hn hi
  exact ⟨base, n, O, hn, hi, O.used i (by omega) (by omega)⟩

/-- What a step does to the virtual CPUs. -/
inductive VcpuStep (P : Platform) (start : ℕ) (core : Fin ncpu) (s : Hyp) : HypEvent → Hyp → Prop
  | create {cfg : VmConfig} {s' : Hyp} {vm base : ℕ} {live : List ℕ} : Used s base →
      (∀ i, (s.vcpus i).state ≠ .unused → (s.vcpus i).vm ∈ live) →
      Guested start live base cfg (s.onCore core) vm s' → VcpuStep P start core s (.create cfg) s'
  | start {s' : Hyp} : Started (s.onCore core) core s' →
      VcpuStep P start core s .start s'
  | cpuOn {v i : Fin ncpu} {targetCpu entryAddr : BitVec 64} : Targets s v targetCpu i →
      (s.vcpus i).state ≠ .unused →
      VcpuStep P start core s (.cpuOn v targetCpu entryAddr)
        ((s.onCore core).cpuOn P i targetCpu entryAddr)

/-- **One step** keeps the virtual CPUs with their machines. -/
theorem HypStep.slots {ev : HypEvent} (S : Slots start s) (h : HypStep P core ev s s') :
    Slots start s' ∧ VcpuStep P start core s ev s' := by
  cases h with
  | create hrun =>
      have hend := ok_of_wp (createGuestVm_ends (S.onCore core)) hrun
      obtain ⟨S', vm, base, live, hu, hlive, G⟩ := hend
      exact ⟨S', .create hu hlive G⟩
  | start hrun =>
      have hend := ok_of_wp startVcpu_ends hrun
      obtain ⟨i, hi, _, hs⟩ := hend
      have hcore : i = core := Fin.ext hi.symm
      subst hcore
      exact ⟨(S.onCore i).started hs, .start hs⟩
  | cpuOn hv _ hrun =>
      obtain ⟨i, hi, _, rfl⟩ := vpsciTrapSmc_cpuon_inv hrun
      obtain ⟨_, _, _, _, _, hused⟩ := S.target hv hi
      exact ⟨(S.onCore core).cpuOn hused, .cpuOn hi hused⟩

/-- **Every state of a run** has its virtual CPUs with their machines. -/
theorem HypRun.slots {trace : List Transition} (himg : IsImage himageEnd)
    (h : HypRun P himageEnd trace s) : Slots (poolStart himageEnd) s ∧
      ∀ tr ∈ trace, Slots (poolStart himageEnd) tr.pre ∧
        ∃ core, VcpuStep P (poolStart himageEnd) core tr.pre tr.event tr.post := by
  induction h with
  | boot hboot => exact ⟨(hboot.slots himg).1, fun tr htr => absurd htr List.not_mem_nil⟩
  | step _ hstep ih =>
      obtain ⟨S, hall⟩ := ih
      obtain ⟨S', hs⟩ := hstep.slots S
      refine ⟨S', fun tr htr => ?_⟩
      rcases List.mem_cons.mp htr with rfl | htr
      · exact ⟨S, _, hs⟩
      · exact hall tr htr

end steps

/-! ## What the parts of making a machine leave alone -/

/-- What `f` reads of the state is not on the heap and not in memory, and of the machines it is at
most the virtual CPUs. -/
structure Hyp.Aside {ρ : Type} (f : Hyp → ρ) : Prop where
  heap : ∀ h s, f (Hyp.heapPart.set h s) = f s
  ram : ∀ r s, f (Hyp.ramPart.set r s) = f s
  vm : ∀ s vm V, V.vcpus = (s.vms vm).vcpus → f (s.setVm vm V) = f s

namespace Hyp.Aside

variable {ρ : Type} {f : Hyp → ρ}

theorem keeps_heap {α : Type} (A : Aside f) (x : Exec Heap α) : Keeps f (zoom heapPart x) :=
  .zoom x A.heap

theorem keeps_ram {α : Type} (A : Aside f) (x : Exec Ram α) : Keeps f (zoom ramPart x) :=
  .zoom x A.ram

theorem keeps_storeLe (A : Aside f) (a n v : ℕ) : Keeps f (storeLe a n v) :=
  .modify fun s => A.ram _ s

theorem keeps_derefVm (f : Hyp → ρ) (vm : ℕ) : Keeps f (derefVm vm) :=
  .bind .get fun _ => .ite (.throw _) (.pure _)

theorem keeps_spinLock {l : Lens Hyp Spinlock} (h : ∀ k s, f (l.set k s) = f s) (core : ℕ) :
    Keeps f (spinLock l core) := by
  refine .bind .get fun s => ?_
  cases archSpinLock core (l.get s) with
  | ok k => exact .modify (h k)
  | error e => exact .throw e

theorem keeps_spinUnlock {l : Lens Hyp Spinlock} (h : ∀ k s, f (l.set k s) = f s) (core : ℕ) :
    Keeps f (spinUnlock l core) := by
  refine .bind .get fun s => ?_
  cases archSpinUnlock core (l.get s) with
  | ok k => exact .modify (h k)
  | error e => exact .throw e

theorem keeps_createVgicCpu (A : Aside f) (vcpuid : ℕ) : Keeps f (createVgicCpu vcpuid) := by
  have hinit : ∀ affinity a, Keeps f (initIrqConfig affinity a) := fun affinity a =>
    (A.keeps_storeLe _ _ _).bind fun _ => (A.keeps_storeLe _ _ _).bind fun _ =>
      A.keeps_storeLe _ _ _
  refine (A.keeps_heap _).bind fun r => ?_
  cases r with
  | none => exact .throw _
  | some a =>
      refine (A.keeps_storeLe _ _ _).bind fun _ => ?_
      refine Keeps.bind (.forRange fun i => hinit _ _) fun _ => ?_
      exact Keeps.bind (.forRange fun i => hinit _ _) fun _ => .pure _

end Hyp.Aside

/-- What `f` reads of the state is not on the heap and not in memory, and of the machines neither
the regions nor the lock. -/
structure Hyp.Unlisted {ρ : Type} (f : Hyp → ρ) : Prop where
  heap : ∀ h s, f (Hyp.heapPart.set h s) = f s
  ram : ∀ r s, f (Hyp.ramPart.set r s) = f s
  list : ∀ s vm a l, f (s.setVm vm { s.vms vm with vmmios := a, vmLock := l }) = f s

theorem Hyp.Aside.unlisted {ρ : Type} {f : Hyp → ρ} (A : Hyp.Aside f) : Hyp.Unlisted f :=
  ⟨A.heap, A.ram, fun s vm _ _ => A.vm s vm _ rfl⟩

namespace Hyp.Unlisted

variable {ρ : Type} {f : Hyp → ρ}

theorem keeps_storeLe (U : Unlisted f) (a n v : ℕ) : Keeps f (storeLe a n v) :=
  .modify fun s => U.ram _ s

theorem keeps_vmmioHandlerRegister (U : Unlisted f) (vm ipa size r w : ℕ) :
    Keeps f (vmmioHandlerRegister vm ipa size r w) := by
  have hlock : ∀ k s, f ((vmLockPart vm).set k s) = f s :=
    fun k s => U.list s vm (s.vms vm).vmmios k
  refine .ite (.pure _) (.bind .get fun _ => ?_)
  refine (Aside.keeps_spinLock hlock _).bind fun _ => Keeps.bind (.zoom _ U.heap) fun n => ?_
  cases n with
  | none => exact .throw _
  | some new =>
      refine .bind .get fun _ => (U.keeps_storeLe _ _ _).bind fun _ => ?_
      refine Keeps.bind (.modify fun s => U.list s vm new (s.vms vm).vmLock) fun _ => ?_
      refine .bind .get fun _ => (Aside.keeps_spinUnlock hlock _).bind fun _ => ?_
      refine (U.keeps_storeLe _ _ _).bind fun _ => (U.keeps_storeLe _ _ _).bind fun _ => ?_
      exact (U.keeps_storeLe _ _ _).bind fun _ => (U.keeps_storeLe _ _ _).bind fun _ => .pure _

theorem keeps_createMmioTrap (U : Unlisted f) (vm ipa size r w : ℕ) :
    Keeps f (createMmioTrap vm ipa size r w) := by
  have hrest : Keeps f (do let _ ← vmmioHandlerRegister vm ipa size r w) :=
    (U.keeps_vmmioHandlerRegister _ _ _ _ _).bind fun _ => .pure _
  refine (Aside.keeps_derefVm f _).bind fun V => Keeps.bind (.zoom _ U.ram) fun e => ?_
  cases e with
  | none => exact hrest
  | some _ => exact Keeps.bind (.zoom _ U.ram) fun _ => hrest

theorem keeps_createVgicDist (U : Unlisted f) (P : Platform) (vm : ℕ) :
    Keeps f (createVgicDist P vm) := by
  refine Keeps.bind (.zoom _ U.heap) fun r => ?_
  cases r with
  | none => exact .throw _
  | some vgicDist =>
      refine .bind .get fun _ => (U.keeps_storeLe _ _ _).bind fun _ => ?_
      refine (U.keeps_storeLe _ _ _).bind fun _ => Keeps.bind (.zoom _ U.heap) fun n => ?_
      cases n with
      | none => exact (U.keeps_storeLe _ _ _).bind fun _ => .throw _
      | some spis =>
          refine (U.keeps_storeLe _ _ _).bind fun _ => ?_
          refine (U.keeps_createMmioTrap _ _ _ _ _).bind fun _ => ?_
          exact (U.keeps_createMmioTrap _ _ _ _ _).bind fun _ => .pure _

end Hyp.Unlisted

/-! ## What making a machine leaves alone -/

/-- What `f` reads of the state is neither of the machines nor of the virtual CPUs. -/
structure Hyp.Outside {ρ : Type} (f : Hyp → ρ) : Prop extends Hyp.Aside f where
  machine : ∀ s vm V, f (s.setVm vm V) = f s
  vcpu : ∀ s i v, f (s.setVcpu i v) = f s
  lock : ∀ k s, f (Hyp.vcpusLockPart.set k s) = f s

namespace Hyp.Outside

variable {ρ : Type} {f : Hyp → ρ}

theorem keeps_modifyVm (O : Outside f) (vm : ℕ) (g : Vm → Vm) : Keeps f (modifyVm vm g) :=
  .modify fun s => O.machine s vm _

theorem keeps_modifyVcpu (O : Outside f) (i : Fin ncpu) (g : Vcpu → Vcpu) :
    Keeps f (modifyVcpu i g) :=
  .modify fun s => O.vcpu s i _

theorem keeps_vcpuScan (O : Outside f) (is : List (Fin ncpu)) : Keeps f (vcpuScan is) := by
  induction is with
  | nil => exact .throw _
  | cons i rest ih =>
      refine .bind .get fun s => .ite ?_ ih
      refine (O.keeps_modifyVcpu _ _).bind fun _ => .bind .get fun _ => ?_
      exact (Aside.keeps_spinUnlock O.lock _).bind fun _ => .pure _

theorem keeps_createVcpu (O : Outside f) (vm vcpuid : ℕ) (entry : BitVec 64) :
    Keeps f (createVcpu vm vcpuid entry) := by
  refine Keeps.bind (.bind .get fun s => ?_) fun r => ?_
  · exact (Aside.keeps_spinLock O.lock _).bind fun _ => O.keeps_vcpuScan _
  · cases r with
    | none => exact .throw _
    | some i =>
        refine (O.keeps_modifyVcpu _ _).bind fun _ => .bind .get fun _ => .bind .get fun _ => ?_
        refine (O.keeps_modifyVcpu _ _).bind fun _ => ?_
        have hrest : Keeps f (do
            let vgicCpu ← createVgicCpu vcpuid
            modifyVcpu i fun v => { v with vgicCpu := vgicCpu }
            let vmcr := ((← get).cores (← get).ram.core).ichVmcrEl2
            modifyVcpu i fun v => { v with gicContext := { v.gicContext with vmcr := vmcr } }
            pure i) := by
          refine (O.keeps_createVgicCpu _).bind fun _ => ?_
          refine (O.keeps_modifyVcpu _ _).bind fun _ => .bind .get fun _ => .bind .get fun _ => ?_
          exact (O.keeps_modifyVcpu _ _).bind fun _ => .pure _
        refine Keeps.ite ?_ hrest
        exact (Aside.keeps_derefVm _ _).bind fun _ => (O.keeps_modifyVcpu _ _).bind fun _ => hrest

theorem keeps_addVcpu (O : Outside f) (vm cpu : ℕ) (entry : BitVec 64) :
    Keeps f (addVcpu vm cpu entry) := by
  refine (O.keeps_createVcpu _ _ _).bind fun i => ?_
  split
  · exact O.keeps_modifyVm _ _
  · exact .throw _

theorem keeps_vmInit (O : Outside f) (vm : ℕ) (image : Guest) (vmConfig : VmConfig) :
    Keeps f (vmInit vm image vmConfig) := by
  refine (O.keeps_modifyVm _ _).bind fun _ => ?_
  refine Keeps.bind (.ite (O.keeps_modifyVm _ _) (.throw _)) fun _ => ?_
  refine (O.keeps_modifyVm _ _).bind fun _ => (O.keeps_modifyVm _ _).bind fun _ => ?_
  refine (O.keeps_modifyVm _ _).bind fun _ => (O.keeps_addVcpu _ _ _).bind fun _ => ?_
  exact Keeps.bind (.forRange fun cpu => O.keeps_addVcpu _ _ _) fun _ => .pure _

/-- **Making a machine** leaves what is outside alone. -/
theorem keeps_createGuestVm (O : Outside f) (P : Platform) (vmConfig : VmConfig) :
    Keeps f (createGuestVm P vmConfig) := by
  refine Keeps.bind ?_ fun _ => .pure _
  unfold buildGuestVm
  cases vmConfig.guestImage with
  | none => exact .throw _
  | some image =>
      refine .ite (.throw _) ((O.keeps_heap _).bind fun r => ?_)
      cases r with
      | none => exact .throw _
      | some vm =>
          refine (O.keeps_vmInit _ _ _).bind fun _ => (O.keeps_ram _).bind fun n => ?_
          cases n with
          | none => exact .throw _
          | some vttbr =>
              refine (O.keeps_modifyVm _ _).bind fun _ => (O.keeps_ram _).bind fun _ => ?_
              refine (O.keeps_ram _).bind fun _ => ?_
              refine (O.unlisted.keeps_createVgicDist _ _).bind fun _ => ?_
              refine (O.keeps_modifyVm _ _).bind fun _ => Keeps.bind (.bind .get fun s => ?_)
                fun _ => .pure _
              split
              · exact .throw _
              · exact O.keeps_modifyVcpu _ _

end Hyp.Outside

/-! ## Calls to the firmware

Making a machine calls the firmware nowhere. -/

namespace Hyp

theorem aside_smcs : Aside smcs := ⟨fun _ _ => rfl, fun _ _ => rfl, fun _ _ _ _ => rfl⟩

theorem outside_smcs : Outside smcs :=
  ⟨aside_smcs, fun _ _ _ => rfl, fun _ _ _ => rfl, fun _ _ => rfl⟩

theorem keeps_smcs_modifyVcpu (i : Fin ncpu) (f : Vcpu → Vcpu) : Keeps smcs (modifyVcpu i f) :=
  outside_smcs.keeps_modifyVcpu i f

theorem keeps_smcs_modifyCore (f : CoreRegs → CoreRegs) : Keeps smcs (modifyCore f) :=
  .modify fun _ => rfl

/-- Starting a virtual CPU makes none either. -/
theorem keeps_smcs_startVcpu : Keeps smcs startVcpu := by
  have hcur : ∀ i, Keeps smcs (setCurPcpu i) := fun i => .get_bind fun s => by
    split <;> rfl
  refine .bind .get fun s => ?_
  split
  · refine .ite (.throw _) ((hcur _).bind fun _ => (keeps_smcs_modifyCore _).bind fun _ => ?_)
    refine (keeps_smcs_modifyVcpu _ _).bind fun _ => .bind .get fun _ => ?_
    refine (Aside.keeps_derefVm _ _).bind fun _ => (keeps_smcs_modifyCore _).bind fun _ => ?_
    exact Keeps.bind (.bind .get fun _ => keeps_smcs_modifyCore _) fun _ =>
      .bind .get fun _ => keeps_smcs_modifyCore _
  · exact .throw _

/-- Booting makes none. -/
theorem keeps_smcs_hyperInit (himageEnd : ℕ) : Keeps smcs (hyperInit himageEnd) :=
  (aside_smcs.keeps_heap _).bind fun _ => (aside_smcs.keeps_ram _).bind fun _ =>
    Keeps.bind (.modify fun _ => rfl) fun _ => .modify fun _ => rfl

end Hyp

/-! ## Runs that exist -/

/-- A state in which machines can be made: blocks of the classes `blocks`, the pages `l₀` and
the virtual CPUs from `base` on are there. -/
structure Provided (start : ℕ) (spis : ℤ) (blocks : List (Fin blkSliceBit)) (l₀ : List ℕ)
    (base : ℕ) (s : Hyp) : Prop where
  able : Able start spis blocks s
  pool : s.ram.Pool l₀
  high : HighPages start l₀
  used : Used s base

section exist
variable {P : Platform} {himageEnd : ℕ} {spis : ℤ} {blocks : List (Fin blkSliceBit)}

/-- The variables before boot, zeroed but for the number of interrupts. -/
def unbooted (spis : ℤ) : Hyp :=
  { zeroHyp ⟨0, fun _ => 0, ⟨.leftBy 0, 0⟩⟩ (freshPool (.leftBy 0) 0) with gicMaxSpi := spis }

/-- **Booting returns**, and blocks that fit a slice for each class can be taken. -/
theorem exists_booted (himg : IsImage himageEnd)
    (hblocks : ∀ c : Fin blkSliceBit, blocks.count c * 2 ^ c.val ≤ 1024) :
    ∃ s, Booted himageEnd s ∧ Provided (poolStart himageEnd) spis blocks
      (initPages himageEnd ((phyEnd - himageEnd) / pageSize)) 0 s ∧ s.smcs = [] := by
  have hhigh : HighPages (poolStart himageEnd)
      (initPages himageEnd ((phyEnd - himageEnd) / pageSize)) := by
    refine himg.highPages fun p hp => ?_
    obtain ⟨i, _, rfl⟩ := mem_initPages.mp hp
    exact Nat.le_add_right _ _
  have hroom : ∀ lock, (freshPool lock (poolStart himageEnd)).RoomFor blocks := by
    intro lock
    refine ⟨fun c => Nat.zero_le _, fun c _ => ⟨rfl, rfl⟩, fun c => ?_⟩
    rw [show ((freshPool lock (poolStart himageEnd)).blkList c).sliceOffset = 0 from rfl,
      Nat.zero_add]
    exact hblocks c
  have hwp : wp (hyperInit himageEnd) (fun _ s => s.ram.Pool
      (initPages himageEnd ((phyEnd - himageEnd) / pageSize)) ∧ Able (poolStart himageEnd) spis
      blocks s) (fun _ _ => False) (unbooted spis) := by
    rw [hyperInit, wp_bind, wp_zoom, xmallocInit]
    refine (wp_blkPoolInit himg.region).mpr ?_
    generalize ht : Hyp.heapPart.set _ (unbooted spis) = t
    have hpages : t.ram.pages = ⟨.leftBy 0, 0⟩ := by
      simp only [← ht, Hyp.set_heapPart, unbooted, zeroHyp]
    have hpool : t.sysBlk = freshPool (archSpinlockInit (.leftBy 0)) (poolStart himageEnd) := by
      simp only [← ht, Hyp.set_heapPart, unbooted, zeroHyp, freshPool, Hyp.get_heapPart]
    have hlock : t.vcpusLock.word = 0 := by
      simp only [← ht, Hyp.set_heapPart, unbooted, zeroHyp]
    have hspis : t.gicMaxSpi = spis := by
      simp only [← ht, Hyp.set_heapPart, unbooted]
    clear ht
    have hable : wp (do
        zoom Hyp.ramPart (kallocInit himageEnd)
        pcpuInit
        vcpuInit) (fun _ s => Able (poolStart himageEnd) spis blocks s) (fun _ _ => True) t := by
      rw [wp_bind]
      refine wp_ramPart_ends fun _ r _ => ?_
      simp only [pcpuInit, vcpuInit, wp_bind, wp_modify]
      have hfree : (archSpinlockInit (.leftBy 0)).word = 0 := by decide
      refine ⟨⟨[], ?_⟩, ?_, ?_, ?_, hspis⟩
      · simp only [Hyp.get_heapPart, hpool]
        exact freshPool_blocks himg.region _ _ _
      · simp only [hpool]
        exact hroom _
      · simp only [hpool, freshPool, hfree]
      · simp only [archSpinlockInit, hlock]
        rfl
    refine wp_mono (wp_total (hyperInit_pages himg ?_ ?_) hable) (fun _ _ h => h) fun _ _ h => h
    · rw [hpages]
      rfl
    · rw [hpages]
  obtain ⟨_, s, hs, H, A⟩ := exists_ok_of_wp hwp
  have hboot : Booted himageEnd s := ⟨unbooted spis, rfl, rfl, hs⟩
  exact ⟨s, hboot, ⟨A, H, hhigh, (hboot.slots himg).2⟩, (Hyp.keeps_smcs_hyperInit _).of_ok hs⟩

/-- **A run goes on with a machine** when what it needs is there. -/
theorem Provided.create {trace : List Transition} {s : Hyp} {l₀ : List ℕ} {base : ℕ}
    {c : Fin blkSliceBit} {cfg : VmConfig} {image dtb initrd : Guest}
    (V : Provided (poolStart himageEnd) spis (cfg.blocks c ++ blocks) l₀ base s)
    (himg : IsImage himageEnd) (hrun : HypRun P himageEnd trace s) (hc : ofClass (nspis spis) c)
    (hfit : base + cfg.slots ≤ ncpu) (C : Creatable l₀ cfg image dtb initrd)
    (hlen : cfg.pages image dtb ≤ l₀.length) :
    ∃ s' vm l live, HypRun P himageEnd (⟨s, .create cfg, s'⟩ :: trace) s' ∧
      Guested (poolStart himageEnd) live base cfg (s.onCore 0) vm s' ∧
      (∀ i, (s.vcpus i).state ≠ .unused → (s.vcpus i).vm ∈ live) ∧
      Provided (poolStart himageEnd) spis blocks l (base + cfg.slots) s' ∧
      (∀ p ∈ l, p ∈ l₀) ∧ l₀.length ≤ l.length + cfg.pages image dtb ∧ s'.smcs = s.smcs := by
  obtain ⟨live, H, hlive⟩ := (hrun.slots himg).1.heap
  have A : Able (poolStart himageEnd) spis (cfg.blocks c ++ blocks) (s.onCore 0) :=
    V.able.congr rfl V.able.vcpus_free rfl
  have Hpool : (s.onCore 0).ram.Pool l₀ := V.pool.frame rfl fun _ _ _ _ => rfl
  have hu : Used (s.onCore 0) base := V.used
  have hwp := @wp_total _ _ _ _ _ _ (fun _ _ => False) _
    (buildGuestVm_returns (P := P) A hc hu hfit C Hpool V.high hlen)
    (buildGuestVm_ends hu (H.congr rfl))
  have hwp' : wp (createGuestVm P cfg) (fun _ s' => ∃ vm, (Able (poolStart himageEnd) spis blocks s' ∧
      ∃ l, s'.ram.Pool l ∧ (∀ p ∈ l, p ∈ l₀) ∧ l₀.length ≤ l.length + cfg.pages image dtb) ∧
      Guested (poolStart himageEnd) live base cfg (s.onCore 0) vm s') (fun _ _ => False)
      (s.onCore 0) := by
    rw [createGuestVm, wp_bind]
    refine wp_mono hwp (fun vm s' h => ⟨vm, h⟩) fun _ _ h => h
  obtain ⟨_, s', hs', vm, ⟨A', l, H', hsub, hlen'⟩, G⟩ := exists_ok_of_wp hwp'
  have hstep : HypStep P 0 (.create cfg) s s' := .create hs'
  have hsmcs : s'.smcs = (s.onCore 0).smcs := (Hyp.outside_smcs.keeps_createGuestVm P cfg).of_ok hs'
  exact ⟨s', vm, l, live, .step hrun hstep, G, hlive, ⟨A', H',
    ⟨fun p hp => V.high.device p (hsub p hp), fun p hp => V.high.heap p (hsub p hp)⟩,
    G.run.used hu (by decide)⟩, hsub, hlen', hsmcs⟩

/-- The small guest can be loaded from any pages behind its images. -/
theorem smallGuest_creatable {l₀ : List ℕ} (hl : ∀ p ∈ l₀, 0x8000 ≤ p) :
    Creatable l₀ smallGuest ⟨[], 0x5000, 0x5010, 0x10⟩ ⟨[], 0x6001, 0x6004, 3⟩
      ⟨[], 0x7003, 0x7008, 5⟩ := by
  refine ⟨fun r l h => ?_, ⟨?_, ?_⟩, by decide, by decide, by decide, by decide⟩
  · exact smallGuest_plan fun p hp => Or.inr (hl p (h ▸ hp))
  · intro image h
    cases h
    refine ⟨by decide, by decide, fun x hlo _ hgic => ?_⟩
    have hle : 0x40000000 ≤ x := hlo
    simp only [InGicBlock, gicdBase] at hgic
    omega
  · intro dtb h
    cases h
    refine ⟨by decide, by decide, fun x hlo _ hgic => ?_⟩
    have hle : 0x48000000 ≤ x := hlo
    simp only [InGicBlock, gicdBase] at hgic
    omega

theorem smallGuest_placed : GuestPlaced smallGuest :=
  (@smallGuest_creatable [] fun _ hp => absurd hp List.not_mem_nil).placed

/-- An image that leaves 32 pages of memory. -/
abbrev bootEnd : ℕ := 0x4ffe0000

theorem isImage_bootEnd : IsImage bootEnd := by constructor <;> decide

theorem smallGuest_high {p : ℕ} (hp : p ∈ initPages bootEnd ((phyEnd - bootEnd) / pageSize)) :
    0x8000 ≤ p := by
  obtain ⟨i, _, rfl⟩ := mem_initPages.mp hp
  exact Nat.le_add_right_of_le (by decide)

/-- A run that makes one small guest with two virtual CPUs. -/
theorem exists_one_guest (P : Platform) : ∃ s s' vm live l₀,
    HypRun P bootEnd [⟨s, .create { smallGuest with ncpu := 2 }, s'⟩] s' ∧
    Guested (poolStart bootEnd) live 0 { smallGuest with ncpu := 2 } (s.onCore 0) vm s' ∧
    s.ram.Pool l₀ ∧ HighPages (poolStart bootEnd) l₀ ∧ s'.smcs = [] := by
  obtain ⟨s, hboot, V, hsmcs⟩ := @exists_booted bootEnd 63
    (VmConfig.blocks { smallGuest with ncpu := 2 } 5 ++ []) isImage_bootEnd (by decide)
  obtain ⟨s', vm, _, live, hrun, G, _, _, _, _, hkeep⟩ := V.create isImage_bootEnd
    (HypRun.boot (P := P) hboot) (by decide) (by decide)
    ((smallGuest_creatable fun p => smallGuest_high).withNcpu (by decide)) (by decide)
  exact ⟨s, s', vm, live, _, hrun, G, V.pool, V.high, hkeep.trans hsmcs⟩

/-- Two small guests with one virtual CPU each, made in `s₀` and in `s₁`. -/
structure TwoGuests (P : Platform) (s₀ s₁ s₂ : Hyp) (a b : ℕ) : Prop where
  run : HypRun P bootEnd [⟨s₁, .create smallGuest, s₂⟩, ⟨s₀, .create smallGuest, s₁⟩] s₂
  first : (s₂.vcpus 0).vm = a ∧ (s₂.vcpus 0).state = .ready
  second : (s₂.vcpus 1).vm = b ∧ (s₂.vcpus 1).state = .ready
  ne : a ≠ b
  ne_zero : a ≠ 0
  nvcpu : (s₂.vms b).nvcpu = 1
  made : ∃ live l, Guested (poolStart bootEnd) live 1 smallGuest (s₁.onCore 0) b s₂ ∧
    s₁.ram.Pool l ∧ (∀ p ∈ l, bootEnd ≤ p) ∧ 12 ≤ l.length

/-- A run that makes two small guests. -/
theorem exists_two_guests (P : Platform) : ∃ s₀ s₁ s₂ a b, TwoGuests P s₀ s₁ s₂ a b := by
  obtain ⟨s, hboot, V, _⟩ := @exists_booted bootEnd 63
    (smallGuest.blocks 5 ++ (smallGuest.blocks 5 ++ [])) isImage_bootEnd (by decide)
  obtain ⟨s₁, a, l, live, hrun₁, G₁, _, V₁, hsub, hlen, _⟩ := V.create isImage_bootEnd
    (HypRun.boot (P := P) hboot) (by decide) (by decide)
    (smallGuest_creatable fun p => smallGuest_high) (by decide)
  have hpages : smallGuest.pages ⟨[], 0x5000, 0x5010, 0x10⟩ ⟨[], 0x6001, 0x6004, 3⟩ = 12 := by decide
  have hall : (initPages bootEnd ((phyEnd - bootEnd) / pageSize)).length = 32 := by decide
  rw [hpages, hall] at hlen
  obtain ⟨s₂, b, _, live', hrun₂, G₂, hlive, _⟩ := V₁.create isImage_bootEnd hrun₁ (by decide)
    (by decide) (smallGuest_creatable fun p hp => smallGuest_high (hsub p hp)) (by omega)
  -- the first machine has the first place, and the second one the next
  have ha : (s₁.vcpus 0).vm = a := G₁.run.vm_eq 0 le_rfl (by decide)
  have hfirst : (s₁.vcpus 0).state = .ready := G₁.run.state_eq 0 le_rfl (by decide)
  have hkeep : s₂.vcpus 0 = s₁.vcpus 0 := G₂.run.other_vcpus 0 (by decide)
  have hb : (s₂.vcpus 1).vm = b := G₂.run.vm_eq 1 (by decide) (by decide)
  have hin : a ∈ live' := ha ▸ hlive 0 (by rw [hfirst]; decide)
  have hbehind : ∀ p ∈ l, bootEnd ≤ p := by
    intro p hp
    obtain ⟨i, _, rfl⟩ := mem_initPages.mp (hsub p hp)
    exact Nat.le_add_right _ _
  exact ⟨s, s₁, s₂, a, b, hrun₂, ⟨hkeep ▸ ha, hkeep ▸ hfirst⟩,
    ⟨hb, G₂.run.state_eq 1 (by decide) (by decide)⟩, fun h => G₂.new (h ▸ hin), G₁.ne_zero,
    G₂.nvcpu, live', l, G₂, V₁.pool, hbehind, by omega⟩

end exist

end Xhyper
