import Xhyper.Boot

/-!
# The other core

A guest turns a core on with a call to the firmware.  The hypervisor makes the virtual CPU of that
number ready and passes the call on; the firmware starts the core of that number, which comes to
`hyper_init_secondary`.  It sets up its part of the interrupt controller and its control registers
and enters the virtual CPU.

## Main definitions

* `Soc.Joined` — what `hyper_init_secondary` changes.
* `hyperInitSecondary_joins` — it returns on a core whose virtual CPU is ready.
* `cpu_on_enters` — a guest's call brings another core into the guest.
-/

namespace Xhyper

open Memory Prog

/-! ## `hyper_init_secondary` -/

section secondary
variable {P : Platform} {himageEnd : ℕ} {hyperVector : BitVec 64} {s s' : Soc} {b₀ : Board}
  {trace : List BoardMove} {entered : Fin ncpu → Bool}

/-- The core that runs is about to enter the virtual CPU of its number, and its private interrupts
are off.  Memory, the machines and what the other cores have is as it was. -/
structure Soc.Joined (s s' : Soc) : Prop where
  running : (s'.hyp.cores s.core).tpidrEl2 = some s.core
  vcpus : s'.hyp.vcpus =
    Function.update s.hyp.vcpus s.core { s.hyp.vcpus s.core with state := .running }
  mem : s'.hyp.ram.mem = s.hyp.ram.mem
  vms : s'.hyp.vms = s.hyp.vms
  gicd : s'.hyp.gicd = s.hyp.gicd
  private_off : s'.hyp.gicr s.core = 0#32
  ready : (s'.gic s.core).Ready
  others : ∀ c, c ≠ s.core → s'.hyp.cores c = s.hyp.cores c ∧ s'.hyp.gicr c = s.hyp.gicr c ∧
    s'.el2 c = s.el2 c ∧ s'.gic c = s.gic c

/-- `gic_percpu_init` changes nothing but the registers of the interrupt controller. -/
theorem Soc.PercpuReady.parts (G : s.PercpuReady s') : ∃ gicr cores,
    s'.hyp = Hyp.onCore s.core { s.hyp with gicr := gicr, cores := cores } ∧
      gicr s.core = 0#32 ∧ (∀ c, (cores c).tpidrEl2 = (s.hyp.cores c).tpidrEl2 ∧
        (cores c).vttbrEl2 = (s.hyp.cores c).vttbrEl2) ∧
      ∀ c : ℕ, c ≠ s.core → cores c = s.hyp.cores c ∧ gicr c = s.hyp.gicr c := by
  have hgicr : s'.hyp.gicr = Function.update s.hyp.gicr s.core 0#32 := by rw [G.hyp]
  have hcores : ∀ c : ℕ, c ≠ s.core → s'.hyp.cores c = s.hyp.cores c := by
    intro c hc
    rw [G.hyp]
    exact Function.update_of_ne hc _ _
  refine ⟨s'.hyp.gicr, s'.hyp.cores, ?_, ?_, fun c => ?_, fun c hc => ⟨hcores c hc, ?_⟩⟩
  · rw [G.hyp]
    rfl
  · rw [hgicr, Function.update_self]
  · by_cases hc : c = s.core
    · rw [G.hyp, hc]
      simp only [Function.update_self, and_self]
    · rw [hcores c hc]
      exact ⟨rfl, rfl⟩
  · rw [hgicr, Function.update_of_ne hc]

/-- **The core joins**: `hyper_init_secondary` returns in any state of a run, when the virtual CPU
of the core's number is ready, and the run goes on with it. -/
theorem hyperInitSecondary_joins (himg : IsImage himageEnd) (hboot : BoardBooted himageEnd b₀)
    (hrun : BoardRun P himageEnd hyperVector b₀ trace (s.board entered))
    (hready : (s.hyp.vcpus s.core).state = .ready) :
    ∃ s' trace', hyperInitSecondary hyperVector s = .ok () s' ∧
      BoardRun P himageEnd hyperVector b₀ trace'
        (s'.board (Function.update entered s.core true)) ∧ s.Joined s' := by
  obtain ⟨own, I⟩ := hrun.inv himg hboot
  obtain ⟨_, s₁, h₁, G⟩ := exists_ok_of_wp (gicPercpuInit_spec s)
  -- the virtual CPU has a machine
  have hvm : (s.hyp.vcpus s.core).vm ≠ 0 := by
    have hused : (s.hyp.vcpus s.core).state ≠ .unused := by
      rw [hready]
      decide
    obtain ⟨_, _, O⟩ := I.slots.owner s.core hused
    exact O.ne_zero
  obtain ⟨gicr, cores, hhyp, hgicr, hcores, hsame⟩ := G.parts
  generalize hh : ({ s.hyp with gicr := gicr, cores := cores } : Hyp) = h at *
  have hwp : wp startVcpu (fun _ h' => Started (h.onCore s.core) s.core h') (fun _ _ => False)
      (h.onCore s.core) := by
    refine wp_startVcpu rfl ?_ ?_ fun _ h => h
    · rw [← hh]
      exact hready
    · rw [← hh]
      exact hvm
  obtain ⟨_, h', hstart, T⟩ := exists_ok_of_wp hwp
  have hothers := wp_partial.mp startVcpu_others () h' hstart
  have hkeeps : Keeps (fun h : Hyp => (h.gicd, h.gicr)) startVcpu :=
    Hyp.outside_gic.keeps_startVcpu (fun _ _ => rfl) fun _ _ => rfl
  have hgic := hkeeps.of_ok hstart
  rw [Prod.mk.injEq] at hgic
  -- as a run of the board: the registers change, and the core starts
  have hstep₁ : BoardStep P himageEnd hyperVector s.core .gic (s.board entered)
      { s.board entered with hyp := h } := by
    rw [← hh]
    exact .gic hcores
  have hstep₂ := @BoardStep.start P himageEnd hyperVector s.core { s.board entered with hyp := h } h'
    hstart
  have hlast : hyperInitSecondary hyperVector s = .ok () { s₁ with
      hyp := h'
      el2 := Function.update s.el2 s.core
        (hyperSetup hyperVector (stage2MmuInit (s.el2 s.core))) } := by
    rw [hyperInitSecondary, bind_of_ok h₁, setupEl2_bind, G.core, G.el2]
    refine onHyp_of_ok ?_
    rw [Soc.here, hhyp]
    exact hstart
  refine ⟨_, _, hlast, (hrun.step hstep₁).step hstep₂, T.tpidr, ?_, ?_, ?_, ?_, ?_, G.ready, ?_⟩
  · rw [T.vcpus, ← hh]
    rfl
  · rw [T.ram, ← hh]
    rfl
  · rw [T.vms, ← hh]
    rfl
  · rw [hgic.1, ← hh]
    rfl
  · rw [hgic.2, ← hgicr, ← hh]
    rfl
  · intro c hc
    have hne : c.val ≠ s.core := fun heq => hc (Fin.ext heq)
    obtain ⟨hcores_c, hgicr_c⟩ := hsame c hne
    refine ⟨?_, ?_, Function.update_of_ne hc _ _, G.others c hc⟩
    · rw [hothers c hne, ← hcores_c, ← hh]
      rfl
    · rw [hgic.2, ← hgicr_c, ← hh]
      rfl

end secondary

/-! ## The call -/

/-- The state after a call of the virtual CPU `v` was answered with `r`, and `n` added to the
address it returns to. -/
def Hyp.answered (s : Hyp) (v : Fin ncpu) (r n : BitVec 64) : Hyp :=
  s.setVcpu v { s.vcpus v with regs := { (s.vcpus v).regs with
    x := Function.update (s.vcpus v).regs.x 0 r
    elr := (s.vcpus v).regs.elr + n } }

section call
variable {P : Platform} {H : VmmioHandlers} {esr far hpfar n : BitVec 64} {v i : Fin ncpu} {s : Hyp}

/-- The syndrome of an `hvc` or an `smc` with the immediate 0, and what the return address is
advanced by. -/
def IsCall (esr n : BitVec 64) : Prop :=
  esr &&& 0x1ffffff#64 = 0 ∧
    (esr >>> 26 &&& 0x3f#64 = 0x16#64 ∧ n = 0 ∨ esr >>> 26 &&& 0x3f#64 = 0x17#64 ∧ n = 4)

theorem IsCall.ne_abort (h : IsCall esr n) : esr >>> 26 &&& 0x3f#64 ≠ 0x24#64 := by
  obtain ⟨_, ⟨hec, _⟩ | ⟨hec, _⟩⟩ := h
  · rw [hec]
    decide
  · rw [hec]
    decide

/-- **A guest's `CPU_ON`** that names one of the machine's virtual CPUs. -/
theorem el1SyncProc_cpuOn (hrunning : (s.cores s.ram.core).tpidrEl2 = some v) (hcall : IsCall esr n)
    (hfun : (s.vcpus v).regs.x 0 = psciSystemCpuon)
    (ht : Targets s v ((s.vcpus v).regs.x 1) i) :
    el1SyncProc P H esr far hpfar s = .ok ()
      ((s.cpuOn P i ((s.vcpus v).regs.x 1) ((s.vcpus v).regs.x 2)).answered v
        (P.cpuOnAnswer s ((s.vcpus v).regs.x 1)) n) := by
  obtain ⟨hiss, hec⟩ := hcall
  generalize ht₁ : s.cpuOn P i ((s.vcpus v).regs.x 1) ((s.vcpus v).regs.x 2) = t
  generalize hr : P.cpuOnAnswer s ((s.vcpus v).regs.x 1) = r
  have hsmc : vpsciTrapSmc P v ((s.vcpus v).regs.x 0) ((s.vcpus v).regs.x 1) ((s.vcpus v).regs.x 2)
      s = .ok r t := by
    rw [hfun, vpsciTrapSmc_cpuon ht, ht₁, hr]
  have hhandler : hvcSmcHandler P v 0 s = .ok 0 (t.setVcpu v { t.vcpus v with
      regs := { (t.vcpus v).regs with x := Function.update (t.vcpus v).regs.x 0 r } }) := by
    have hpsci : vpsciHandler P v s = modifyX v 0 r t := bind_of_ok hsmc
    exact bind_of_ok hpsci
  have hskip : wp (skip v n) (fun _ s' => s' = t.answered v r n) (fun _ _ => False)
      (t.setVcpu v { t.vcpus v with
        regs := { (t.vcpus v).regs with x := Function.update (t.vcpus v).regs.x 0 r } }) := by
    simp [skip, Hyp.answered, Hyp.setVcpu]
  have hwp : wp (el1SyncProc P H esr far hpfar) (fun _ s' => s' = t.answered v r n)
      (fun _ _ => False) s := by
    simp only [el1SyncProc, wp_bind, wp_get, hrunning, hiss]
    rcases hec with ⟨hec, rfl⟩ | ⟨hec, rfl⟩
    · simp only [hec, if_true, wp_bind]
      rw [wp_iff_of_ok hhandler]
      exact hskip
    · rw [hec, if_neg (by decide), if_pos rfl, wp_bind, wp_iff_of_ok hhandler]
      exact hskip
  obtain ⟨_, _, hrun, rfl⟩ := exists_ok_of_wp hwp
  exact hrun

end call

/-! ## The core comes up -/

section turnedOn
variable {P : Platform} {himageEnd : ℕ} {hyperVector : BitVec 64} {s s' : Soc} {b₀ b : Board}
  {trace : List BoardMove} {entered : Fin ncpu → Bool} {hw : GicrHw} {isen : BitVec 32}
  {esr far hpfar n : BitVec 64} {i c : Fin ncpu}

/-- A core that has entered a guest runs the virtual CPU of its own number. -/
theorem BoardRun.number (himg : IsImage himageEnd) (hboot : BoardBooted himageEnd b₀)
    (hrun : BoardRun P himageEnd hyperVector b₀ trace b) (hc : b.entered c = true) :
    (b.hyp.cores c).tpidrEl2 = some c := by
  induction hrun with
  | start =>
      rw [hboot.2 c] at hc
      cases hc
  | @step _ core _ b _ hrun hstep ih =>
      obtain ⟨own, I⟩ := hrun.inv himg hboot
      cases hstep with
      | create _ hmake =>
          have hcores := (Hyp.outside_cores.keeps_createGuestVm P _).of_ok hmake
          exact (congrArg CoreRegs.tpidrEl2 (congrFun hcores c)).trans (ih hc)
      | @start _ s hstart =>
          by_cases hcore : c = core
          · obtain ⟨j, hj, _, T⟩ := ok_of_wp startVcpu_ends hstart
            obtain rfl : j = core := Fin.ext hj.symm
            rw [hcore]
            exact T.tpidr
          · have hothers := wp_partial.mp startVcpu_others () s hstart
            have hkept : s.cores c = b.hyp.cores c := hothers c fun h => hcore (Fin.ext h)
            have hc' : b.entered c = true := (Function.update_of_ne hcore _ _).symm.trans hc
            exact (congrArg CoreRegs.tpidrEl2 hkept).trans (ih hc')
      | trap hcore htrap _ _ =>
          obtain ⟨j, R⟩ := I.guest _ hcore
          have T := ok_of_wp (el1SyncProc_trapped (I.slots.onCore _) R.running R.used _ _ _) htrap
          exact (T.tpidr c).trans (ih hc)
      | compute _ _ => exact ih hc
      | store _ _ =>
          have hsame : ∀ pa val, (b.stored pa val).hyp.cores = b.hyp.cores ∧
              (b.stored pa val).entered = b.entered := by
            intro pa val
            rw [Board.stored]
            split <;> exact ⟨rfl, rfl⟩
          rw [(hsame _ _).2] at hc
          rw [(hsame _ _).1]
          exact ih hc
      | gic hcores => exact (hcores c).1.trans (ih hc)

/-- A call of the guest on the core that runs has brought the core `i` into the guest, at the address
`entry`.  The caller has its answer, and nothing else in memory or on other cores has changed. -/
structure Soc.TurnedOn (s s' : Soc) (entered : Fin ncpu → Bool) (i : Fin ncpu)
    (entry answer n : BitVec 64) : Prop where
  running : (s'.hyp.cores i).tpidrEl2 = some i
  regs : s'.hyp.regsOf i = { s.hyp.regsOf i with elr := entry }
  caller : s'.hyp.regsOf s.core = { s.hyp.regsOf s.core with
    x := Function.update (s.hyp.regsOf s.core).x 0 answer
    elr := (s.hyp.regsOf s.core).elr + n }
  vcpus : ∀ j, j ≠ i → j ≠ s.core → s'.hyp.vcpus j = s.hyp.vcpus j
  mem : s'.hyp.ram.mem = s.hyp.ram.mem
  alike : ∀ ipa k, (s'.board (Function.update entered i true)).access i ipa k =
    (s.board entered).access s.core ipa k
  private_off : s'.hyp.gicr i = 0#32
  ready : (s'.gic i).Ready
  others : ∀ c, c ≠ i → s'.hyp.cores c = s.hyp.cores c ∧ s'.hyp.gicr c = s.hyp.gicr c ∧
    s'.el2 c = s.el2 c ∧ s'.gic c = s.gic c

/-- **A guest turns another core on.**  In any state of a run, a call of the first machine that
names another of its virtual CPUs returns, and tells the firmware to start the core of that number;
what that core does then returns too, and it enters the guest where it was told. -/
theorem cpu_on_enters (himg : IsImage himageEnd) (hboot : BoardBooted himageEnd b₀)
    (hrun : BoardRun P himageEnd hyperVector b₀ trace (s.board entered))
    (hin : entered s.core = true) (hcall : IsCall esr n)
    (hfun : (s.hyp.regsOf s.core).x 0 = psciSystemCpuon)
    (ht : Targets s.hyp s.core ((s.hyp.regsOf s.core).x 1) i)
    (hfirst : (s.hyp.vms (s.hyp.vcpus s.core).vm).vcpus 0 = some 0) (hne : i ≠ s.core) :
    ∃ s₁ s₂ trace', onHyp (el1SyncProc P (vgicHandlers P hw isen) esr far hpfar) s = .ok () s₁ ∧
      s₁.hyp.smcs = ⟨psciSystemCpuon, BitVec.ofNat 64 i, P.start⟩ :: s.hyp.smcs ∧
      hyperInitSecondary hyperVector { s₁ with core := i } = .ok () s₂ ∧
      BoardRun P himageEnd hyperVector b₀ trace' (s₂.board (Function.update entered i true)) ∧
      s.TurnedOn s₂ entered i ((s.hyp.regsOf s.core).x 2)
        (P.cpuOnAnswer s.hyp ((s.hyp.regsOf s.core).x 1)) n := by
  obtain ⟨own, I⟩ := hrun.inv himg hboot
  have hrunning := hrun.number himg hboot hin
  obtain ⟨v, R⟩ := I.guest s.core hin
  obtain rfl : v = s.core := Option.some_inj.mp (R.running.symm.trans hrunning)
  obtain ⟨base, m, O, hm, hi, hused⟩ := I.slots.target R.used ht
  have hbase : base = 0 := by
    obtain ⟨_, h⟩ := (O.slots 0 0).mp hfirst
    simpa using h.symm
  -- the call
  have hsync := @el1SyncProc_cpuOn P (vgicHandlers P hw isen) esr far hpfar n s.core i s.here
    hrunning hcall hfun ht
  generalize ht₁ : Hyp.answered _ _ _ _ = t at hsync
  have hcaller : t.regsOf s.core = { s.hyp.regsOf s.core with
      x := Function.update (s.hyp.regsOf s.core).x 0
        (P.cpuOnAnswer s.hyp ((s.hyp.regsOf s.core).x 1))
      elr := (s.hyp.regsOf s.core).elr + n } := by
    simp [← ht₁, Hyp.answered, Hyp.regsOf, Hyp.setVcpu, Hyp.cpuOn, Platform.cpuOnAnswer, Soc.here,
      Hyp.onCore, hne.symm]
  have htarget : t.vcpus i = (s.hyp.vcpus i).turnOn ((s.hyp.regsOf s.core).x 2) := by
    simp [← ht₁, Hyp.answered, Hyp.regsOf, Hyp.setVcpu, Hyp.cpuOn, Soc.here, Hyp.onCore, hne]
  have hothers : ∀ j, j ≠ i → j ≠ s.core → t.vcpus j = s.hyp.vcpus j := by
    intro j hj hj'
    simp [← ht₁, Hyp.answered, Hyp.setVcpu, Hyp.cpuOn, Soc.here, Hyp.onCore, hj, hj']
  have hmem₁ : t.ram.mem = s.hyp.ram.mem := by
    rw [← ht₁]
    rfl
  have hrun₁ := hrun.step (.of_call hin hcall.ne_abort hsync)
  have hready : (t.vcpus i).state = .ready := by rw [htarget]; rfl
  obtain ⟨s₂, trace', hsec, hrun₂, J⟩ :=
    hyperInitSecondary_joins (s := { s.setHyp t with core := i }) himg hboot hrun₁ hready
  change BoardRun P himageEnd hyperVector b₀ trace' (s₂.board (Function.update entered i true)) at hrun₂
  have hmem : s₂.hyp.ram.mem = s.hyp.ram.mem := by
    rw [J.mem]
    exact hmem₁
  have hvms : s₂.hyp.vms = s.hyp.vms := by
    rw [J.vms, ← ht₁]
    rfl
  refine ⟨s.setHyp t, s₂, trace', onHyp_of_ok hsync, ?_, hsec, hrun₂, J.running, ?_, ?_, ?_, ?_, ?_,
    J.private_off, J.ready, ?_⟩
  · have hnum : BitVec.ofNat 64 i = (s.hyp.regsOf s.core).x 1 := by
      rw [hi, hbase, Nat.zero_add, BitVec.ofNat_toNat, BitVec.setWidth_eq]
    rw [Soc.setHyp_hyp, hnum, ← ht₁]
    rfl
  · rw [Hyp.regsOf, J.vcpus, Function.update_self]
    exact congrArg Vcpu.regs htarget
  · rw [Hyp.regsOf, J.vcpus, Function.update_of_ne hne.symm]
    exact hcaller
  · intro j hj hj'
    rw [J.vcpus, Function.update_of_ne hj]
    exact hothers j hj hj'
  · exact hmem
  · -- both are on the tables of the machine
    intro ipa k
    obtain ⟨own₂, I₂⟩ := hrun₂.inv himg hboot
    obtain ⟨j, R₂⟩ := I₂.guest i (by simp [Soc.board])
    obtain rfl : j = i := Option.some_inj.mp (R₂.running.symm.trans J.running)
    have hvm : (s₂.hyp.vcpus j).vm = (s.hyp.vcpus s.core).vm := by
      rw [J.vcpus, Function.update_self]
      exact (congrArg Vcpu.vm htarget).trans ((O.mine j hused).mpr (by omega))
    rw [I₂.access_eq R₂, I.access_eq R]
    simp only [Soc.board, hvm, hmem, hvms]
  · intro c hc
    obtain ⟨hcores, hgicr, hel2, hgic⟩ := J.others c hc
    rw [hcores, hgicr, ← ht₁]
    exact ⟨rfl, rfl, hel2, hgic⟩

/-- The guest that the primary core enters turns the second core on. -/
theorem cpu_on_enters_second : ∃ (b₀ : Board) (trace trace' : List BoardMove) (s s₁ s₂ : Soc),
    BoardBooted 0x40220000 b₀ ∧
    BoardRun obedient 0x40220000 0x40201000 b₀ trace
      (s.board (Function.update (fun _ => false) 0 true)) ∧
    onHyp (el1SyncProc obedient (vgicHandlers obedient (fun _ _ => 0) 0) (0x17 <<< 26) 0 0) s =
      .ok () s₁ ∧
    hyperInitSecondary 0x40201000 { s₁ with core := 1 } = .ok () s₂ ∧
    BoardRun obedient 0x40220000 0x40201000 b₀ trace'
      (s₂.board (Function.update (Function.update (fun _ => false) 0 true) 1 true)) ∧
    s.TurnedOn s₂ (Function.update (fun _ => false) 0 true) 1 0x80600000 0 4 := by
  have himg : IsImage 0x40220000 := by constructor <;> decide
  obtain ⟨s, h₁, h₂, vm, live, blocks, hs, R, hmake, G, hstart, T, _⟩ :=
    @primary_calls _ _ _ _ powerOn obedient 0x40201000 himg (by constructor <;> decide) (by decide)
      linked_small (by decide)
  obtain ⟨_, b₀, trace, hboot, hrun⟩ :=
    R.runs rfl (linked_small.creatable_pages himg).placed hmake hstart
  -- the guest puts the call into its registers
  let regs : Regs := { (h₂.vcpus 0).regs with
    x := fun k => if k = 0 then psciSystemCpuon else if k = 1 then 1 else 0x80600000 }
  let t : Soc := { s with
    hyp := h₂.setVcpu 0 { h₂.vcpus 0 with regs := regs }
    core := 0 }
  have hin : Function.update (fun _ => false) (0 : Fin ncpu) true 0 = true := by simp
  have hrun' := hrun.step (@BoardStep.compute _ _ _ 0 _ 0 regs hin T.tpidr)
  have hregs : t.hyp.regsOf 0 = regs := by simp [t, Hyp.regsOf, Hyp.setVcpu]
  have hvm : (t.hyp.vcpus 0).vm = vm := by
    have hsame : (t.hyp.vcpus 0).vm = (h₂.vcpus 0).vm := by simp [t, Hyp.setVcpu]
    rw [hsame, T.vcpus, Function.update_self]
    exact G.run.vm_eq 0 le_rfl (by decide)
  have hplace : ∀ k : Fin ncpu, k.val < 2 → (t.hyp.vms (t.hyp.vcpus 0).vm).vcpus k = some k := by
    intro k hk
    rw [hvm]
    change (h₂.vms vm).vcpus k = some k
    rw [T.vms]
    exact (G.run.slots k k).mpr ⟨hk, (Nat.zero_add _).symm⟩
  have htargets : Targets t.hyp 0 1 1 :=
    ⟨by rw [hvm]; exact G.ne_zero, by decide, hplace 1 (by decide)⟩
  obtain ⟨s₁, s₂, trace', hcall, _, hsec, hrun₂, J⟩ := @cpu_on_enters _ _ _ t _ _ _ (fun _ _ => 0) 0
    (0x17 <<< 26) 0 0 4 1 himg hboot hrun' hin ⟨by decide, Or.inr ⟨by decide, rfl⟩⟩
    (congrArg (fun r => r.x 0) hregs) htargets (hplace 0 (by decide))
    (show (1 : Fin ncpu) ≠ 0 by decide)
  exact ⟨b₀, _, trace', t, s₁, s₂, hboot, hrun', hcall, hsec, hrun₂, J⟩

end turnedOn

end Xhyper
