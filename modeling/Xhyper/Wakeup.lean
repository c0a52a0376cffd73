import Xhyper.HypRun

/-!
# Turning virtual CPUs on, over whole runs

Three numbers are involved in `CPU_ON`: the place of a virtual CPU in the array, its number
in its machine, and the physical core that runs it.  The guest gives the number in the
machine, the firmware starts the core of that number, and the core runs the virtual CPU at
that place.  The three agree for the machine whose virtual CPUs are the first ones.

`vpsci_cpu_on` writes the address and the state before it calls the firmware, and it does not
look at the state.  The life of a virtual CPU is a way forward, and a refused call leaves no
trace, exactly in the runs where that makes no difference.

## Main definitions

* `Woken`, `cpu_on_wakes` — the core that is started runs the virtual CPU that was named.
* `Transition.Orderly`, `cpu_on_orderly` — states advance, and refused calls change nothing.
-/

namespace Xhyper

open Memory Prog

/-! ## The core that is started -/

/-- **The core that is started runs the virtual CPU that was named**: it is `vm->vcpus[t]` of
the caller's machine, ready at the given address, and it runs on the machine's table. -/
def Woken (P : Platform) (s : Hyp) (core : Fin ncpu) (v : Fin ncpu)
    (targetCpu entryAddr : BitVec 64) : Prop :=
  ∃ r s₁ i, vpsciTrapSmc P v psciSystemCpuon targetCpu entryAddr (s.onCore core) = .ok r s₁ ∧
    s₁.smcs.head? = some (P.cpuOnSmc targetCpu) ∧ Targets s v targetCpu i ∧
    (s₁.vcpus i).state = .ready ∧ (s₁.vcpus i).regs.elr = entryAddr ∧
    ∃ s₂, startVcpu (s₁.onCore targetCpu.toNat) = .ok () s₂ ∧
      (s₂.cores targetCpu.toNat).tpidrEl2 = some i ∧
      (s₂.cores targetCpu.toNat).vttbrEl2 = (s.vms (s.vcpus v).vm).vttbr

section wakeup
variable {P : Platform} {himageEnd : ℕ} {start : ℕ} {trace : List Transition} {s : Hyp}
  {v : Fin ncpu} {targetCpu : BitVec 64}

/-- A number that the machine has names one of its virtual CPUs. -/
theorem Slots.exists_target (S : Slots start s) (hv : (s.vcpus v).state ≠ .unused)
    (ht : (targetCpu.toNat : ℤ) < (s.vms (s.vcpus v).vm).nvcpu) :
    ∃ i, Targets s v targetCpu i := by
  obtain ⟨base, n, O⟩ := S.owner v hv
  have hle := O.nvcpu_le
  have hlt : targetCpu.toNat < n := by omega
  have hfit := O.fits _ hlt
  exact ⟨⟨base + targetCpu.toNat, hfit⟩, O.ne_zero, by omega, (O.slots _ _).mpr ⟨hlt, rfl⟩⟩

/-- The first place belongs to the machine whose virtual CPUs are the first ones. -/
theorem Slots.base_eq_zero (S : Slots start s) {vm base n : ℕ} (O : Owns s vm base n)
    (hn : 0 < n) : base = 0 ↔ (s.vcpus 0).vm = vm := by
  have hused : (s.vcpus 0).state ≠ .unused := by
    obtain ⟨u, hu⟩ := S.used
    have hbase := O.used ⟨base, O.fits 0 hn⟩ le_rfl (by simpa using hn)
    rw [ne_eq, hu] at hbase ⊢
    simp only [Fin.val_zero]
    omega
  rw [O.mine 0 hused]
  simp only [Fin.val_zero]
  omega

/-- The core that was started runs the virtual CPU at its own place. -/
theorem Woken.place {core : Fin ncpu} {entryAddr : BitVec 64}
    (h : Woken P s core v targetCpu entryAddr) :
    ∃ i, Targets s v targetCpu i ∧ targetCpu.toNat = i.val := by
  obtain ⟨r, s₁, i, _, _, hi, _, _, s₂, hstart, htpidr, _⟩ := h
  have hend := ok_of_wp startVcpu_ends hstart
  obtain ⟨k, hk, _, hs⟩ := hend
  have hsel := hs.tpidr
  change (s₂.cores targetCpu.toNat).tpidrEl2 = some k at hsel
  rw [htpidr, Option.some_inj] at hsel
  exact ⟨i, hi, hsel ▸ hk⟩

/-- `Targets` names one virtual CPU. -/
theorem Targets.unique {i j : Fin ncpu} (h : Targets s v targetCpu i)
    (h' : Targets s v targetCpu j) : i = j := by
  obtain ⟨_, _, hi⟩ := h
  obtain ⟨_, _, hj⟩ := h'
  rwa [hi, Option.some_inj] at hj

/-- **The three numberings agree exactly for the machine that owns the first virtual CPU.** -/
theorem cpu_on_wakes (himg : IsImage himageEnd) (hrun : HypRun P himageEnd trace s)
    (hv : (s.vcpus v).state ≠ .unused)
    (ht : (targetCpu.toNat : ℤ) < (s.vms (s.vcpus v).vm).nvcpu) (core : Fin ncpu)
    (entryAddr : BitVec 64) :
    Woken P s core v targetCpu entryAddr ↔ (s.vcpus 0).vm = (s.vcpus v).vm := by
  have S := (hrun.slots himg).1
  obtain ⟨i, hi⟩ := S.exists_target hv ht
  obtain ⟨base, n, O, hn, hival, hused⟩ := S.target hv hi
  have hrun₁ : vpsciTrapSmc P v psciSystemCpuon targetCpu entryAddr (s.onCore core) =
      .ok (P.cpuOnAnswer (s.onCore core) targetCpu)
        ((s.onCore core).cpuOn P i targetCpu entryAddr) :=
    vpsciTrapSmc_cpuon hi
  rw [← S.base_eq_zero O (by omega)]
  constructor
  · intro h
    obtain ⟨j, hj, hplace⟩ := h.place
    rw [hj.unique hi] at hplace
    omega
  · intro hbase
    have hplace : targetCpu.toNat = i.val := by omega
    have hvm : (s.vcpus i).vm = (s.vcpus v).vm := (O.mine i hused).mpr ⟨by omega, by omega⟩
    have hstart : wp startVcpu (fun _ s₂ => (s₂.cores targetCpu.toNat).tpidrEl2 = some i ∧
        (s₂.cores targetCpu.toNat).vttbrEl2 = (s.vms (s.vcpus v).vm).vttbr) (fun _ _ => False)
        (((s.onCore core).cpuOn P i targetCpu entryAddr).onCore targetCpu.toNat) := by
      have hvcpu : (((s.onCore core).cpuOn P i targetCpu entryAddr).onCore
          targetCpu.toNat).vcpus i = (s.vcpus i).turnOn entryAddr := by
        change Function.update s.vcpus i ((s.vcpus i).turnOn entryAddr) i = _
        rw [Function.update_self]
      refine wp_startVcpu hplace ?_ ?_ fun s₂ hs => ⟨hs.tpidr, ?_⟩
      · rw [hvcpu]
        rfl
      · rw [hvcpu]
        exact hvm ▸ O.ne_zero
      · have hvttbr := hs.vttbr
        rw [hvcpu] at hvttbr
        change _ = (s.vms (s.vcpus i).vm).vttbr at hvttbr
        rw [hvm] at hvttbr
        exact hvttbr
    obtain ⟨_, s₂, hs₂, htpidr, hvttbr⟩ := exists_ok_of_wp hstart
    refine ⟨_, _, i, hrun₁, rfl, hi, ?_, ?_, s₂, hs₂, htpidr, hvttbr⟩
    · rw [cpuOn_vcpus, Function.update_self]
      rfl
    · rw [cpuOn_vcpus, Function.update_self]
      rfl

end wakeup

/-- A guest with two virtual CPUs that is alone turns its second one on. -/
theorem cpu_on_wakes_second : ∃ trace s, HypRun obedient bootEnd trace s ∧
    Woken obedient s 0 0 1 0x40000000 := by
  obtain ⟨s, s', vm, live, l₀, hrun, G, _⟩ := exists_one_guest obedient
  have hused : (s'.vcpus 0).state ≠ .unused := by
    rw [G.run.state_eq 0 le_rfl (by decide)]
    decide
  have hcount : ((1 : BitVec 64).toNat : ℤ) < (s'.vms (s'.vcpus 0).vm).nvcpu := by
    rw [G.run.vm_eq 0 le_rfl (by decide), G.nvcpu]
    decide
  exact ⟨_, s', hrun, (cpu_on_wakes isImage_bootEnd hrun hused hcount 0 0x40000000).mpr rfl⟩

/-- The second of two guests turns its only virtual CPU on: the core of its number is the first
guest's. -/
theorem cpu_on_wakes_other : ∃ trace s, HypRun obedient bootEnd trace s ∧
    (s.vcpus 1).state ≠ .unused ∧
    ((0 : BitVec 64).toNat : ℤ) < (s.vms (s.vcpus 1).vm).nvcpu ∧
    ¬ Woken obedient s 1 1 0 0x40000000 := by
  obtain ⟨_, _, s, a, b, T⟩ := exists_two_guests obedient
  have h1 : (s.vcpus 1).state ≠ .unused := by
    rw [T.second.2]
    decide
  refine ⟨_, s, T.run, h1, by rw [T.second.1, T.nvcpu]; decide, fun h => T.ne ?_⟩
  obtain ⟨i, hi, hplace⟩ := h.place
  have S := (T.run.slots isImage_bootEnd).1
  rw [← T.first.1, ← T.second.1]
  obtain ⟨base, n, O, hn, hival, _⟩ := S.target h1 hi
  -- the place is the first one, which this guest does not own
  exact (S.base_eq_zero O (by omega)).mp (by omega)

/-! ## The life of a virtual CPU -/

/-- The firmware refuses to start the core: PSCI's error codes are negative. -/
def Refused (P : Platform) (s : Hyp) (targetCpu : BitVec 64) : Prop :=
  (P.cpuOnAnswer s targetCpu).toInt < 0

namespace Transition

/-- **A step in order**: every virtual CPU's state advances or stays, and a `CPU_ON` of one
that runs, or one that the firmware refuses, leaves address and state of the named virtual CPU
as they were. -/
def Orderly (P : Platform) (tr : Transition) : Prop :=
  (∀ i, (tr.pre.vcpus i).state.rank ≤ (tr.post.vcpus i).state.rank) ∧
  ∀ v targetCpu entryAddr i, tr.event = .cpuOn v targetCpu entryAddr →
    Targets tr.pre v targetCpu i →
    (tr.pre.vcpus i).state = .running ∨ Refused P tr.pre targetCpu →
    (tr.post.vcpus i).regs.elr = (tr.pre.vcpus i).regs.elr ∧
      (tr.post.vcpus i).state = (tr.pre.vcpus i).state

/-- If the step is a `CPU_ON`, the virtual CPU does not run, and the firmware accepts the call
or the virtual CPU is ready at this address already. -/
def Harmless (P : Platform) (tr : Transition) : Prop :=
  ∀ v targetCpu entryAddr i, tr.event = .cpuOn v targetCpu entryAddr →
    Targets tr.pre v targetCpu i → (tr.pre.vcpus i).state ≠ .running ∧
      (¬ Refused P tr.pre targetCpu ∨
        (tr.pre.vcpus i).state = .ready ∧ (tr.pre.vcpus i).regs.elr = entryAddr)

end Transition

section life
variable {P : Platform} {himageEnd start : ℕ} {trace : List Transition} {s s' : Hyp}
  {core : Fin ncpu}

/-- Making a machine takes virtual CPUs that were not in use. -/
theorem VcpuStep.create_rank {cfg : VmConfig} (h : VcpuStep P start core s (.create cfg) s')
    (i : Fin ncpu) : (s.vcpus i).state.rank ≤ (s'.vcpus i).state.rank := by
  cases h with
  | create hu hlive G =>
      rename_i vm base live
      have R := G.run
      by_cases hin : base ≤ i.val ∧ i.val < base + cfg.slots
      · rw [(hu i).mpr hin.1]
        exact Nat.zero_le _
      · rw [R.other_vcpus i hin]
        rfl

/-- Starting a ready virtual CPU makes it run. -/
theorem VcpuStep.start_rank (h : VcpuStep P start core s .start s') (i : Fin ncpu) :
    (s.vcpus i).state.rank ≤ (s'.vcpus i).state.rank := by
  cases h with
  | start hs =>
      rw [hs.vcpus]
      by_cases hi : i = core
      · subst hi
        rw [Function.update_self]
        have hready : (s.vcpus i).state = .ready := hs.ready
        rw [hready]
        exact Nat.le_succ 2
      · rw [Function.update_of_ne hi]
        rfl

/-- **One step is in order exactly when it is harmless.** -/
theorem VcpuStep.orderly_iff {ev : HypEvent} (h : VcpuStep P start core s ev s') :
    (Transition.mk s ev s').Orderly P ↔ (Transition.mk s ev s').Harmless P := by
  cases ev with
  | create cfg =>
      refine ⟨fun _ v t e i hev => (nomatch hev), fun _ => ⟨h.create_rank, ?_⟩⟩
      exact fun v t e i hev => nomatch hev
  | start =>
      refine ⟨fun _ v t e i hev => (nomatch hev), fun _ => ⟨h.start_rank, ?_⟩⟩
      exact fun v t e i hev => nomatch hev
  | cpuOn v targetCpu entryAddr =>
      cases h with
      | cpuOn hi hused =>
          rename_i i
          have hpost : ((s.onCore core).cpuOn P i targetCpu entryAddr).vcpus i =
              (s.vcpus i).turnOn entryAddr := by
            rw [cpuOn_vcpus, Function.update_self]
            rfl
          have hother : ∀ j, j ≠ i →
              ((s.onCore core).cpuOn P i targetCpu entryAddr).vcpus j = s.vcpus j := by
            intro j hj
            rw [cpuOn_vcpus, Function.update_of_ne hj]
            rfl
          constructor
          · rintro ⟨hrank, hkeep⟩ v' t' e' j hev hj
            cases hev
            obtain rfl := hi.unique hj
            have hrun : (s.vcpus i).state ≠ .running := by
              intro hrun
              have hbad := hrank i
              simp only [hpost, hrun, Vcpu.turnOn, VcpuState.rank] at hbad
              omega
            refine ⟨hrun, or_iff_not_imp_left.mpr fun hno => ?_⟩
            obtain ⟨helr, hstate⟩ := hkeep v targetCpu entryAddr i rfl hi
              (Or.inr (not_not.mp hno))
            simp only [hpost, Vcpu.turnOn] at helr hstate
            exact ⟨hstate.symm, helr.symm⟩
          · intro hgood
            obtain ⟨hrun, hor⟩ := hgood v targetCpu entryAddr i rfl hi
            refine ⟨fun j => ?_, fun v' t' e' j hev hj hcase => ?_⟩
            · by_cases hji : j = i
              · subst hji
                simp only [hpost, Vcpu.turnOn]
                cases hstate : (s.vcpus j).state with
                | running => exact absurd hstate hrun
                | unused => decide
                | alloced => decide
                | ready => decide
              · simp only [hother j hji]
                rfl
            · cases hev
              obtain rfl := hi.unique hj
              rcases hcase with hcase | hcase
              · exact absurd hcase hrun
              · obtain ⟨hready, helr⟩ := hor.resolve_left (not_not.mpr hcase)
                simp only [hpost, Vcpu.turnOn]
                exact ⟨helr.symm, hready.symm⟩

/-- **A run is in order exactly when its steps are harmless.** -/
theorem cpu_on_orderly (himg : IsImage himageEnd) (hrun : HypRun P himageEnd trace s) :
    (∀ tr ∈ trace, tr.Orderly P) ↔ ∀ tr ∈ trace, tr.Harmless P := by
  have hsteps := (hrun.slots himg).2
  constructor
  · intro h tr htr
    obtain ⟨_, core, hstep⟩ := hsteps tr htr
    exact hstep.orderly_iff.mp (h tr htr)
  · intro h tr htr
    obtain ⟨_, core, hstep⟩ := hsteps tr htr
    exact hstep.orderly_iff.mpr (h tr htr)

end life

/-- The obedient firmware refuses nothing. -/
theorem not_refused_obedient (s : Hyp) (targetCpu : BitVec 64) :
    ¬ Refused obedient s targetCpu := by
  change ¬ ((0 : BitVec 32).signExtend 64).toInt < 0
  decide

/-- The small guest's first virtual CPU, ready, turns itself on. -/
theorem cpu_on_orderly_ready : ∃ trace s, HypRun obedient bootEnd trace s ∧ trace.length = 2 ∧
    ∀ tr ∈ trace, tr.Orderly obedient := by
  obtain ⟨s, s', vm, live, l₀, hrun, G, _⟩ := exists_one_guest obedient
  have hstate := G.run.state_eq 0 le_rfl (by decide)
  have hvm := G.run.vm_eq 0 le_rfl (by decide)
  have hused : (s'.vcpus 0).state ≠ .unused := by
    rw [hstate]
    decide
  have hcount : ((0 : BitVec 64).toNat : ℤ) < (s'.vms (s'.vcpus 0).vm).nvcpu := by
    rw [hvm, G.nvcpu]
    decide
  have hself : Targets s' 0 0 0 := by
    refine ⟨hvm ▸ G.ne_zero, by decide, ?_⟩
    rw [hvm]
    exact (G.run.slots 0 0).mpr ⟨by decide, rfl⟩
  have hstep : HypStep obedient 0 (.cpuOn 0 0 0x40000000) s' _ :=
    .cpuOn hused hcount (vpsciTrapSmc_cpuon hself)
  have hrun' := HypRun.step hrun hstep
  refine ⟨_, _, hrun', rfl, (cpu_on_orderly isImage_bootEnd hrun').mpr fun tr htr => ?_⟩
  rcases List.mem_cons.mp htr with rfl | htr
  · intro v t e i hev hi
    cases hev
    rw [hi.unique hself]
    refine ⟨?_, Or.inl (not_refused_obedient s' 0)⟩
    change (s'.vcpus 0).state ≠ .running
    rw [hstate]
    decide
  · rw [List.mem_singleton.mp htr]
    exact fun v t e i hev => nomatch hev

/-- A run that makes one small guest with two virtual CPUs and starts the first one. -/
theorem exists_running (P : Platform) : ∃ trace s, HypRun P bootEnd trace s ∧
    (s.vcpus 0).state = .running ∧ (s.vcpus 1).vm ≠ 0 ∧
    (s.vms (s.vcpus 0).vm).nvcpu = 2 ∧ Targets s 0 0 0 ∧ Targets s 0 1 1 ∧ s.smcs = [] := by
  obtain ⟨s, s', vm, live, l₀, hrun, G, _, _, hsmcs⟩ := exists_one_guest P
  have hready : (s'.vcpus 0).state = .ready := G.run.state_eq 0 le_rfl (by decide)
  have hvm := G.run.vm_eq 0 le_rfl (by decide)
  have hvm1 := G.run.vm_eq 1 (by decide) (by decide)
  have hstart : wp startVcpu (fun _ s₁ => Started (s'.onCore 0) 0 s₁) (fun _ _ => False)
      (s'.onCore 0) :=
    wp_startVcpu rfl hready (hvm ▸ G.ne_zero) fun _ h => h
  obtain ⟨_, s₁, hs₁, hst⟩ := exists_ok_of_wp hstart
  have hstep₁ : HypStep P 0 .start s' s₁ := .start hs₁
  have hkeep : s₁.smcs = (s'.onCore 0).smcs := Hyp.keeps_smcs_startVcpu.of_ok hs₁
  have hself : s₁.vcpus 0 = { s'.vcpus 0 with state := .running } := by
    rw [hst.vcpus, Function.update_self]
    rfl
  have hother : s₁.vcpus 1 = s'.vcpus 1 := by
    rw [hst.vcpus, Function.update_of_ne (by decide)]
    rfl
  have hvms : s₁.vms (s₁.vcpus 0).vm = s'.vms vm := by
    rw [hself, hst.vms]
    exact congrArg s'.vms hvm
  have hne : (s₁.vcpus 0).vm ≠ 0 := by
    rw [hself]
    exact hvm ▸ G.ne_zero
  refine ⟨_, s₁, .step hrun hstep₁, by rw [hself], ?_, ?_, ⟨hne, by decide, ?_⟩,
    ⟨hne, by decide, ?_⟩, hkeep.trans hsmcs⟩
  · rw [hother, hvm1]
    exact G.ne_zero
  · rw [hvms, G.nvcpu]
  · rw [hvms]
    exact (G.run.slots 0 0).mpr ⟨by decide, rfl⟩
  · rw [hvms]
    exact (G.run.slots 1 1).mpr ⟨by decide, rfl⟩

/-- The small guest's first virtual CPU runs and turns itself on: it is ready again. -/
theorem cpu_on_orderly_running : ∃ trace s, HypRun obedient bootEnd trace s ∧
    ¬ ∀ tr ∈ trace, tr.Orderly obedient := by
  obtain ⟨trace, s, hrun, hrunning, _, hnvcpu, hself, _⟩ := exists_running obedient
  have hcount : ((0 : BitVec 64).toNat : ℤ) < (s.vms (s.vcpus 0).vm).nvcpu := by
    rw [hnvcpu]
    decide
  have hstep : HypStep obedient 0 (.cpuOn 0 0 0x40000000) s _ :=
    .cpuOn (by rw [hrunning]; decide) hcount (vpsciTrapSmc_cpuon hself)
  refine ⟨_, _, .step hrun hstep, fun h => ?_⟩
  have hbad := (h _ List.mem_cons_self).1 0
  simp only [cpuOn_vcpus, Function.update_self, hrunning, Vcpu.turnOn, VcpuState.rank] at hbad
  omega

end Xhyper
