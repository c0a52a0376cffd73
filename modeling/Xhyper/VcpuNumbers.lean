import Xhyper.VcpuCalls

/-!
# The number of a virtual CPU and its core

`create_vcpu` writes the number that a virtual CPU has in its machine into its `mpidr_el1`, which
`restore_sysreg` loads for the guest.  `start_vcpu` runs the virtual CPU at the place that has the
core's number.

## Main definitions

* `Numbered` — the guests see the numbers of their machines.
* `Launched` — a core has started its virtual CPU.
* `HypRun.numbers` — both in every state of a run.
-/

namespace Xhyper

open Memory Prog

/-- The numbers that the virtual CPUs see. -/
def Hyp.mpidrs (s : Hyp) (i : Fin ncpu) : BitVec 64 := (s.vcpus i).sysRegs.mpidrEl1

/-- A virtual CPU in use sees its number in its machine. -/
def Numbered (s : Hyp) : Prop :=
  ∀ k i : Fin ncpu, (s.vcpus i).state ≠ .unused →
    (s.vms (s.vcpus i).vm).vcpus k = some i → s.mpidrs i = BitVec.ofNat 64 k.val

/-- The core `c` has made `start_vcpu`. -/
def Launched (trace : List Transition) (c : Fin ncpu) : Prop :=
  ∃ tr ∈ trace, tr.event = .start ∧ tr.post.ram.core = c.val

/-- `n` virtual CPUs from `u` on were numbered from 0 on, and are in use. -/
structure Renumbered (s : Hyp) (u n : ℕ) (s' : Hyp) : Prop where
  used : Used s' (u + n)
  mpidrs : ∀ i : Fin ncpu, s'.mpidrs i =
    if u ≤ i.val ∧ i.val < u + n then BitVec.ofNat 64 (i.val - u) else s.mpidrs i

/-! ## The numbers of a new machine -/

section numbers
variable {P : Platform} {cfg : VmConfig} {vm u n : ℕ} {s t : Hyp}

theorem Hyp.aside_mpidrs : Hyp.Aside Hyp.mpidrs :=
  ⟨fun _ _ => rfl, fun _ _ => rfl, fun _ _ _ _ => rfl⟩

theorem Hyp.aside_vcpus : Hyp.Aside Hyp.vcpus :=
  ⟨fun _ _ => rfl, fun _ _ => rfl, fun _ _ _ _ => rfl⟩

theorem mpidrs_setVcpu (i : Fin ncpu) (V : Vcpu) :
    (s.setVcpu i V).mpidrs = Function.update s.mpidrs i V.sysRegs.mpidrEl1 := by
  ext1 j
  by_cases hj : j = i
  · subst hj
    simp [Hyp.mpidrs, Hyp.setVcpu]
  · simp [Hyp.mpidrs, Hyp.setVcpu, Function.update_of_ne hj]

theorem keeps_mpidrs_modifyVcpu (i : Fin ncpu) {f : Vcpu → Vcpu}
    (hf : ∀ v, (f v).sysRegs.mpidrEl1 = v.sysRegs.mpidrEl1) :
    Keeps Hyp.mpidrs (modifyVcpu i f) := by
  refine .modify fun s => ?_
  rw [mpidrs_setVcpu, hf]
  exact Function.update_eq_self i s.mpidrs

/-- Behind the call of `vcpu_alloc` the number is written. -/
theorem createVcpuAfter_numbers {k : ℕ} {entry : BitVec 64} {i : Fin ncpu} :
    wp (createVcpuAfter vm k entry (some i))
      (fun _ s' => s'.mpidrs = Function.update s.mpidrs i (BitVec.ofNat 64 k))
      (fun _ _ => True) s := by
  have hrest : Keeps Hyp.mpidrs (do
      let vgicCpu ← createVgicCpu k
      modifyVcpu i fun v => { v with vgicCpu := vgicCpu }
      let vmcr := ((← get).cores (← get).ram.core).ichVmcrEl2
      modifyVcpu i fun v => { v with gicContext := { v.gicContext with vmcr := vmcr } }
      pure i) := by
    refine (Hyp.aside_mpidrs.keeps_createVgicCpu _).bind fun _ => .bind ?_ fun _ => ?_
    · exact keeps_mpidrs_modifyVcpu i fun _ => rfl
    refine .bind .get fun _ => .bind .get fun _ => .bind ?_ fun _ => .pure _
    exact keeps_mpidrs_modifyVcpu i fun _ => rfl
  rw [createVcpuAfter]
  dsimp only
  rw [wp_bind, wp_modifyVcpu, wp_bind, wp_get, wp_bind, wp_get, wp_bind, wp_modifyVcpu]
  refine wp_mono (Keeps.ite (Keeps.bind (Hyp.Aside.keeps_derefVm _ _) fun _ =>
    Keeps.bind ?_ fun _ => hrest) hrest _) (fun j s' h => ?_) fun _ _ _ => trivial
  · exact keeps_mpidrs_modifyVcpu i fun _ => rfl
  · rw [h, mpidrs_setVcpu, mpidrs_setVcpu, Function.update_idem]

/-- The next virtual CPU is numbered. -/
theorem addVcpu_numbers {entry : BitVec 64} (R : Renumbered s u n t) :
    wp (addVcpu vm n entry) (fun _ s' => Renumbered s u (n + 1) s') (fun _ _ => True) t := by
  rw [addVcpu_eq, wp_bind]
  refine wp_mono (vcpuAlloc_ends R.used) ?_ fun _ _ _ => trivial
  rintro r t₁ ⟨i, rfl, hi, _, _, _, hvcpus⟩
  have hfirst : t₁.mpidrs = t.mpidrs := by
    have hset : t₁.mpidrs = (t.setVcpu i { t.vcpus i with state := .alloced }).mpidrs := by
      ext1 j
      simp only [Hyp.mpidrs, Hyp.setVcpu, hvcpus]
    rw [hset, mpidrs_setVcpu]
    exact Function.update_eq_self i t.mpidrs
  have hused : ∀ j, (t₁.vcpus j).state = .unused ↔ u + (n + 1) ≤ j.val := by
    intro j
    by_cases hj : j = i
    · simp only [hj, hvcpus, Function.update_self, reduceCtorEq, false_iff]
      omega
    · have hne : j.val ≠ i.val := fun h => hj (Fin.ext h)
      rw [hvcpus, Function.update_of_ne hj, R.used j]
      omega
  rw [createVcpuAt, wp_bind]
  have hstates := wp_mono (@keeps_slotPart_createVcpuAfter vm n entry (some i) t₁)
    (fun _ _ h => h) fun _ _ _ => trivial
  refine wp_mono (wp_and hstates createVcpuAfter_numbers) ?_ fun _ _ _ => trivial
  rintro j t₂ ⟨hslots, hnumber⟩
  have hkept : ∀ k, (t₂.vcpus k).state = (t₁.vcpus k).state :=
    congrFun (Prod.ext_iff.mp hslots).1
  by_cases hn : n < ncpu
  swap
  · rw [dif_neg hn]
    trivial
  rw [dif_pos hn, wp_modifyVm]
  refine ⟨fun k => ?_, fun k => ?_⟩
  · exact (hkept k ▸ hused k)
  · change t₂.mpidrs k = _
    rw [hnumber, hfirst]
    by_cases hk : k = i
    · have hin : u ≤ k.val ∧ k.val < u + (n + 1) := by
        rw [hk]
        omega
      rw [hk, Function.update_self, ← hk, if_pos hin]
      congr 1
      rw [hk]
      omega
    · have hne : k.val ≠ i.val := fun h => hk (Fin.ext h)
      rw [Function.update_of_ne hk, R.mpidrs k]
      congr 1
      simp only [eq_iff_iff]
      omega

theorem keeps_vcpus_createStart : Keeps Hyp.vcpus (createStart cfg) := by
  have hmodify : ∀ vm (g : Vm → Vm), Keeps Hyp.vcpus (modifyVm vm g) :=
    fun vm g => .modify fun _ => rfl
  unfold createStart
  cases cfg.guestImage with
  | none => exact .throw _
  | some image =>
      refine .ite (.throw _) ((Hyp.aside_vcpus.keeps_heap _).bind fun r => ?_)
      cases r with
      | none => exact .throw _
      | some vm =>
          refine (hmodify _ _).bind fun _ => Keeps.bind (.ite (hmodify _ _) (.throw _)) fun _ => ?_
          refine (hmodify _ _).bind fun _ => (hmodify _ _).bind fun _ => ?_
          exact (hmodify _ _).bind fun _ => .pure _

theorem keeps_mpidrs_createEnd : Keeps Hyp.mpidrs (createEnd P cfg vm) := by
  have hmodify : ∀ vm (g : Vm → Vm), Keeps Hyp.mpidrs (modifyVm vm g) :=
    fun vm g => .modify fun _ => rfl
  refine (Hyp.aside_mpidrs.keeps_ram _).bind fun r => ?_
  cases r with
  | none => exact .throw _
  | some vttbr =>
      refine (hmodify _ _).bind fun _ => (Hyp.aside_mpidrs.keeps_ram _).bind fun _ => ?_
      refine (Hyp.aside_mpidrs.keeps_ram _).bind fun _ => ?_
      refine (Hyp.aside_mpidrs.unlisted.keeps_createVgicDist _ _).bind fun _ => ?_
      refine (hmodify _ _).bind fun _ => ?_
      refine .bind .get fun s => ?_
      split
      · exact .throw _
      · exact keeps_mpidrs_modifyVcpu _ fun _ => rfl

/-- **Making a machine** numbers its virtual CPUs from 0 on, and leaves the other numbers alone. -/
theorem createGuestVm_numbers (hu : Used s u) :
    wp (createGuestVm P cfg) (fun _ s' => ∀ i : Fin ncpu, s'.mpidrs i =
        if u ≤ i.val ∧ i.val < u + cfg.slots then BitVec.ofNat 64 (i.val - u) else s.mpidrs i)
      (fun _ _ => True) s := by
  rw [createGuestVm_eq, wp_bind]
  refine wp_mono (keeps_vcpus_createStart s) ?_ fun _ _ _ => trivial
  intro vm t ht
  have hnone : Renumbered s u 0 t := by
    refine ⟨fun i => ?_, fun i => ?_⟩
    · rw [ht]
      exact hu i
    · rw [if_neg (by omega), Hyp.mpidrs, ht]
      rfl
  rw [wp_bind]
  refine wp_mono (addVcpu_numbers hnone) ?_ fun _ _ _ => trivial
  intro _ t₁ hfirst
  rw [wp_bind]
  refine wp_forRange (fun k t => Renumbered s u (k + 1) t) (by decide) (fun k t' _ R => ?_) hfirst
    fun k t' hk R => ?_
  · have hindex : 1 + k * 1 = k + 1 := by omega
    rw [hindex]
    exact addVcpu_numbers R
  · have hslots : cfg.slots = k + 1 := by
      rw [VmConfig.slots]
      omega
    refine wp_mono (keeps_mpidrs_createEnd t') (fun _ s' h i => ?_) fun _ _ _ => trivial
    rw [h, hslots]
    exact R.mpidrs i

end numbers

/-! ## Runs -/

section runs
variable {P : Platform} {himageEnd : ℕ} {trace : List Transition} {core : Fin ncpu}
  {ev : HypEvent} {s s' : Hyp}

theorem Hyp.outside_cores : Hyp.Outside Hyp.cores :=
  ⟨⟨fun _ _ => rfl, fun _ _ => rfl, fun _ _ _ _ => rfl⟩, fun _ _ _ => rfl, fun _ _ _ => rfl,
    fun _ _ => rfl⟩

/-- `start_vcpu` leaves the other cores alone. -/
theorem startVcpu_others : wp startVcpu (fun _ s' => ∀ c, c ≠ s.ram.core → s'.cores c = s.cores c)
    (fun _ _ => True) s := by
  refine wp_partial.mpr fun _ s' hrun => ?_
  have hend := ok_of_wp startVcpu_ends hrun
  obtain ⟨i, hi, hvm, hs⟩ := hend
  have hwp : wp startVcpu (fun _ s' => ∀ c, c ≠ s.ram.core → s'.cores c = s.cores c)
      (fun _ _ => True) s := by
    have hcore : s.ram.core < ncpu := hi ▸ i.isLt
    have hplace : (⟨s.ram.core, hcore⟩ : Fin ncpu) = i := Fin.ext hi
    simp only [startVcpu, wp_bind, wp_get, hcore, dite_true, hplace, hs.ready, ne_eq,
      not_true_eq_false, if_false]
    exact wp_switchVcpu hcore hvm fun s' h => h.other_cores
  exact wp_partial.mp hwp () s' hrun

/-- What holds of the cores and the numbers. -/
structure NumberInv (trace : List Transition) (s : Hyp) : Prop where
  numbered : Numbered s
  launched : ∀ c, Launched trace c →
    (s.vcpus c).state ≠ .unused ∧ (s.cores c).tpidrEl2 = some c

/-- A step other than a start. -/
theorem Launched.of_cons {tr : Transition} {c : Fin ncpu} (h : Launched (tr :: trace) c)
    (hev : tr.event ≠ .start) : Launched trace c := by
  obtain ⟨t, ht, hstart, hcore⟩ := h
  rcases List.mem_cons.mp ht with rfl | ht
  · exact absurd hstart hev
  · exact ⟨t, ht, hstart, hcore⟩

/-- Making a machine. -/
theorem NumberInv.create {cfg : VmConfig} {start vm base : ℕ} {live : List ℕ}
    (I : NumberInv trace s) (hu : Used s base)
    (hlive : ∀ i, (s.vcpus i).state ≠ .unused → (s.vcpus i).vm ∈ live)
    (G : Guested start live base cfg (s.onCore core) vm s')
    (hrun : createGuestVm P cfg (s.onCore core) = .ok () s') :
    NumberInv (⟨s, .create cfg, s'⟩ :: trace) s' := by
  have hnumber := wp_partial.mp (createGuestVm_numbers (P := P) (s := s.onCore core) hu) () s' hrun
  have hcores := (Hyp.outside_cores.keeps_createGuestVm P cfg).of_ok hrun
  have hold : ∀ i, (s.vcpus i).state ≠ .unused → s'.vcpus i = s.vcpus i := by
    intro i hi
    have hlt : ¬ base ≤ i.val := fun h => hi ((hu i).mpr h)
    exact G.run.other_vcpus i (by omega)
  refine ⟨fun k i hi hk => ?_, fun c hc => ?_⟩
  · by_cases hin : base ≤ i.val ∧ i.val < base + cfg.slots
    · rw [G.run.vm_eq i hin.1 hin.2] at hk
      have hplace := ((G.run.slots k i).mp hk).2
      rw [hnumber i, if_pos hin]
      congr 1
      omega
    · have hsame : s'.vcpus i = s.vcpus i := G.run.other_vcpus i hin
      rw [hsame] at hi hk
      have hne : (s.vcpus i).vm ≠ vm := fun h => G.new (h ▸ hlive i hi)
      rw [G.run.other_vms _ hne] at hk
      rw [hnumber i, if_neg hin]
      exact I.numbered k i hi hk
  · obtain ⟨hused, htpidr⟩ := I.launched c (hc.of_cons (by simp))
    rw [hold c hused, hcores]
    exact ⟨hused, htpidr⟩

/-- Starting a virtual CPU. -/
theorem NumberInv.start (I : NumberInv trace s) (hs : Started (s.onCore core) core s')
    (hothers : ∀ c, c ≠ core.val → s'.cores c = s.cores c) :
    NumberInv (⟨s, .start, s'⟩ :: trace) s' := by
  have hvcpus : s'.vcpus = Function.update s.vcpus core { s.vcpus core with state := .running } :=
    hs.vcpus
  have hvms : s'.vms = s.vms := hs.vms
  have hmpidrs : s'.mpidrs = s.mpidrs := by
    have hset : s'.mpidrs = (s.setVcpu core { s.vcpus core with state := .running }).mpidrs := by
      ext1 j
      simp only [Hyp.mpidrs, Hyp.setVcpu, hvcpus]
    rw [hset, mpidrs_setVcpu]
    exact Function.update_eq_self core s.mpidrs
  have hready : (s.vcpus core).state = .ready := hs.ready
  refine ⟨fun k i hi hk => ?_, fun c hc => ?_⟩
  · have hkept : (s'.vcpus i).vm = (s.vcpus i).vm ∧ (s.vcpus i).state ≠ .unused := by
      by_cases hic : i = core
      · subst hic
        simp [hvcpus, hready]
      · rw [hvcpus, Function.update_of_ne hic] at hi ⊢
        exact ⟨rfl, hi⟩
    rw [hkept.1, hvms] at hk
    rw [hmpidrs]
    exact I.numbered k i hkept.2 hk
  · by_cases hcc : c = core
    · subst hcc
      simp only [hvcpus, Function.update_self]
      exact ⟨by simp, hs.tpidr⟩
    · have hne : c.val ≠ core.val := fun h => hcc (Fin.ext h)
      have hlaunched : Launched trace c := by
        obtain ⟨t, ht, hstart, hcore⟩ := hc
        rcases List.mem_cons.mp ht with rfl | ht
        · have hpost : s'.ram.core = core.val := by rw [hs.ram]; rfl
          exact absurd (hcore.symm.trans hpost) hne
        · exact ⟨t, ht, hstart, hcore⟩
      obtain ⟨hused, htpidr⟩ := I.launched c hlaunched
      rw [hvcpus, Function.update_of_ne hcc, hothers c hne]
      exact ⟨hused, htpidr⟩

/-- Turning a virtual CPU on. -/
theorem NumberInv.cpuOn {v i : Fin ncpu} {targetCpu entryAddr : BitVec 64} (I : NumberInv trace s)
    (hi : (s.vcpus i).state ≠ .unused) :
    NumberInv (⟨s, .cpuOn v targetCpu entryAddr, (s.onCore core).cpuOn P i targetCpu entryAddr⟩ ::
      trace) ((s.onCore core).cpuOn P i targetCpu entryAddr) := by
  generalize ht : (s.onCore core).cpuOn P i targetCpu entryAddr = t
  have hvcpus : t.vcpus = Function.update s.vcpus i ((s.vcpus i).turnOn entryAddr) := by
    rw [← ht]
    rfl
  have hvms : t.vms = s.vms := by rw [← ht]; rfl
  have hcores : t.cores = s.cores := by rw [← ht]; rfl
  have hkept : ∀ j, (t.vcpus j).vm = (s.vcpus j).vm ∧ t.mpidrs j = s.mpidrs j ∧
      ((t.vcpus j).state ≠ .unused ↔ (s.vcpus j).state ≠ .unused) := by
    intro j
    by_cases hj : j = i
    · subst hj
      simp [Hyp.mpidrs, hvcpus, Vcpu.turnOn, hi]
    · simp [Hyp.mpidrs, hvcpus, Function.update_of_ne hj]
  refine ⟨fun k j hj hk => ?_, fun c hc => ?_⟩
  · obtain ⟨hvm, hmpidr, hused⟩ := hkept j
    rw [hvm, hvms] at hk
    rw [hmpidr]
    exact I.numbered k j (hused.mp hj) hk
  · obtain ⟨hused, htpidr⟩ := I.launched c (hc.of_cons (by simp))
    rw [hcores]
    exact ⟨(hkept c).2.2.mpr hused, htpidr⟩

/-- **In every state of a run** the virtual CPUs see their numbers, and a core that has made
`start_vcpu` runs the virtual CPU at its place. -/
theorem HypRun.numbers (himg : IsImage himageEnd) (h : HypRun P himageEnd trace s) :
    NumberInv trace s := by
  induction h with
  | boot hboot =>
      obtain ⟨_, hnone⟩ := hboot.slots himg
      refine ⟨fun k i hi => ?_, fun c hc => ?_⟩
      · exact absurd ((hnone i).mpr (Nat.zero_le _)) hi
      · obtain ⟨tr, htr, _⟩ := hc
        exact absurd htr List.not_mem_nil
  | step hrun hstep I =>
      obtain ⟨_, hvcpu⟩ := hstep.slots (hrun.slots himg).1
      cases hstep with
      | create hcreate =>
          cases hvcpu with
          | create hu hlive G => exact I.create hu hlive G hcreate
      | start hstart =>
          cases hvcpu with
          | start hs =>
              have hothers := wp_partial.mp startVcpu_others () _ hstart
              exact I.start hs hothers
      | cpuOn _ _ hcall =>
          cases hvcpu with
          | cpuOn _ hi => exact I.cpuOn hi

end runs

end Xhyper
