import Xhyper.Lib.Oblivious
import Xhyper.MmioAccess
import Xhyper.VgicContain

/-!
# What a load leaves of the old register

A load that is trapped is answered through a pointer to the guest's register.  When the answer is
that it went well, the register should hold a value of the device, and nothing of what it held
before or of what lay on the stack.

Three answers break this: an address in no region, a register of the redistributor that is not
known, and `GICD_ISENABLER`, whose bits are put on top of a variable that was not set.

## Main definitions

* `StaleFree` — two runs of a load end with the same register.
* `LoadDefined` — none of the three cases.
* `load_stale_free_iff` — when a load is free of what was there.
-/

namespace Xhyper

open Memory Prog

/-! ## Two runs -/

/-- Two runs that go well end with the same value in the register, whatever it held and whatever
the uninitialised variable holds. -/
def StaleFree (read : BitVec 32 → Exec Hyp ℤ) (s : Hyp) (v : Fin ncpu) (r : Fin 31) : Prop :=
  ∀ isen isen' y y' rc rc' t t', read isen (s.setX v r y) = .ok rc t → 0 ≤ rc →
    read isen' (s.setX v r y') = .ok rc' t' → 0 ≤ rc' →
      (t.vcpus v).regs.x r = (t'.vcpus v).regs.x r

section setX
variable (s : Hyp) (v w : Fin ncpu) (r : Fin 31) (y : BitVec 64)

@[simp] theorem setX_ram : (s.setX v r y).ram = s.ram := rfl
@[simp] theorem setX_vms : (s.setX v r y).vms = s.vms := rfl
@[simp] theorem setX_gicd : (s.setX v r y).gicd = s.gicd := rfl

@[simp] theorem setX_vm : ((s.setX v r y).vcpus w).vm = (s.vcpus w).vm := by
  by_cases h : w = v
  · simp [Hyp.setX, Hyp.setVcpu, h]
  · simp [Hyp.setX, Hyp.setVcpu, h]

@[simp] theorem setX_vgicCpu : ((s.setX v r y).vcpus w).vgicCpu = (s.vcpus w).vgicCpu := by
  by_cases h : w = v
  · simp [Hyp.setX, Hyp.setVcpu, h]
  · simp [Hyp.setX, Hyp.setVcpu, h]

@[simp] theorem setX_cpuid : ((s.setX v r y).vcpus w).cpuid = (s.vcpus w).cpuid := by
  by_cases h : w = v
  · simp [Hyp.setX, Hyp.setVcpu, h]
  · simp [Hyp.setX, Hyp.setVcpu, h]

@[simp] theorem setX_x : ((s.setX v r y).vcpus v).regs.x r = y := by
  simp [Hyp.setX, Hyp.setVcpu]

@[simp] theorem setX_dist : (s.setX v r y).dist w = s.dist w := by simp [Hyp.dist]

end setX

/-! ## Reading a redistributor -/

section gicr
variable {hw : GicrHw} {s : Hyp} {v : Fin ncpu} {r : Fin 31} {y : BitVec 64}

theorem oblivious_derefVm (vm : ℕ) : Oblivious (fun s : Hyp => s.setX v r y) (derefVm vm) :=
  .get_bind (fun _ => rfl) fun _ => .ite (.throw _) (.pure _)

theorem oblivious_derefVcpu (entry : Option (Fin ncpu)) :
    Oblivious (fun s : Hyp => s.setX v r y) (derefVcpu entry) := by
  cases entry with
  | none => exact .throw _
  | some w => exact .pure w

theorem oblivious_vgicIrqGet (w : Fin ncpu) (irqNum : ℤ) :
    Oblivious (fun s : Hyp => s.setX v r y) (vgicIrqGet w irqNum) := by
  apply Oblivious.get_bind
  · intro s
    simp only [setX_vgicCpu, setX_vm, setX_ram]
  · intro s
    exact .ite (.pure _) <| .ite (.pure _) <|
      .ite ((oblivious_derefVm _).bind fun _ => .ite (.throw _) (.pure _)) (.throw _)

theorem oblivious_vgicGather (w : Fin ncpu) (irqNum n field width : ℕ) (init : BitVec 32) :
    Oblivious (fun s : Hyp => s.setX v r y) (vgicGather w irqNum n field width init) := by
  apply Oblivious.bind
  · apply Oblivious.whileLoop
    intro p
    apply (oblivious_vgicIrqGet w _).bind
    intro irq
    have hload : Oblivious (fun s : Hyp => s.setX v r y) (loadLe (irq + field) 1) :=
      .get_bind (fun _ => rfl) fun _ => .pure _
    exact hload.bind fun _ => .pure _
  · exact fun _ => .pure _

theorem oblivious_vgicrFrame (offset : ℕ) :
    Oblivious (fun s : Hyp => s.setX v r y) (vgicrFrame v offset) := by
  apply Oblivious.get_bind
  · intro s
    simp only [setX_vm]
  · intro s
    apply (oblivious_derefVm _).bind
    intro V
    apply Oblivious.ite (.pure _)
    split
    · exact .pure _
    · exact .throw _

/-- The register is written over. -/
theorem overwrites_setReg (x : BitVec 64) :
    Overwrites (fun s : Hyp => s.setX v r y) (setReg v (some r) x) := by
  intro s a t
  have hsame : setReg v (some r) x (s.setX v r y) = setReg v (some r) x s :=
    congrArg (EStateM.Result.ok ()) (setX_setX y x)
  rw [hsame]

/-- The registers that `vgicr_read` knows. -/
def gicrKnown (o : ℕ) : Prop :=
  gicrZero o = true ∨ (o = 0x4 ∨ o = 0xffe8) ∨ o = 0x8 ∨ o = 0x10100 ∨
    (0x10400 ≤ o ∧ o ≤ 0x1041c)

/-- **A known register of a redistributor** is put in place of what was there. -/
theorem overwrites_vgicrReadReg {entry : Option (Fin ncpu)} {offset o : ℕ} (h : gicrKnown o) :
    Overwrites (fun s : Hyp => s.setX v r y) (vgicrReadReg hw v entry offset o (some r)) := by
  have hset : ∀ x, Overwrites (fun s : Hyp => s.setX v r y)
      (do setReg v (some r) x; pure 0 : Exec Hyp ℤ) := fun x => (overwrites_setReg x).before _
  rw [vgicrReadReg]
  apply Overwrites.ite fun _ => hset 0
  intro hzero
  apply Overwrites.ite fun _ => .after (oblivious_derefVcpu _) fun w =>
    .get_bind (fun s => by simp only [setX_cpuid]) fun _ => hset _
  intro hword
  apply Overwrites.ite fun _ => .after (oblivious_derefVcpu _) fun w =>
    .get_bind (fun s => by simp only [setX_cpuid]) fun _ => hset _
  intro htyper
  apply Overwrites.ite fun _ => .after (oblivious_derefVcpu _) fun w =>
    .after (oblivious_vgicGather w _ _ _ _ _) fun _ => hset _
  intro hen
  apply Overwrites.ite fun _ => .after (oblivious_derefVcpu _) fun w =>
    .after (oblivious_vgicGather w _ _ _ _ _) fun _ => hset _
  intro hprio
  simp only [gicrKnown, hzero, hword, htyper, hen, hprio, or_self] at h

/-- The frame is past the number that the check lets pass. -/
def FrameRefused (s : Hyp) (v : Fin ncpu) (offset : ℕ) : Prop :=
  ((s.vms (s.vcpus v).vm).nvcpu % 2 ^ 32).toNat < offset / gicrStride % 2 ^ 32

/-- The frame of an offset is looked up without a change. -/
theorem vgicrFrame_ok {offset : ℕ} {t : Hyp} {e : Option (Option (Fin ncpu))}
    (h : vgicrFrame v offset s = .ok e t) : t = s ∧ (e = none ↔ FrameRefused s v offset) := by
  have hwp : wp (vgicrFrame v offset) (fun e t => t = s ∧ (e = none ↔ FrameRefused s v offset))
      (fun _ _ => True) s := by
    by_cases hvm : (s.vcpus v).vm = 0
    · simp [vgicrFrame, derefVm, hvm]
    simp only [vgicrFrame, wp_bind, wp_get, wp_derefVm hvm, wp_ite, wp_pure]
    refine ⟨fun hlt => ⟨trivial, iff_of_true trivial hlt⟩, fun hge => ?_⟩
    split
    · exact ⟨rfl, iff_of_false (Option.some_ne_none _) hge⟩
    · trivial
  exact wp_partial.mp hwp e t h

/-- A read that returns was refused, or is one of the frame's register. -/
theorem vgicrRead_ok {offset : ℕ} {t : Hyp} {rc : ℤ}
    (h : vgicrRead hw v offset (some r) s = .ok rc t) :
    (rc = -1 ∧ FrameRefused s v offset) ∨
      ¬ FrameRefused s v offset ∧ ∃ entry, vgicrFrame v offset s = .ok (some entry) s ∧
        vgicrReadReg hw v entry offset (offset % gicrStride) (some r) s = .ok rc t := by
  obtain ⟨e, u, hframe, hrest⟩ := ok_of_bind h
  obtain ⟨rfl, hrefused⟩ := vgicrFrame_ok hframe
  cases e with
  | none =>
      cases hrest
      exact Or.inl ⟨rfl, hrefused.mp rfl⟩
  | some entry =>
      exact Or.inr ⟨fun hr => Option.some_ne_none _ (hrefused.mpr hr), entry, hframe, hrest⟩

/-- The lookup does not see the register. -/
theorem vgicrFrame_setX {offset : ℕ} {e : Option (Fin ncpu)} (y' : BitVec 64)
    (h : vgicrFrame v offset (s.setX v r y) = .ok (some e) (s.setX v r y)) :
    vgicrFrame v offset (s.setX v r y') = .ok (some e) (s.setX v r y') := by
  have hplain : ∀ z, vgicrFrame v offset (s.setX v r z) =
      mapState (fun s : Hyp => s.setX v r z) (vgicrFrame v offset s) := fun z =>
    oblivious_vgicrFrame (r := r) (y := z) offset s
  rw [hplain] at h ⊢
  cases hrun : vgicrFrame v offset s with
  | ok a t =>
      rw [hrun, mapState] at h
      obtain ⟨rfl, _⟩ := vgicrFrame_ok hrun
      cases h
      rfl
  | error e t =>
      rw [hrun] at h
      cases h

/-- A load from a redistributor is refused, or its register is known. -/
def gicrDefined (s : Hyp) (v : Fin ncpu) (offset : ℕ) : Prop :=
  FrameRefused s v offset ∨ gicrKnown (offset % gicrStride)

theorem gicr_staleFree {offset : ℕ} (h : gicrDefined s v offset) :
    StaleFree (fun _ => vgicrRead hw v offset (some r)) s v r := by
  intro _ _ y y' rc rc' t t' hrun hrc hrun' hrc'
  rcases vgicrRead_ok hrun with ⟨rfl, _⟩ | ⟨hnot, e, hframe, hreg⟩
  · exact absurd hrc (by decide)
  rcases vgicrRead_ok hrun' with ⟨rfl, _⟩ | ⟨_, e', hframe', hreg'⟩
  · exact absurd hrc' (by decide)
  have hknown : gicrKnown (offset % gicrStride) := by
    apply h.resolve_left
    simpa only [FrameRefused, setX_vms, setX_vm] using hnot
  have hsame := vgicrFrame_setX y' hframe
  rw [hframe'] at hsame
  obtain rfl : e' = e := by
    cases hsame
    rfl
  rw [(overwrites_vgicrReadReg (y := y) hknown).eq (overwrites_vgicrReadReg (y := y') hknown) hreg
    hreg']

/-- An unknown register is answered with nothing. -/
theorem vgicrReadReg_unknown {entry : Option (Fin ncpu)} {offset o : ℕ} {reg : Option (Fin 31)}
    (h : ¬ gicrKnown o) : vgicrReadReg hw v entry offset o reg s = .ok 0 s := by
  simp only [gicrKnown, not_or] at h
  obtain ⟨hzero, hword, htyper, hen, hprio⟩ := h
  rw [vgicrReadReg, if_neg hzero, if_neg (not_or.mpr hword), if_neg htyper, if_neg hen,
    if_neg hprio]
  rfl

theorem gicrDefined_of_staleFree {offset : ℕ} {rc : ℤ} {t : Hyp}
    (hret : vgicrRead hw v offset (some r) s = .ok rc t)
    (h : StaleFree (fun _ => vgicrRead hw v offset (some r)) s v r) : gicrDefined s v offset := by
  by_contra hno
  obtain ⟨hrefused, hknown⟩ := not_or.mp hno
  rcases vgicrRead_ok hret with ⟨_, hr⟩ | ⟨_, e, hframe, _⟩
  · exact hrefused hr
  rw [← setX_self (s := s) (v := v) (r := r)] at hframe
  have hrun : ∀ y, vgicrRead hw v offset (some r) (s.setX v r y) = .ok 0 (s.setX v r y) := by
    intro y
    exact (bind_of_ok (vgicrFrame_setX y hframe)).trans (vgicrReadReg_unknown hknown)
  have hsame := h 0 0 0 1 0 0 _ _ (hrun 0) le_rfl (hrun 1) le_rfl
  rw [setX_x, setX_x] at hsame
  exact absurd hsame (by decide)

end gicr

/-! ## Reading the distributor -/

section gicd
variable {s : Hyp} {v : Fin ncpu} {r : Fin 31} {offset : ℕ} {isen : BitVec 32} {y : BitVec 64}

/-- An access that returns has taken the lock. -/
theorem vgicFree_of_locked {use : Vm → Exec Hyp ℤ} {rc : ℤ} {t : Hyp}
    (hcore : s.ram.core < 2 ^ 31)
    (h : (do
      let V ← derefVm ((← get).vcpus v).vm
      if V.vgicDist = 0 then throw .nullDeref
      else do
        withDistLock V.vgicDist archSpinLock
        use V : Exec Hyp ℤ) s = .ok rc t) : VgicFree s v := by
  refine ( wp_partial (Q := fun _ _ => VgicFree s v)).mp ?_ rc t h
  by_cases hvm : (s.vcpus v).vm = 0
  · simp [derefVm, hvm]
  simp only [wp_bind, wp_get, wp_derefVm hvm, wp_ite, wp_throw, implies_true, true_and]
  intro hdist
  simp only [withDistLock, wp_bind, wp_get]
  cases hlock : archSpinLock s.ram.core (distLock s.ram.mem (s.vms (s.vcpus v).vm).vgicDist) with
  | error e => trivial
  | ok l =>
      have F : VgicFree s v := ⟨hvm, hdist, hcore, word_of_archSpinLock hlock⟩
      exact wp_partial.mpr fun _ _ _ => wp_partial.mpr fun _ _ _ => F

theorem vgicFree_of_read {reg : Option (Fin 31)} {rc : ℤ} {t : Hyp} (hcore : s.ram.core < 2 ^ 31)
    (h : vgicdRead isen v offset reg s = .ok rc t) : VgicFree s v :=
  vgicFree_of_locked hcore h

theorem vgicFree_of_write {val : BitVec 64} {rc : ℤ} {t : Hyp} (hcore : s.ram.core < 2 ^ 31)
    (h : vgicdWrite v offset val s = .ok rc t) : VgicFree s v :=
  vgicFree_of_locked hcore h

/-- The interrupts that `GICD_ISENABLER` at an offset shows, all of them enabled. -/
def AllEnabled (s : Hyp) (v : Fin ncpu) (offset : ℕ) : Prop :=
  gathered s.ram.mem (RegFields.addr ⟨(offset - gicdIsenabler 0) / 4 * 32, 32, 2, 1⟩ v s) 1 0 32 =
    BitVec.allOnes 32

/-- A load from the distributor, once the lock was taken, is not from `GICD_ISENABLER`, or finds
every bit set. -/
def gicdDefined (s : Hyp) (v : Fin ncpu) (offset : ℕ) : Prop :=
  0x100 ≤ offset ∧ offset ≤ 0x17f → AllEnabled (s.lockDist v) v offset

/-- What the bits are put on top of stays. -/
theorem gathered_init (m : Mem) (addr : ℕ → ℕ) (width : ℕ) (init : BitVec 32) (n : ℕ) :
    gathered m addr width init n = init ||| gathered m addr width 0 n := by
  induction n with
  | zero => simp [gathered]
  | succ n ih => rw [gathered, gathered, ih, BitVec.or_assoc]

/-- The values of a read do not depend on the guest's registers. -/
theorem gicdValue_setX :
    gicdValue isen ((s.setX v r y).lockDist v) v offset =
      gicdValue isen (s.lockDist v) v offset := by
  have hdist : ((s.setX v r y).lockDist v).dist v = (s.lockDist v).dist v := by
    rw [Hyp.lockDist_dist, Hyp.lockDist_dist, setX_dist]
  have hmem : ((s.setX v r y).lockDist v).ram.mem = (s.lockDist v).ram.mem := by
    rw [Hyp.lockDist_mem, Hyp.lockDist_mem, setX_dist, setX_ram]
  have hrecord : ∀ irq, ((s.setX v r y).lockDist v).lookup v irq = (s.lockDist v).lookup v irq := by
    intro irq
    rw [lockDist_lookup, lockDist_lookup, Hyp.lookup, Hyp.lookup, Hyp.spis, Hyp.spis, setX_dist,
      setX_ram, setX_vgicCpu]
  have haddr : ∀ F : RegFields, F.addr v ((s.setX v r y).lockDist v) = F.addr v (s.lockDist v) := by
    intro F
    funext i
    rw [RegFields.addr, RegFields.addr, hrecord]
  have hgicd : ((s.setX v r y).lockDist v).gicd = (s.lockDist v).gicd := rfl
  simp only [gicdValue, haddr, hmem, hdist, hgicd]

/-- A read that goes well puts the value in the register. -/
theorem vgicdRead_ok (hcore : s.ram.core < 2 ^ 31) {rc : ℤ} {t : Hyp}
    (h : vgicdRead isen v offset (some r) (s.setX v r y) = .ok rc t) (hrc : 0 ≤ rc) :
    VgicFree s v ∧ gicdValue isen (s.lockDist v) v offset = some ((t.vcpus v).regs.x r) := by
  have F := vgicFree_of_read (s := s.setX v r y) hcore h
  have hrun := @vgicdRead_runs (s.setX v r y) v offset isen r F
  rw [h, gicdValue_setX] at hrun
  refine ⟨?_, ?_⟩
  · have hdist := F.dist_ne
    have hlock := F.lock_free
    rw [setX_dist] at hdist hlock
    exact ⟨by simpa using F.vm_ne, hdist, hcore, hlock⟩
  cases hvalue : gicdValue isen (s.lockDist v) v offset with
  | none =>
      rw [hvalue] at hrun
      cases hrun
      exact absurd hrc (by decide)
  | some x =>
      rw [hvalue] at hrun
      cases hrun
      exact congrArg some (setX_x _ _ _ _).symm

/-- `GICD_ISENABLER` shows what the variable held but where an interrupt is enabled. -/
theorem gicdValue_isenabler (hoff : 0x100 ≤ offset ∧ offset ≤ 0x17f) :
    gicdValue isen s v offset = some ((isen ||| gathered s.ram.mem
      (RegFields.addr ⟨(offset - gicdIsenabler 0) / 4 * 32, 32, 2, 1⟩ v s) 1 0 32).setWidth 64) := by
  rw [gicdValue, gicdFields, if_neg (by omega), if_pos hoff]
  simp only [if_pos hoff]
  rw [gathered_init]

theorem gicd_staleFree (hcore : s.ram.core < 2 ^ 31) (h : gicdDefined s v offset) :
    StaleFree (fun isen => vgicdRead isen v offset (some r)) s v r := by
  intro isen isen' y y' rc rc' t t' hrun hrc hrun' hrc'
  have hvalue := (vgicdRead_ok hcore hrun hrc).2
  have hvalue' := (vgicdRead_ok hcore hrun' hrc').2
  have hsame : gicdValue isen (s.lockDist v) v offset = gicdValue isen' (s.lockDist v) v offset := by
    by_cases hoff : 0x100 ≤ offset ∧ offset ≤ 0x17f
    · have hall := h hoff
      rw [AllEnabled] at hall
      rw [gicdValue_isenabler hoff, gicdValue_isenabler hoff, hall, BitVec.or_allOnes,
        BitVec.or_allOnes]
    · exact (gicdValue_isen hoff).trans (gicdValue_isen hoff).symm
  rw [hvalue, hvalue'] at hsame
  exact Option.some.inj hsame

theorem gicdDefined_of_staleFree (hcore : s.ram.core < 2 ^ 31) {rc : ℤ} {t : Hyp}
    (hret : vgicdRead isen v offset (some r) s = .ok rc t)
    (h : StaleFree (fun isen => vgicdRead isen v offset (some r)) s v r) :
    gicdDefined s v offset := by
  intro hoff
  have F := vgicFree_of_read hcore hret
  have hrun : ∀ isen, ∃ t, vgicdRead isen v offset (some r) (s.setX v r 0) = .ok 0 t := by
    intro isen
    have F₀ : VgicFree (s.setX v r 0) v := by
      refine ⟨by simpa using F.vm_ne, ?_, hcore, ?_⟩
      · rw [setX_dist]
        exact F.dist_ne
      · rw [setX_dist]
        exact F.lock_free
    have hruns := @vgicdRead_runs (s.setX v r 0) v offset isen r F₀
    rw [gicdValue_isenabler hoff] at hruns
    exact ⟨_, hruns⟩
  obtain ⟨t, ht⟩ := hrun 0#32
  obtain ⟨t', ht'⟩ := hrun (BitVec.allOnes 32)
  have hsame := h _ _ 0 0 0 0 t t' ht le_rfl ht' le_rfl
  have hvalue := (vgicdRead_ok hcore ht le_rfl).2
  rw [hsame, ← (vgicdRead_ok hcore ht' le_rfl).2, gicdValue_isenabler hoff,
    gicdValue_isenabler hoff, BitVec.allOnes_or, BitVec.zero_or] at hvalue
  have hword := congrArg (BitVec.setWidth 32) (Option.some.inj hvalue)
  rwa [BitVec.setWidth_setWidth_of_le _ (by decide), BitVec.setWidth_setWidth_of_le _ (by decide),
    BitVec.setWidth_eq, BitVec.setWidth_eq] at hword

end gicd

/-! ## Every load -/

section loads
variable {P : Platform} {hw : GicrHw} {s : Hyp} {v : Fin ncpu} {r : Fin 31} {as : List ℕ}
  {esr far hpfar : BitVec 64}

/-- The value that a device gives is defined. -/
def VgicDev.Defined (d : VgicDev) (s : Hyp) (v : Fin ncpu) (offset : ℕ) : Prop :=
  match d with
  | gicd => gicdDefined s v offset
  | gicr => gicrDefined s v offset

theorem VgicDev.staleFree {d : VgicDev} {offset : ℕ} (hcore : s.ram.core < 2 ^ 31)
    (h : d.Defined s v offset) : StaleFree (fun isen => d.read hw isen v offset (some r)) s v r := by
  cases d with
  | gicd => exact gicd_staleFree hcore h
  | gicr => exact gicr_staleFree h

theorem VgicDev.defined_of_staleFree {d : VgicDev} {offset : ℕ} {isen : BitVec 32} {rc : ℤ}
    {t : Hyp}
    (hcore : s.ram.core < 2 ^ 31) (hret : d.read hw isen v offset (some r) s = .ok rc t)
    (h : StaleFree (fun isen => d.read hw isen v offset (some r)) s v r) : d.Defined s v offset := by
  cases d with
  | gicd => exact gicdDefined_of_staleFree hcore hret h
  | gicr => exact gicrDefined_of_staleFree hret h

/-- **A load is defined** when there is no list of regions at all, or the record that serves it has
a device that gives a defined value. -/
def LoadDefined (P : Platform) (s : Hyp) (v : Fin ncpu) (ipa : ℕ) : Option VmmioInfo → Prop
  | none => (s.vms (s.vcpus v).vm).vmmios = 0
  | some info => ∀ d ∈ P.readDev info.vmmioRead, d.Defined s v (ipa - info.base)

theorem GuestAbort.setX (A : GuestAbort s v esr r) (y : BitVec 64) :
    GuestAbort (s.setX v r y) v esr r :=
  ⟨A.running, by simpa using A.vm_ne, A.ec, A.fnv, A.srt⟩

theorem Regions.setX (R : Regions s (s.vcpus v).vm as) (y : BitVec 64) :
    Regions (s.setX v r y) ((s.setX v r y).vcpus v).vm as := by
  rw [setX_vm]
  exact ⟨R.chain, R.pointer⟩

/-- What `vmmio_handler` does with a load. -/
theorem vmmioHandler_load {isen : BitVec 32} (A : GuestAbort s v esr r)
    (R : Regions s (s.vcpus v).vm as) (hwnr : esrWnr esr = false) :
    vmmioHandler (vgicHandlers P hw isen) v r (abortAccess esr far hpfar) s =
      match served s.ram.mem as false (getFaultIpa hpfar far).toNat with
      | some info => match P.readDev info.vmmioRead with
        | some d => d.read hw isen v ((getFaultIpa hpfar far).toNat - info.base) (some r) s
        | none => .error .nullDeref s
      | none => .ok (if (s.vms (s.vcpus v).vm).vmmios = 0 then -1 else 0) s := by
  have hload : (abortAccess esr far hpfar).wnr = false := hwnr
  have hipa : (abortAccess esr far hpfar).ipa = (getFaultIpa hpfar far).toNat := rfl
  rw [vmmioHandler_served A R, hload, hipa]
  cases served s.ram.mem as false (getFaultIpa hpfar far).toNat with
  | none => rfl
  | some info =>
      simp only [VmmioInfo.call, hload, hipa, Bool.false_eq_true, if_false, vgicHandlers]
      cases P.readDev info.vmmioRead with
      | none => rfl
      | some d => rfl

/-- A load that is defined is free of what was there. -/
theorem staleFree_of_loadDefined (A : GuestAbort s v esr r) (R : Regions s (s.vcpus v).vm as)
    (hwnr : esrWnr esr = false) (hcore : s.ram.core < 2 ^ 31)
    (h : LoadDefined P s v (getFaultIpa hpfar far).toNat
      (served s.ram.mem as false (getFaultIpa hpfar far).toNat)) :
    StaleFree (fun isen => vmmioHandler (vgicHandlers P hw isen) v r (abortAccess esr far hpfar))
      s v r := by
  have hload : ∀ isen y, vmmioHandler (vgicHandlers P hw isen) v r (abortAccess esr far hpfar)
      (s.setX v r y) = _ := fun isen y => vmmioHandler_load (A.setX y) (R.setX y) hwnr
  simp only [StaleFree, hload, setX_ram, setX_vms, setX_vm]
  cases hfound : served s.ram.mem as false (getFaultIpa hpfar far).toNat with
  | none =>
      rw [hfound] at h
      intro _ _ y y' rc rc' t t' hrun hrc
      rw [if_pos (show (s.vms (s.vcpus v).vm).vmmios = 0 from h)] at hrun
      cases hrun
      exact absurd hrc (by decide)
  | some info =>
      rw [hfound] at h
      dsimp only
      cases hd : P.readDev info.vmmioRead with
      | none =>
          intro _ _ y y' rc rc' t t' hrun
          cases hrun
      | some d => exact VgicDev.staleFree hcore (h d hd)

/-- A load that returns and is free of what was there is defined. -/
theorem loadDefined_of_staleFree (A : GuestAbort s v esr r) (R : Regions s (s.vcpus v).vm as)
    (hwnr : esrWnr esr = false) (hcore : s.ram.core < 2 ^ 31) {isen : BitVec 32} {rc : ℤ} {t : Hyp}
    (hret : vmmioHandler (vgicHandlers P hw isen) v r (abortAccess esr far hpfar) s = .ok rc t)
    (h : StaleFree (fun isen => vmmioHandler (vgicHandlers P hw isen) v r
      (abortAccess esr far hpfar)) s v r) :
    LoadDefined P s v (getFaultIpa hpfar far).toNat
      (served s.ram.mem as false (getFaultIpa hpfar far).toNat) := by
  have hload : ∀ isen y, vmmioHandler (vgicHandlers P hw isen) v r (abortAccess esr far hpfar)
      (s.setX v r y) = _ := fun isen y => vmmioHandler_load (A.setX y) (R.setX y) hwnr
  rw [vmmioHandler_load A R hwnr] at hret
  simp only [StaleFree, hload, setX_ram, setX_vms, setX_vm] at h
  cases hfound : served s.ram.mem as false (getFaultIpa hpfar far).toNat with
  | none =>
      rw [hfound] at h
      by_contra hlist
      simp only [if_neg (show ¬ (s.vms (s.vcpus v).vm).vmmios = 0 from hlist)] at h
      have hsame := h 0 0 0 1 0 0 _ _ rfl le_rfl rfl le_rfl
      rw [setX_x, setX_x] at hsame
      exact absurd hsame (by decide)
  | some info =>
      rw [hfound] at h hret
      intro d hd
      rw [Option.mem_def] at hd
      dsimp only at h hret
      rw [hd] at h hret
      exact VgicDev.defined_of_staleFree hcore hret h

/-- **A load that goes well is free of what was there** if it is defined, and one that returns only
then. -/
theorem load_stale_free_iff (A : GuestAbort s v esr r) (R : Regions s (s.vcpus v).vm as)
    (hwnr : esrWnr esr = false) (hcore : s.ram.core < 2 ^ 31) :
    (LoadDefined P s v (getFaultIpa hpfar far).toNat
        (served s.ram.mem as false (getFaultIpa hpfar far).toNat) →
      StaleFree (fun isen => vmmioHandler (vgicHandlers P hw isen) v r (abortAccess esr far hpfar))
        s v r) ∧
    ∀ isen rc t,
      vmmioHandler (vgicHandlers P hw isen) v r (abortAccess esr far hpfar) s = .ok rc t →
      (StaleFree (fun isen => vmmioHandler (vgicHandlers P hw isen) v r (abortAccess esr far hpfar))
          s v r ↔
        LoadDefined P s v (getFaultIpa hpfar far).toNat
          (served s.ram.mem as false (getFaultIpa hpfar far).toNat)) := by
  refine ⟨staleFree_of_loadDefined A R hwnr hcore, fun isen rc t hret => ⟨?_, ?_⟩⟩
  · exact loadDefined_of_staleFree A R hwnr hcore hret
  · exact staleFree_of_loadDefined A R hwnr hcore

end loads

/-! ## Three loads -/

/-- With no interrupt enabled, `GICD_ISENABLER0` shows the uninitialised variable. -/
theorem not_allEnabled : ¬ AllEnabled ((gicdGuest 0).lockDist 0) 0 0x100 := by
  have hzero : gathered ((gicdGuest 0).lockDist 0).ram.mem
      (RegFields.addr ⟨0, 32, 2, 1⟩ 0 ((gicdGuest 0).lockDist 0)) 1 0 32 = 0 := by
    refine gathered_zero fun i hi => ?_
    have hbyte := @gicdGuest_byte 0 (0 + i) (by omega) 2
    have hlow := @gicdGuest_low 0 (0 + i) (by omega)
    have hout : (gicdGuest 0).lookup 0 (0 + i) + 2 ∉ block ((gicdGuest 0).dist 0 + 16) 8 := by
      rw [gicdGuest_dist]
      simp only [mem_block]
      omega
    rw [RegFields.addr, lockDist_lookup, Hyp.lockDist_mem, setDistLock_outside hout]
    exact hbyte
  intro h
  exact absurd (hzero.symm.trans h) (by decide)

/-- A load of a word into `X[0]`. -/
abbrev loadAt (far hpfar : BitVec 64) (isen : BitVec 32) : Exec Hyp ℤ :=
  vmmioHandler (vgicHandlers obedient (fun _ _ => 0) isen) 0 (0 : Fin 31)
    (abortAccess 0x93800000 far hpfar)

theorem loadAt_abort : GuestAbort (gicdGuest 0) 0 0x93800000 0 :=
  gicdGuest_abort (by decide) (by decide) (by decide)

/-- A load from `GICD_ISENABLER0` goes well with whatever was on the stack. -/
theorem loadAt_isenabler : ¬ StaleFree (loadAt 0x100 0x80000) (gicdGuest 0) 0 0 := by
  intro h
  have hipa : (getFaultIpa 0x80000 0x100).toNat = gicdBase + 0x100 := by
    decide
  have hserved := @gicdGuest_served 0 0x100 false (by decide)
  have hdev : obedient.readDev gicdInfo.vmmioRead = some .gicd := rfl
  have hread := @vgicdRead_runs (gicdGuest 0) 0 0x100 0 0 gicdGuest_free
  rw [gicdValue_isenabler (by decide)] at hread
  have hret := @vmmioHandler_load obedient (fun _ _ => 0) (gicdGuest 0) 0 0 [0x8000] 0x93800000
    0x100 0x80000 0 loadAt_abort gicdGuest_regions (by decide)
  rw [hipa, hserved] at hret
  dsimp only at hret
  rw [hdev] at hret
  have hdefined := loadDefined_of_staleFree loadAt_abort gicdGuest_regions (by decide)
    gicdGuest_free.core (hret.trans hread) h
  rw [hipa, hserved] at hdefined
  exact not_allEnabled (hdefined .gicd hdev (by decide))

/-- A load from behind the region goes well, too, and leaves the register. -/
theorem loadAt_nowhere : ¬ StaleFree (loadAt 0 0x80100) (gicdGuest 0) 0 0 := by
  intro h
  have hipa : (getFaultIpa 0x80100 0).toNat = 0x8010000 := by decide
  have hnone : served (gicdGuest 0).ram.mem [0x8000] false 0x8010000 = none := by
    rw [served, List.map_cons, gicdGuest_info]
    decide
  have hret := @vmmioHandler_load obedient (fun _ _ => 0) (gicdGuest 0) 0 0 [0x8000] 0x93800000
    0 0x80100 0 loadAt_abort gicdGuest_regions (by decide)
  rw [hipa, hnone] at hret
  have hdefined := loadDefined_of_staleFree loadAt_abort gicdGuest_regions (by decide)
    gicdGuest_free.core hret h
  rw [hipa, hnone] at hdefined
  have hlist : (0x8000 : ℕ) = 0 := hdefined
  exact absurd hlist (by decide)

/-- Loads that show what was there. -/
theorem loads_stale : ¬ StaleFree (loadAt 0x100 0x80000) (gicdGuest 0) 0 0 ∧
    ¬ StaleFree (loadAt 0 0x80100) (gicdGuest 0) 0 0 :=
  ⟨loadAt_isenabler, loadAt_nowhere⟩

/-- A load from `GICD_CTLR` does not. -/
theorem load_stale_free_ctlr : StaleFree (loadAt 0 0x80000) (gicdGuest 0) 0 0 := by
  have hipa : (getFaultIpa 0x80000 0).toNat = gicdBase + 0 := by decide
  have hserved := @gicdGuest_served 0 0 false (by decide)
  refine (load_stale_free_iff loadAt_abort gicdGuest_regions (by decide) gicdGuest_free.core).1 ?_
  rw [hipa, hserved]
  intro d hd
  obtain rfl : VgicDev.gicd = d := Option.some.inj hd
  intro hoff
  exact absurd hoff.1 (by decide)

end Xhyper
