import Xhyper.VgicFrame

/-!
# The distributor and the redistributors as devices

What a guest's load from a register gives, and what a store changes, for both devices in the same
terms.  Every access is taken for one to a whole register.

The reads of `GICD_ISENABLER`, the writes of `GICD_ICENABLER`, and the priorities of the frames
behind the first go wrong in the code, and nothing is said of them here.

## Main definitions

* `VgicDev`, `VgicDev.value`, `VgicDev.loop` — the devices and their registers.
* `VgicDev.Ready` — an access to the device returns.
* `VgicDev.Loads`, `VgicDev.Wrote` — what a load and a store do.
* `VgicDev.load_runs`, `VgicDev.store_runs` — that they do.
-/

namespace Xhyper

open Memory Prog

/-! ## The devices -/

/-- The devices of `vgicv3.c`. -/
inductive VgicDev
  | gicd
  | gicr

/-- The virtual CPU of the frame of an offset. -/
def Hyp.frameVcpu (s : Hyp) (v : Fin ncpu) (offset : ℕ) : Fin ncpu :=
  if h : offset / gicrStride < ncpu then
    ((s.vms (s.vcpus v).vm).vcpus ⟨offset / gicrStride, h⟩).getD v
  else v

/-- The value of the register at the offset `o` of the frame of `w`, if it is known. -/
def gicrValue (hw : GicrHw) (s : Hyp) (w : Fin ncpu) (o : ℕ) : Option (BitVec 64) :=
  if gicrZero o then some 0
  else if o = 0x4 ∨ o = 0xffe8 then some ((hw (s.vcpus w).cpuid o).setWidth 32 |>.setWidth 64)
  else if o = 0x8 then some (hw (s.vcpus w).cpuid o)
  else if o = 0x10100 then
    some ((gathered s.ram.mem (RegFields.addr ⟨0, 32, 2, 1⟩ w s) 1 0 32).setWidth 64)
  else if 0x10400 ≤ o ∧ o ≤ 0x1041c then
    some ((gathered s.ram.mem (RegFields.addr ⟨gicrPrioIrq o, 4, 0, 8⟩ w s) 8 0 4).setWidth 64)
  else none

/-- A frame of one of the machine's virtual CPUs. -/
structure FrameReady (s : Hyp) (v : Fin ncpu) (offset : ℕ) : Prop where
  vm_ne : (s.vcpus v).vm ≠ 0
  dist_ne : s.dist v ≠ 0
  inside : offset < gicrSize
  present : (offset / gicrStride : ℕ) < (s.vms (s.vcpus v).vm).nvcpu
  nvcpu_lt : (s.vms (s.vcpus v).vm).nvcpu < 2 ^ 32
  entry : (s.vms (s.vcpus v).vm).vcpus ⟨offset / gicrStride, frame_lt inside⟩ =
    some (s.frameVcpu v offset)
  same_vm : (s.vcpus (s.frameVcpu v offset)).vm = (s.vcpus v).vm

/-- A priority register of a redistributor. -/
def gicrPrio (o : ℕ) : Prop := 0x10400 ≤ o ∧ o ≤ 0x1041c

namespace VgicDev

/-- The function that reads. -/
def read (d : VgicDev) (hw : GicrHw) (isen : BitVec 32) (v : Fin ncpu) (offset : ℕ)
    (reg : Option (Fin 31)) : Exec Hyp ℤ :=
  match d with
  | gicd => vgicdRead isen v offset reg
  | gicr => vgicrRead hw v offset reg

/-- The function that writes. -/
def write (d : VgicDev) (v : Fin ncpu) (offset : ℕ) (val : BitVec 64) : Exec Hyp ℤ :=
  match d with
  | gicd => vgicdWrite v offset val
  | gicr => vgicrWrite v offset val

/-- The registers whose reads go wrong: of `GICD_ISENABLER`, which are put on top of an
uninitialised variable, and the priorities of the frames behind the first. -/
def ReadSlip : VgicDev → ℕ → Prop
  | gicd, offset => 0x100 ≤ offset ∧ offset ≤ 0x17f
  | gicr, offset => gicrStride ≤ offset ∧ gicrPrio (offset % gicrStride)

/-- The registers whose writes go wrong: of `GICD_ICENABLER`, which are taken for those of other
interrupts, and the priorities of the frames behind the first. -/
def WriteSlip : VgicDev → ℕ → Prop
  | gicd, offset => 0x180 ≤ offset ∧ offset ≤ 0x1ff
  | gicr, offset => gicrStride ≤ offset ∧ gicrPrio (offset % gicrStride)

section access
variable (hw : GicrHw) (s : Hyp) (v : Fin ncpu)

/-- An access returns: the lock of the distributor can be taken, or the frame is there. -/
def Ready : VgicDev → ℕ → Prop
  | gicd, _ => VgicFree s v
  | gicr, offset => FrameReady s v offset

/-- The virtual CPU that a register is about. -/
def cpu : VgicDev → ℕ → Fin ncpu
  | gicd, _ => v
  | gicr, offset => s.frameVcpu v offset

/-- The value of the register at an offset, if it is known.  The distributor is read under its
lock. -/
def value : VgicDev → ℕ → Option (BitVec 64)
  | gicd, offset => gicdValue 0 (s.lockDist v) v offset
  | gicr, offset => gicrValue hw s (s.frameVcpu v offset) (offset % gicrStride)

/-- The loop of a write, if the register has one. -/
def loop : VgicDev → ℕ → BitVec 64 → Option RegLoop
  | gicd, offset, val => gicdLoop offset val
  | gicr, offset, val => gicrLoop (offset % gicrStride) val

/-- Memory after a write to a register without a loop: `GICD_CTLR` has its bit. -/
def plain : VgicDev → ℕ → BitVec 64 → Mem
  | gicd, offset, val =>
      if offset = 0 then
        writeLe s.ram.mem (s.dist v + 4) 1 (if val.getLsbD 1 = true then 1 else 0)
      else s.ram.mem
  | gicr, _, _ => s.ram.mem

variable (d : VgicDev) (offset : ℕ)

/-- The bytes that a write sets are not the distributor's own. -/
def Apart (val : BitVec 64) : Prop :=
  ∀ L ∈ d.loop offset val, ∀ i < L.n, L.sel i = true →
    L.addr (d.cpu s v offset) s i ∉ block (s.dist v) sizeofVgicDist

/-- **What a load does**: the value of the register goes to the guest's register. -/
structure Loads (r : Fin 31) (t : Hyp) : Prop where
  vcpus : t.vcpus = (s.setX v r ((d.value hw s v offset).getD ((s.vcpus v).regs.x r))).vcpus
  mem : Set.EqOn t.ram.mem s.ram.mem (block (s.dist v + 16) 8)ᶜ
  gic : t.gic = s.gic

/-- **What a store does**: it goes over the interrupts of the register. -/
structure Wrote (val : BitVec 64) (t : Hyp) : Prop where
  vcpus : t.vcpus = s.vcpus
  gic : t.gic = match d.loop offset val with
    | some L => L.gicAfter s.ram.core s.gic L.n
    | none => s.gic
  mem : ∀ x ∉ block (s.dist v + 16) 8, t.ram.mem x = match d.loop offset val with
    | some L => scatter s.ram.mem (L.addr (d.cpu s v offset) s) L.sel L.byte L.n x
    | none => d.plain s v offset val x

end access

end VgicDev

/-! ## The distributor -/

section gicd
variable {s : Hyp} {v : Fin ncpu} {offset : ℕ} {isen : BitVec 32} {r : Fin 31} {hw : GicrHw}

@[simp] theorem setX_self : s.setX v r ((s.vcpus v).regs.x r) = s := by
  simp [Hyp.setX, Hyp.setVcpu]

/-- The uninitialised variable shows in the enable registers only. -/
theorem gicdValue_isen (h : ¬ (0x100 ≤ offset ∧ offset ≤ 0x17f)) :
    gicdValue isen s v offset = gicdValue 0 s v offset := by
  rw [gicdValue, gicdValue]
  cases gicdFields offset with
  | none => rfl
  | some F => simp only [if_neg h]

/-- The lock's bytes are all that taking it and giving it back changes. -/
theorem unlock_lock_outside {t : Hyp} (hdist : t.dist v = s.dist v)
    (hmem : t.ram.mem = (s.lockDist v).ram.mem) :
    Set.EqOn (t.unlockDist v).ram.mem s.ram.mem (block (s.dist v + 16) 8)ᶜ := by
  intro x hx
  rw [Hyp.unlockDist_mem, hdist, setDistLock_outside hx, hmem, Hyp.lockDist_mem,
    setDistLock_outside hx]

theorem gicd_loads (F : VgicFree s v) (h : ¬ VgicDev.gicd.ReadSlip offset) :
    ∃ rc t, vgicdRead isen v offset (some r) s = .ok rc t ∧
      VgicDev.gicd.Loads hw s v offset r t := by
  have hisen : gicdValue isen (s.lockDist v) v offset = gicdValue 0 (s.lockDist v) v offset :=
    gicdValue_isen h
  have hrun := @vgicdRead_runs s v offset isen r F
  rw [hisen] at hrun
  cases hvalue : gicdValue 0 (s.lockDist v) v offset with
  | none =>
      rw [hvalue] at hrun
      refine ⟨_, _, hrun, ?_, unlock_lock_outside rfl rfl, rfl⟩
      rw [VgicDev.value, hvalue, Option.getD_none, setX_self]
      rfl
  | some x =>
      rw [hvalue] at hrun
      have hdist : ((s.lockDist v).setX v r x).dist v = s.dist v := by
        simp [Hyp.dist, Hyp.setX, Hyp.setVcpu]
      refine ⟨_, _, hrun, ?_, unlock_lock_outside hdist rfl, rfl⟩
      rw [VgicDev.value, hvalue, Option.getD_some]
      rfl

/-- The memory that a write to a register without a loop leaves, under the lock. -/
theorem plain_lockDist {val : BitVec 64} {x : ℕ} (hx : x ∉ block (s.dist v + 16) 8) :
    VgicDev.gicd.plain (s.lockDist v) v offset val x = VgicDev.gicd.plain s v offset val x := by
  have hlock : (s.lockDist v).ram.mem x = s.ram.mem x := setDistLock_outside hx
  simp only [VgicDev.plain, Hyp.lockDist_dist]
  split
  · simp only [writeLe, hlock]
  · exact hlock

/-- The lock's bytes are not those of `enabled`. -/
theorem plain_of_lock {val : BitVec 64} {x : ℕ} (hx : x ∈ block (s.dist v + 16) 8) :
    VgicDev.gicd.plain s v offset val x = s.ram.mem x := by
  rw [VgicDev.plain]
  split
  · refine writeLe_of_notMem ?_
    simp only [mem_block] at hx ⊢
    omega
  · rfl

theorem vgicdWriteReg_plain {val : BitVec 64} (hL : gicdLoop offset val = none) :
    ∃ b, vgicdWriteReg v (s.dist v) offset val s =
      .ok b (s.withMem (VgicDev.gicd.plain s v offset val)) := by
  rw [VgicDev.plain]
  by_cases h0 : offset = 0
  · rw [if_pos h0, vgicdWriteReg, if_pos h0]
    exact ⟨true, rfl⟩
  · rw [if_neg h0]
    exact ⟨_, vgicdWriteReg_none hL h0⟩

/-- A write to a register without a loop is under the lock too. -/
theorem vgicdWrite_plain {val : BitVec 64} (F : VgicFree s v) (hL : gicdLoop offset val = none) :
    ∃ rc, vgicdWrite v offset val s = .ok rc (((s.lockDist v).withMem
      (VgicDev.gicd.plain (s.lockDist v) v offset val)).unlockDist v) := by
  obtain ⟨b, hreg⟩ := @vgicdWriteReg_plain (s.lockDist v) v offset val hL
  exact ⟨_, (vgicdWrite_eq F).trans
    (withDistLock_runs F.core F.lock_free hreg rfl rfl fun x hx => plain_of_lock hx)⟩

theorem gicd_wrote {val : BitVec 64} (F : VgicFree s v)
    (hapart : VgicDev.gicd.Apart s v offset val) :
    ∃ rc t, vgicdWrite v offset val s = .ok rc t ∧ VgicDev.gicd.Wrote s v offset val t := by
  cases hL : gicdLoop offset val with
  | some L =>
      obtain ⟨haddr, hrun⟩ := vgicdWrite_loop_eq F hL
        (RegLoop.keepsDist_of_out (hapart L hL))
      refine ⟨_, _, hrun, rfl, ?_, fun x hx => ?_⟩
      · simp only [VgicDev.loop, hL]
        rfl
      · simp only [VgicDev.loop, hL, VgicDev.cpu]
        rw [Hyp.unlockDist_mem, RegLoop.after_dist, Hyp.lockDist_dist, setDistLock_outside hx,
          RegLoop.after_mem, haddr]
        exact scatter_congr (setDistLock_outside hx)
  | none =>
      obtain ⟨rc, hrun⟩ := vgicdWrite_plain F hL
      refine ⟨_, _, hrun, rfl, ?_, fun x hx => ?_⟩
      · simp only [VgicDev.loop, hL]
        rfl
      · simp only [VgicDev.loop, hL]
        rw [Hyp.unlockDist_mem]
        exact (setDistLock_outside hx).trans (plain_lockDist hx)

end gicd

/-! ## The redistributors -/

section gicr
variable {s : Hyp} {v w : Fin ncpu} {offset : ℕ} {r : Fin 31} {hw : GicrHw}

theorem gicrPrioIrq_of_not_slip (h : ¬ (gicrStride ≤ offset ∧ gicrPrio (offset % gicrStride)))
    (hprio : gicrPrio (offset % gicrStride)) :
    gicrPrioIrq offset = gicrPrioIrq (offset % gicrStride) := by
  have hfirst : offset < gicrStride := Nat.lt_of_not_le fun hle => h ⟨hle, hprio⟩
  rw [Nat.mod_eq_of_lt hfirst]

/-- A priority register shows the four interrupts that are counted from the offset. -/
theorem vgicrReadReg_prio {o : ℕ} (hvm : (s.vcpus w).vm ≠ 0) (hdist : s.dist w ≠ 0)
    (ho : gicrPrio o) : vgicrReadReg hw v (some w) offset o (some r) s =
      .ok 0 (s.setX v r ((gathered s.ram.mem
        (RegFields.addr ⟨gicrPrioIrq offset, 4, 0, 8⟩ w s) 8 0 4).setWidth 64)) := by
  have hderef : derefVcpu (some w) s = .ok w s := rfl
  rw [gicrPrio] at ho
  have hzero : ¬ gicrZero o = true := by
    simp only [gicrZero, Bool.or_eq_true, beq_iff_eq]
    omega
  rw [vgicrReadReg, if_neg hzero, if_neg (by omega), if_neg (by omega), if_neg (by omega),
    if_pos ho, bind_of_ok hderef]
  exact bind_of_ok (vgicGather_eq hvm hdist ⟨gicrPrioIrq offset, 4, 0, 8⟩ 0)

/-- **The `switch` of `vgicr_read`.** -/
theorem vgicrReadReg_eq (hvm : (s.vcpus w).vm ≠ 0) (hdist : s.dist w ≠ 0)
    (h : ¬ VgicDev.gicr.ReadSlip offset) :
    vgicrReadReg hw v (some w) offset (offset % gicrStride) (some r) s =
      .ok 0 (match gicrValue hw s w (offset % gicrStride) with
        | some x => s.setX v r x
        | none => s) := by
  have hgather := vgicGather_eq hvm hdist
  have hderef : derefVcpu (some w) s = .ok w s := rfl
  have hirq := gicrPrioIrq_of_not_slip h
  generalize offset % gicrStride = o at hirq ⊢
  rw [vgicrReadReg, gicrValue]
  by_cases hzero : gicrZero o = true
  · rw [if_pos hzero, if_pos hzero]
    rfl
  rw [if_neg hzero, if_neg hzero]
  by_cases hword : o = 0x4 ∨ o = 0xffe8
  · rw [if_pos hword, if_pos hword]
    rfl
  rw [if_neg hword, if_neg hword]
  by_cases htyper : o = 0x8
  · rw [if_pos htyper, if_pos htyper]
    rfl
  rw [if_neg htyper, if_neg htyper]
  by_cases hen : o = 0x10100
  · rw [if_pos hen, if_pos hen, bind_of_ok hderef]
    exact bind_of_ok (hgather ⟨0, 32, 2, 1⟩ 0)
  rw [if_neg hen, if_neg hen]
  by_cases hprio : 0x10400 ≤ o ∧ o ≤ 0x1041c
  · rw [if_pos hprio, if_pos hprio, bind_of_ok hderef, hirq hprio]
    exact bind_of_ok (hgather ⟨gicrPrioIrq o, 4, 0, 8⟩ 0)
  · rw [if_neg hprio, if_neg hprio]
    rfl

theorem gicrIgnored_prio {o : ℕ} (h : 0x10400 ≤ o ∧ o ≤ 0x1041c) : ¬ gicrIgnored o = true := by
  simp only [gicrIgnored, gicrZero, Bool.or_eq_true, beq_iff_eq]
  omega

/-- The loops of the redistributors. -/
theorem gicrLoop_cases {val : BitVec 64} {L : RegLoop} (hL : gicrLoop offset val = some L) :
    offset % gicrStride = 0x10100 ∧ L = enableLoop 0 val 1 Gic.unmask ∨
      gicrPrio (offset % gicrStride) ∧ L = prioLoop (gicrPrioIrq offset) val := by
  rw [gicrLoop] at hL
  by_cases hen : offset % gicrStride = 0x10100
  · rw [if_pos hen] at hL
    exact Or.inl ⟨hen, (Option.some.inj hL).symm⟩
  rw [if_neg hen] at hL
  by_cases hprio : 0x10400 ≤ offset % gicrStride ∧ offset % gicrStride ≤ 0x1041c
  · rw [if_pos hprio] at hL
    exact Or.inr ⟨hprio, (Option.some.inj hL).symm⟩
  · rw [if_neg hprio] at hL
    cases hL

/-- **The `switch` of `vgicr_write`**, for a register with a loop. -/
theorem vgicrWriteReg_loop {val : BitVec 64} {L : RegLoop} (hvm : (s.vcpus w).vm ≠ 0)
    (hdist : s.dist w ≠ 0) (hL : gicrLoop offset val = some L) (hptr : L.KeepsPtr w s) :
    vgicrWriteReg (some w) offset (offset % gicrStride) val s = .ok 0 (L.after w s L.n) := by
  have hderef : derefVcpu (some w) s = .ok w s := rfl
  rcases gicrLoop_cases hL with ⟨hen, rfl⟩ | ⟨hprio, rfl⟩
  · have hknown : ¬ gicrIgnored 0x10100 = true := by decide
    rw [hen, vgicrWriteReg, if_neg hknown, if_pos rfl, bind_of_ok hderef, vgicdEnable, bind_assoc]
    refine bind_of_ok (RegLoop.runs hptr fun i _ t hvcpus hvms => ?_)
    refine enableLoop_body gicEnableInt_eq ?_ ?_ i
    · rwa [hvcpus]
    · rwa [Hyp.dist, hvcpus, hvms]
  · rw [gicrPrio] at hprio
    have hen : offset % gicrStride ≠ 0x10100 := by omega
    rw [vgicrWriteReg, if_neg (gicrIgnored_prio hprio), if_neg hen, if_pos hprio,
      bind_of_ok hderef]
    refine bind_of_ok (RegLoop.runs hptr fun i _ t hvcpus hvms => ?_)
    refine prioLoop_body ?_ ?_ i
    · rwa [hvcpus]
    · rwa [Hyp.dist, hvcpus, hvms]

/-- The offset in the frame does for the one in the region, but where the code goes wrong. -/
theorem gicrLoop_mod {val : BitVec 64} (h : ¬ VgicDev.gicr.WriteSlip offset) :
    gicrLoop (offset % gicrStride) val = gicrLoop offset val := by
  have hmod : offset % gicrStride % gicrStride = offset % gicrStride := Nat.mod_mod _ _
  rw [gicrLoop, gicrLoop, hmod]
  by_cases hprio : 0x10400 ≤ offset % gicrStride ∧ offset % gicrStride ≤ 0x1041c
  · rw [gicrPrioIrq_of_not_slip h hprio]
  · rw [if_neg hprio, if_neg hprio]

/-- Any other register is ignored or not known. -/
theorem vgicrWriteReg_plain {val : BitVec 64} (hL : gicrLoop offset val = none) (s : Hyp)
    (entry : Option (Fin ncpu)) :
    ∃ rc, vgicrWriteReg entry offset (offset % gicrStride) val s = .ok rc s := by
  rw [gicrLoop] at hL
  generalize offset % gicrStride = o at hL ⊢
  have hen : o ≠ 0x10100 := by
    intro h
    rw [if_pos h] at hL
    cases hL
  have hprio : ¬ (0x10400 ≤ o ∧ o ≤ 0x1041c) := by
    intro h
    rw [if_neg hen, if_pos h] at hL
    cases hL
  rw [vgicrWriteReg, if_neg hen, if_neg hprio]
  cases gicrIgnored o with
  | false => exact ⟨_, rfl⟩
  | true => exact ⟨_, rfl⟩

/-- The virtual CPU of the frame has the same distributor. -/
theorem FrameReady.dist_eq (F : FrameReady s v offset) :
    s.dist (s.frameVcpu v offset) = s.dist v := by
  rw [Hyp.dist, F.same_vm, Hyp.dist]

/-- An access to a frame is one to its virtual CPU. -/
theorem FrameReady.run_eq (F : FrameReady s v offset) (hw : GicrHw) (a : GicrAccess)
    (ha : a.offset = offset) :
    a.run hw v s = a.use hw v (some (s.frameVcpu v offset)) s := by
  subst ha
  rw [GicrAccess.run_used F.vm_ne F.nvcpu_lt F.inside F.present.le]
  exact congrArg (fun e => a.use hw v e s) F.entry

theorem FrameReady.read_eq (F : FrameReady s v offset) : vgicrRead hw v offset (some r) s =
    vgicrReadReg hw v (some (s.frameVcpu v offset)) offset (offset % gicrStride) (some r) s :=
  F.run_eq hw ⟨false, offset, 0, some r⟩ rfl

theorem FrameReady.write_eq {val : BitVec 64} (F : FrameReady s v offset) :
    vgicrWrite v offset val s = vgicrWriteReg (some (s.frameVcpu v offset)) offset
      (offset % gicrStride) val s :=
  F.run_eq (fun _ _ => 0) ⟨true, offset, val, none⟩ rfl

theorem gicr_loads (F : FrameReady s v offset) (h : ¬ VgicDev.gicr.ReadSlip offset) :
    ∃ rc t, vgicrRead hw v offset (some r) s = .ok rc t ∧ VgicDev.gicr.Loads hw s v offset r t := by
  have hvm : (s.vcpus (s.frameVcpu v offset)).vm ≠ 0 := F.same_vm ▸ F.vm_ne
  have hrun := (@FrameReady.read_eq s v offset r hw F).trans
    (vgicrReadReg_eq hvm (F.dist_eq ▸ F.dist_ne) h)
  cases hvalue : gicrValue hw s (s.frameVcpu v offset) (offset % gicrStride) with
  | none =>
      rw [hvalue] at hrun
      refine ⟨_, _, hrun, ?_, fun _ _ => rfl, rfl⟩
      rw [VgicDev.value, hvalue, Option.getD_none, setX_self]
  | some x =>
      rw [hvalue] at hrun
      refine ⟨_, _, hrun, ?_, fun _ _ => rfl, rfl⟩
      rw [VgicDev.value, hvalue, Option.getD_some]

theorem gicr_wrote {val : BitVec 64} (F : FrameReady s v offset)
    (h : ¬ VgicDev.gicr.WriteSlip offset) (hapart : VgicDev.gicr.Apart s v offset val) :
    ∃ rc t, vgicrWrite v offset val s = .ok rc t ∧ VgicDev.gicr.Wrote s v offset val t := by
  have hvm : (s.vcpus (s.frameVcpu v offset)).vm ≠ 0 := F.same_vm ▸ F.vm_ne
  have hframe := @FrameReady.write_eq s v offset val F
  cases hL : gicrLoop (offset % gicrStride) val with
  | some L =>
      have hptr : L.KeepsPtr (s.frameVcpu v offset) s := by
        refine (RegLoop.keepsDist_of_out fun i hi hsel => ?_).keepsPtr
        rw [F.dist_eq]
        exact hapart L hL i hi hsel
      have hreg := (gicrLoop_mod h).symm.trans hL
      have hrun := hframe.trans (vgicrWriteReg_loop hvm (F.dist_eq ▸ F.dist_ne) hreg hptr)
      refine ⟨_, _, hrun, rfl, ?_, fun x _ => ?_⟩
      · simp only [VgicDev.loop, hL]
        rfl
      · simp only [VgicDev.loop, hL]
        rfl
  | none =>
      obtain ⟨rc, hreg⟩ := vgicrWriteReg_plain ((gicrLoop_mod h).symm.trans hL) s
        (some (s.frameVcpu v offset))
      refine ⟨rc, s, hframe.trans hreg, rfl, ?_, fun x _ => ?_⟩
      · simp only [VgicDev.loop, hL]
      · simp only [VgicDev.loop, hL]
        rfl

end gicr

/-! ## Both devices -/

namespace VgicDev

variable {d : VgicDev} {s : Hyp} {v : Fin ncpu} {offset : ℕ}

/-- **A load returns** the value of the register. -/
theorem load_runs {hw : GicrHw} {isen : BitVec 32} {r : Fin 31} (R : d.Ready s v offset)
    (h : ¬ d.ReadSlip offset) :
    ∃ rc t, d.read hw isen v offset (some r) s = .ok rc t ∧ d.Loads hw s v offset r t := by
  cases d with
  | gicd => exact gicd_loads R h
  | gicr => exact gicr_loads R h

/-- **A store returns** and goes over the interrupts of the register. -/
theorem store_runs {val : BitVec 64} (R : d.Ready s v offset) (h : ¬ d.WriteSlip offset)
    (hapart : d.Apart s v offset val) :
    ∃ rc t, d.write v offset val s = .ok rc t ∧ d.Wrote s v offset val t := by
  cases d with
  | gicd => exact gicd_wrote R hapart
  | gicr => exact gicr_wrote R h hapart

end VgicDev

end Xhyper
