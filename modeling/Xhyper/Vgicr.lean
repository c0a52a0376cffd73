import Xhyper.Lib.Frame
import Xhyper.Slots

/-!
# Reads of the distributor, and the redistributors

The other three functions that answer a guest's accesses to the interrupt controller.  A
redistributor has a frame of `GICR_STRIDE` bytes for each virtual CPU, and the region that is
trapped has four frames.

The check of the frame's number lets the number `nvcpu` pass, for which the virtual machine has
no virtual CPU.

## Main definitions

* `vgicdRead`, `vgicrRead`, `vgicrWrite` — the functions.
* `FrameChecked` — what the check of the frame is for.
* `vgicr_frame_checked` — when it does that.
-/

namespace Xhyper

open Memory Prog

/-- The physical redistributors: what the register at an offset of the frame of a core reads
as. -/
abbrev GicrHw := ℤ → ℕ → BitVec 64

/-- `*val = x`, where `val` points to a register of the guest or nowhere. -/
def setReg (v : Fin ncpu) (reg : Option (Fin 31)) (x : BitVec 64) : Exec Hyp Unit :=
  match reg with
  | some r => modifyVcpu v fun V => { V with
      regs := { V.regs with x := Function.update V.regs.x r x } }
  | none => throw .nullDeref

/-- The loops of the read functions: put together one field of the configuration of `n`
interrupts, each `width` bits further up. -/
def vgicGather (v : Fin ncpu) (irqNum n field width : ℕ) (init : BitVec 32) :
    Exec Hyp (BitVec 32) := do
  let p ← whileLoop (fun p : ℕ × BitVec 32 => decide (p.1 < n)) (fun p => do
    let irq ← vgicIrqGet v (irqNum + p.1 : ℕ)
    let b ← loadLe (irq + field) 1
    pure (p.1 + 1, p.2 ||| BitVec.ofNat 32 b <<< (p.1 * width))) (n + 1) (0, init)
  pure p.2

/-! ## The distributor -/

/-- The registers of `vgicd_read` that read as zero. -/
def gicdZero (offset : ℕ) : Bool :=
  offset == 0xc ||                                        -- GICD_TYPER2
  (0x200 ≤ offset && offset ≤ 0x3ff) ||                   -- pending and active bits
  (0xc00 ≤ offset && offset ≤ 0xcff) ||                   -- GICD_ICFGR
  (0x6000 ≤ offset && offset ≤ 0x60fb) ||                 -- GICD_IROUTER(0) ... (31) + 3
  (0x6100 ≤ offset && offset ≤ 0x7fdb)                    -- GICD_IROUTER(32) ... (1019) + 3

/-- The `switch` of `vgicd_read`; was the register handled?  `isen` is what the variable of that
name holds before the first interrupt is looked at. -/
def vgicdReadReg (isen : BitVec 32) (v : Fin ncpu) (vgicDist offset : ℕ)
    (reg : Option (Fin 31)) : Exec Hyp Bool := do
  if offset = 0 then do
    let enabled ← loadLe (vgicDist + 4) 1
    setReg v reg (if enabled = 0 then 0x10 else 0x12)
    pure true
  else if offset = 4 then do
    let nspis ← loadLe vgicDist 4
    setReg v reg (((BitVec.ofNat 32 nspis + 32) >>> 5 - 1 ||| 7#32 <<< 5).setWidth 64)
    pure true
  else if offset = 8 then do
    setReg v reg (((← get).gicd.read 8).setWidth 64)
    pure true
  else if 0x80 ≤ offset ∧ offset ≤ 0xff then do
    let igrp ← vgicGather v ((offset - 0x80) / 4 * 32) 32 3 1 0
    setReg v reg (igrp.setWidth 64)
    pure true
  else if 0x100 ≤ offset ∧ offset ≤ 0x17f then do
    let isen ← vgicGather v ((offset - gicdIsenabler 0) / 4 * 32) 32 2 1 isen
    setReg v reg (isen.setWidth 64)
    pure true
  else if 0x400 ≤ offset ∧ offset ≤ 0x7fb then do
    -- a byte for each interrupt, from the one at this offset on
    let iprio ← vgicGather v (offset - 0x400) 4 0 8 0
    setReg v reg (iprio.setWidth 64)
    pure true
  else if 0x800 ≤ offset ∧ offset ≤ 0xbfb then do
    let itar ← vgicGather v (offset - 0x800) 4 1 8 0
    setReg v reg (itar.setWidth 64)
    pure true
  else if gicdZero offset then do
    setReg v reg 0
    pure true
  else if offset = 0xffe8 then do
    setReg v reg (((← get).gicd.read 0xffe8).setWidth 64)
    pure true
  else pure false

/-- `vgicd_read`. -/
def vgicdRead (isen : BitVec 32) (v : Fin ncpu) (offset : ℕ) (reg : Option (Fin 31)) :
    Exec Hyp ℤ := do
  let V ← derefVm ((← get).vcpus v).vm
  if V.vgicDist = 0 then throw .nullDeref
  else do
    withDistLock V.vgicDist archSpinLock
    let handled ← vgicdReadReg isen v V.vgicDist offset reg
    withDistLock V.vgicDist archSpinUnlock
    pure (if handled then 0 else -1)

/-! ## The redistributors -/

/-- Read through an entry of `vm->vcpus`. -/
def derefVcpu (entry : Option (Fin ncpu)) : Exec Hyp (Fin ncpu) :=
  match entry with
  | some w => pure w
  | none => throw .nullDeref

/-- The registers of `vgicr_read` that read as zero. -/
def gicrZero (o : ℕ) : Bool :=
  o == 0x0 || o == 0x14 ||                                -- GICR_CTLR, GICR_WAKER
  o == 0x10080 ||                                         -- GICR_IGROUPR0
  o == 0x10180 || o == 0x10280 ||                         -- GICR_ICENABLER0, GICR_ICPENDR0
  o == 0x10300 || o == 0x10380 ||                         -- active bits
  o == 0x10c00 || o == 0x10c04 || o == 0x10d00            -- GICR_ICFGR, GICR_IGRPMODR0

/-- The registers of `vgicr_write` that are accepted and ignored. -/
def gicrIgnored (o : ℕ) : Bool :=
  gicrZero o || o == 0x8 || o == 0xffe8                   -- GICR_TYPER, GICR_PIDR2

/-- The number that is computed for the first interrupt of a priority register: from the offset
in the region, not from the one in the frame. -/
def gicrPrioIrq (offset : ℕ) : ℕ := (((offset : ℤ) - 0x10400) / 4 * 4).toNat

/-- The `switch` of `vgicr_read`, with `vcpu` for the frame's virtual CPU and `o` for
`gicr_offset`. -/
def vgicrReadReg (hw : GicrHw) (v : Fin ncpu) (vcpu : Option (Fin ncpu)) (offset o : ℕ)
    (reg : Option (Fin 31)) : Exec Hyp ℤ := do
  if gicrZero o then do
    setReg v reg 0
    pure 0
  else if o = 0x4 ∨ o = 0xffe8 then do
    let w ← derefVcpu vcpu
    setReg v reg ((hw ((← get).vcpus w).cpuid o).setWidth 32 |>.setWidth 64)
    pure 0
  else if o = 0x8 then do
    let w ← derefVcpu vcpu
    setReg v reg (hw ((← get).vcpus w).cpuid o)
    pure 0
  else if o = 0x10100 then do
    let w ← derefVcpu vcpu
    let isen ← vgicGather w 0 32 2 1 0
    setReg v reg (isen.setWidth 64)
    pure 0
  else if 0x10400 ≤ o ∧ o ≤ 0x1041c then do
    let w ← derefVcpu vcpu
    let iprio ← vgicGather w (gicrPrioIrq offset) 4 0 8 0
    setReg v reg (iprio.setWidth 64)
    pure 0
  else pure 0

/-- The `switch` of `vgicr_write`. -/
def vgicrWriteReg (vcpu : Option (Fin ncpu)) (offset o : ℕ) (val : BitVec 64) :
    Exec Hyp ℤ := do
  if gicrIgnored o then pure 0
  else if o = 0x10100 then do
    let w ← derefVcpu vcpu
    vgicdEnable w 0 val 1 gicEnableInt
    pure 0
  else if 0x10400 ≤ o ∧ o ≤ 0x1041c then do
    let w ← derefVcpu vcpu
    let _ ← forRange 1 0 4 fun i => do
      let irq ← vgicIrqGet w (gicrPrioIrq offset + i : ℕ)
      storeLe irq 1 (val >>> (i * 8) &&& 0xff#64).toNat
    pure 0
  else pure (-1)

/-- The registers that `vgicr_write` does not know. -/
def gicrUnknown (o : ℕ) : Prop :=
  gicrIgnored o = false ∧ o ≠ 0x10100 ∧ ¬ (0x10400 ≤ o ∧ o ≤ 0x1041c)

/-- `vcpu->vm->vcpus[gicr_index]`, after the check of `gicr_index`. -/
def vgicrFrame (v : Fin ncpu) (offset : ℕ) : Exec Hyp (Option (Option (Fin ncpu))) := do
  let V ← derefVm ((← get).vcpus v).vm
  let gicrIndex := offset / gicrStride % 2 ^ 32
  if (V.nvcpu % 2 ^ 32).toNat < gicrIndex then pure none
  else if h : gicrIndex < ncpu then pure (some (V.vcpus ⟨gicrIndex, h⟩))
  else throw .outOfBounds

/-- `vgicr_read`. -/
def vgicrRead (hw : GicrHw) (v : Fin ncpu) (offset : ℕ) (reg : Option (Fin 31)) : Exec Hyp ℤ := do
  match ← vgicrFrame v offset with
  | none => pure (-1)
  | some vcpu => vgicrReadReg hw v vcpu offset (offset % gicrStride) reg

/-- `vgicr_write`. -/
def vgicrWrite (v : Fin ncpu) (offset : ℕ) (val : BitVec 64) : Exec Hyp ℤ := do
  match ← vgicrFrame v offset with
  | none => pure (-1)
  | some vcpu => vgicrWriteReg vcpu offset (offset % gicrStride) val

/-! ## The check of the frame -/

/-- A guest's access to its redistributors. -/
structure GicrAccess where
  wnr : Bool
  offset : ℕ
  /-- What a write writes. -/
  val : BitVec 64
  /-- Where a read's value goes. -/
  reg : Option (Fin 31)

namespace GicrAccess

variable (hw : GicrHw) (v : Fin ncpu) (a : GicrAccess)

/-- The number of the frame. -/
def frame : ℕ := a.offset / gicrStride

/-- The function that answers the access. -/
def run : Exec Hyp ℤ :=
  if a.wnr then vgicrWrite v a.offset a.val else vgicrRead hw v a.offset a.reg

/-- Its `switch`, with `w` for the frame's virtual CPU. -/
def use (w : Option (Fin ncpu)) : Exec Hyp ℤ :=
  if a.wnr then vgicrWriteReg w a.offset (a.offset % gicrStride) a.val
  else vgicrReadReg hw v w a.offset (a.offset % gicrStride) a.reg

/-- A write to a register that `vgicr_write` does not know. -/
def Unknown : Prop := a.wnr = true ∧ gicrUnknown (a.offset % gicrStride)

end GicrAccess

/-- Replace `vm->vcpus`. -/
def Hyp.withEntries (s : Hyp) (vm : ℕ) (f : Fin ncpu → Option (Fin ncpu)) : Hyp :=
  s.setVm vm { s.vms vm with vcpus := f }

section
variable (s : Hyp) (vm : ℕ) (f : Fin ncpu → Option (Fin ncpu))

@[simp] theorem withEntries_vcpus : (s.withEntries vm f).vcpus = s.vcpus := rfl

@[simp] theorem withEntries_nvcpu : ((s.withEntries vm f).vms vm).nvcpu = (s.vms vm).nvcpu := by
  simp only [Hyp.withEntries, Hyp.setVm, Function.update_self]

@[simp] theorem withEntries_entries : ((s.withEntries vm f).vms vm).vcpus = f := by
  simp only [Hyp.withEntries, Hyp.setVm, Function.update_self]

end

/-- **What the check is for**: an access to the frame of an absent virtual CPU is refused whatever
the array `vcpus` holds, and one to the frame of a virtual CPU is an access to that one. -/
structure FrameChecked (hw : GicrHw) (s : Hyp) (v : Fin ncpu) (a : GicrAccess) : Prop where
  absent : (s.vms (s.vcpus v).vm).nvcpu ≤ a.frame → ∀ f,
    a.run hw v (s.withEntries (s.vcpus v).vm f) = .ok (-1) (s.withEntries (s.vcpus v).vm f)
  present : (a.frame : ℤ) < (s.vms (s.vcpus v).vm).nvcpu → ∃ (h : a.frame < ncpu) (w : Fin ncpu),
    (s.vms (s.vcpus v).vm).vcpus ⟨a.frame, h⟩ = some w ∧ a.run hw v s = a.use hw v (some w) s

section
variable {hw : GicrHw} {s : Hyp} {v : Fin ncpu} {a : GicrAccess}

theorem frame_lt {offset : ℕ} (h : offset < gicrSize) : offset / gicrStride < ncpu := by
  simp only [gicrStride, gicrSize, ncpu] at h ⊢
  omega

/-- The index is not cut off to 32 bits. -/
theorem frame_mod {offset : ℕ} (h : offset < gicrSize) :
    offset / gicrStride % 2 ^ 32 = offset / gicrStride :=
  Nat.mod_eq_of_lt ((frame_lt h).trans (by decide))

section frame
variable {Q : Option (Option (Fin ncpu)) → Hyp → Prop} {E : Fault → Hyp → Prop} {offset : ℕ}

/-- A frame past the number `nvcpu` is refused. -/
theorem wp_vgicrFrame_refused (hvm : (s.vcpus v).vm ≠ 0)
    (hn : 0 ≤ (s.vms (s.vcpus v).vm).nvcpu) (hoff : offset < gicrSize)
    (hlt : (s.vms (s.vcpus v).vm).nvcpu < (offset / gicrStride : ℕ)) :
    wp (vgicrFrame v offset) Q E s ↔ Q none s := by
  have hgt : ((s.vms (s.vcpus v).vm).nvcpu % 2 ^ 32).toNat < offset / gicrStride := by omega
  simp only [vgicrFrame, wp_bind, wp_get, wp_derefVm hvm, frame_mod hoff, if_pos hgt, wp_pure]

/-- Any other frame is looked up. -/
theorem wp_vgicrFrame_used (hvm : (s.vcpus v).vm ≠ 0)
    (hn : (s.vms (s.vcpus v).vm).nvcpu < 2 ^ 32) (hoff : offset < gicrSize)
    (hle : (offset / gicrStride : ℕ) ≤ (s.vms (s.vcpus v).vm).nvcpu) :
    wp (vgicrFrame v offset) Q E s ↔
      Q (some ((s.vms (s.vcpus v).vm).vcpus ⟨offset / gicrStride, frame_lt hoff⟩)) s := by
  have hgt : ¬ ((s.vms (s.vcpus v).vm).nvcpu % 2 ^ 32).toNat < offset / gicrStride := by omega
  simp only [vgicrFrame, wp_bind, wp_get, wp_derefVm hvm, frame_mod hoff, if_neg hgt,
    dif_pos (frame_lt hoff), wp_pure]

end frame

theorem GicrAccess.run_refused (hvm : (s.vcpus v).vm ≠ 0)
    (hn : 0 ≤ (s.vms (s.vcpus v).vm).nvcpu) (hoff : a.offset < gicrSize)
    (hlt : (s.vms (s.vcpus v).vm).nvcpu < a.frame) : a.run hw v s = .ok (-1) s := by
  refine eq_of_wp (y := pure (-1)) fun Q E h => ?_
  cases hwnr : a.wnr with
  | false =>
      simp only [run, hwnr, Bool.false_eq_true, if_false, vgicrRead, wp_bind,
        wp_vgicrFrame_refused hvm hn hoff hlt]
      exact h
  | true =>
      simp only [run, hwnr, if_true, vgicrWrite, wp_bind, wp_vgicrFrame_refused hvm hn hoff hlt]
      exact h

theorem GicrAccess.run_used (hvm : (s.vcpus v).vm ≠ 0)
    (hn : (s.vms (s.vcpus v).vm).nvcpu < 2 ^ 32) (hoff : a.offset < gicrSize)
    (hle : a.frame ≤ (s.vms (s.vcpus v).vm).nvcpu) :
    a.run hw v s = a.use hw v ((s.vms (s.vcpus v).vm).vcpus ⟨a.frame, frame_lt hoff⟩) s := by
  refine eq_of_wp fun Q E h => ?_
  cases hwnr : a.wnr with
  | false =>
      simp only [use, hwnr, Bool.false_eq_true, if_false] at h
      simp only [run, hwnr, Bool.false_eq_true, if_false, vgicrRead, wp_bind,
        wp_vgicrFrame_used hvm hn hoff hle]
      exact h
  | true =>
      simp only [use, hwnr, if_true] at h
      simp only [run, hwnr, if_true, vgicrWrite, wp_bind, wp_vgicrFrame_used hvm hn hoff hle]
      exact h

theorem setReg_ends {reg : Option (Fin 31)} {x : BitVec 64} :
    wp (setReg v reg x) (fun _ _ => True) (fun _ _ => True) s := by
  cases reg <;> trivial

/-- With a null pointer for the virtual CPU no read is refused. -/
theorem vgicrReadReg_none {offset o : ℕ} {reg : Option (Fin 31)} :
    wp (vgicrReadReg hw v none offset o reg) (fun r _ => r = 0) (fun _ _ => True) s := by
  simp only [vgicrReadReg, wp_ite, wp_bind, wp_pure, derefVcpu, wp_throw, implies_true, and_true]
  exact fun _ => setReg_ends

/-- A write is refused if the register is not known. -/
theorem vgicrWriteReg_none {offset o : ℕ} {val : BitVec 64} (hknown : ¬ gicrUnknown o) :
    wp (vgicrWriteReg none offset o val) (fun r _ => r = 0) (fun _ _ => True) s := by
  simp only [vgicrWriteReg, wp_ite, wp_bind, wp_pure, derefVcpu, wp_throw, implies_true, true_and]
  intro hign hisen hprio
  exact absurd ⟨Bool.eq_false_iff.mpr hign, hisen, hprio⟩ hknown

theorem GicrAccess.use_none (hknown : ¬ a.Unknown) :
    wp (a.use hw v none) (fun r _ => r = 0) (fun _ _ => True) s := by
  rw [use]
  cases hwnr : a.wnr with
  | false => exact vgicrReadReg_none
  | true => exact vgicrWriteReg_none fun h => hknown ⟨hwnr, h⟩

theorem GicrAccess.use_unknown (h : a.Unknown) (w : Option (Fin ncpu)) :
    a.use hw v w s = .ok (-1) s := by
  obtain ⟨hwnr, hign, hisen, hprio⟩ := h
  rw [use, if_pos hwnr, vgicrWriteReg, hign, if_neg Bool.false_ne_true, if_neg hisen, if_neg hprio]
  rfl

/-- The number `nvcpu` passes. -/
theorem not_frameChecked {base n : ℕ} (O : Owns s (s.vcpus v).vm base n)
    (hoff : a.offset < gicrSize) (heq : (a.frame : ℤ) = (s.vms (s.vcpus v).vm).nvcpu)
    (hknown : ¬ a.Unknown) : ¬ FrameChecked hw s v a := by
  intro H
  have hframe : a.frame < ncpu := frame_lt hoff
  have hhi : (s.vms (s.vcpus v).vm).nvcpu < 2 ^ 32 := by
    rw [← heq]
    exact_mod_cast hframe.trans (by decide)
  have hrefused := H.absent heq.ge fun _ => none
  rw [GicrAccess.run_used (by simpa using O.ne_zero) (by simpa using hhi) hoff
    (by simpa using heq.le)] at hrefused
  simp only [withEntries_vcpus, withEntries_entries] at hrefused
  exact absurd (ok_of_wp (GicrAccess.use_none hknown) hrefused) (by decide)

/-- **The check does what it is for**, for a machine as `vm_init` makes it, but for the frame
number `nvcpu`: there it refuses only the writes that are refused anyway. -/
theorem vgicr_frame_checked {base n : ℕ} (O : Owns s (s.vcpus v).vm base n)
    (hpos : 1 ≤ (s.vms (s.vcpus v).vm).nvcpu) (hoff : a.offset < gicrSize) :
    FrameChecked hw s v a ↔ (a.frame : ℤ) ≠ (s.vms (s.vcpus v).vm).nvcpu ∨ a.Unknown := by
  have hle := O.nvcpu_le
  have hn : (s.vms (s.vcpus v).vm).nvcpu ≤ ncpu := by
    by_contra hgt
    have hlast := O.fits ncpu (by omega)
    omega
  have hhi : (s.vms (s.vcpus v).vm).nvcpu < 2 ^ 32 := hn.trans_lt (by decide)
  constructor
  · intro H
    by_contra hno
    obtain ⟨heq, hknown⟩ := not_or.mp hno
    exact not_frameChecked O hoff (not_not.mp heq) hknown H
  · intro h
    constructor
    · intro hge f
      rcases lt_or_eq_of_le hge with hlt | heq
      · exact GicrAccess.run_refused (by simpa using O.ne_zero) (by simpa using by omega) hoff
          (by simpa using hlt)
      · have hunknown := h.resolve_left fun hne => hne heq.symm
        rw [GicrAccess.run_used (by simpa using O.ne_zero) (by simpa using hhi) hoff
          (by simpa using heq.ge)]
        exact GicrAccess.use_unknown hunknown _
    · intro hlt
      have hframe : a.frame < ncpu := frame_lt hoff
      have hfit := O.fits a.frame (by omega)
      have hslot := (O.slots ⟨a.frame, hframe⟩ ⟨base + a.frame, hfit⟩).mpr
        ⟨by simpa using by omega, rfl⟩
      refine ⟨hframe, ⟨base + a.frame, hfit⟩, hslot, ?_⟩
      rw [GicrAccess.run_used O.ne_zero hhi hoff hlt.le, hslot]

end

/-- A machine with one virtual CPU. -/
def oneVcpu : Hyp :=
  let s := zeroHyp ⟨0, fun _ => 0, ⟨.leftBy 0, 0⟩⟩ (freshPool (.leftBy 0) 0x1000)
  { s with
    vcpus := Function.update s.vcpus 0 { zeroVcpu with vm := 0x2000, state := .ready }
    vms := Function.update s.vms 0x2000
      { zeroVm with nvcpu := 1, vcpus := Function.update (fun _ => none) 0 (some 0) } }

theorem owns_oneVcpu : Owns oneVcpu 0x2000 0 1 where
  ne_zero := by decide
  slots := by decide
  fits k hk := by
    obtain rfl : k = 0 := by omega
    decide
  mine := by decide
  used := by decide
  nvcpu_le := by decide

/-- The virtual CPU's own frame. -/
theorem vgicr_frame_checked_own : FrameChecked (fun _ _ => 0) oneVcpu 0 ⟨true, 0x10100, 1, none⟩ :=
  (vgicr_frame_checked owns_oneVcpu (by decide) (by decide)).mpr (Or.inl (by decide))

/-- The frame behind it: `GICR_TYPER` is read through a null pointer. -/
theorem vgicr_frame_unchecked :
    ¬ FrameChecked (fun _ _ => 0) oneVcpu 0 ⟨false, 0x20008, 0, some 0⟩ :=
  not_frameChecked owns_oneVcpu (by decide) (by decide) fun h => Bool.false_ne_true h.1

end Xhyper
