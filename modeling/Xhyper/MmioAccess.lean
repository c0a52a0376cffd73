import Xhyper.MmioDispatch
import Xhyper.VgicContain
import Xhyper.VgicDevices

/-!
# Loads and stores to the virtual interrupt controller

A guest's load or store to a trapped region would be refined if a load took as many bytes of the
device's register space as the instruction names, extended as it says, and a store changed these
bytes.

The size of an access is decoded and handed on, but none of the functions looks at it; the bits of
the syndrome that say that it is valid and that a load extends the sign are not decoded.  The
functions take each access for one to a whole register, and one that is is refined.

## Main definitions

* `VgicDev.space`, `VgicDev.cell` — the bytes of the registers, and where they are kept.
* `Refines` — what a load or store should do.
* `Emulated` — what `el1_sync_proc` does.
* `mmio_emulated` — that it does.
-/

namespace Xhyper

open Memory Prog

/-! ## The bytes of the registers -/

namespace VgicDev

variable (hw : GicrHw) (s : Hyp) (v : Fin ncpu)

/-- The size of the register at an offset; `GICR_TYPER` has eight bytes. -/
def regSize : VgicDev → ℕ → ℕ
  | gicd, _ => 4
  | gicr, offset => if 8 ≤ offset % gicrStride ∧ offset % gicrStride < 16 then 8 else 4

/-- The register space. -/
def space (d : VgicDev) : Mem := fun x =>
  valByte ((d.value hw s v (x - x % d.regSize x)).getD 0) (x % d.regSize x)

/-- Where the byte at an offset is kept, for the registers that are memory to the guest: those of
priorities and targets. -/
def cell : VgicDev → ℕ → Option ℕ
  | gicd, x =>
      if 0x400 ≤ x ∧ x ≤ 0x7fb then some (s.lookup v (x - 0x400))
      else if 0x800 ≤ x ∧ x ≤ 0xbfb then some (s.lookup v (x - 0x800) + 1)
      else none
  | gicr, x =>
      if 0x10400 ≤ x % gicrStride ∧ x % gicrStride < 0x10420 then
        some (s.lookup (s.frameVcpu v x) (x % gicrStride - 0x10400))
      else none

end VgicDev

/-! ## What a load or store should do -/

/-- The `2 ^ sas` bytes at an offset, extended. -/
def loadValue (space : Mem) (offset sas : ℕ) (sse : Bool) : BitVec 64 :=
  if sse then (BitVec.ofNat (8 * 2 ^ sas) (readLe space offset (2 ^ sas))).signExtend 64
  else BitVec.ofNat 64 (readLe space offset (2 ^ sas))

section access
variable (d : VgicDev) (hw : GicrHw) (s : Hyp) (v : Fin ncpu) (r : Fin 31) (offset : ℕ)

/-- The `n` bytes at an offset get the low bytes of the register, and no others are changed but
the lock of the distributor. -/
structure Stores (n : ℕ) (t : Hyp) : Prop where
  bytes : ∀ i < n, ∃ a, d.cell s v (offset + i) = some a ∧
    t.ram.mem a = valByte ((s.vcpus v).regs.x r) i
  others : ∀ x ∉ block (s.dist v + 16) 8, (∀ i < n, d.cell s v (offset + i) ≠ some x) →
    t.ram.mem x = s.ram.mem x

/-- **The refinement** of the instruction by a run from `s` to `t`. -/
structure Refines (esr : BitVec 64) (t : Hyp) : Prop where
  load : esrIsv esr = true → esrWnr esr = false →
    (t.vcpus v).regs.x r = loadValue (d.space hw s v) offset (esrSas esr) (esrSse esr)
  store : esrIsv esr = true → esrWnr esr = true → Stores d s v r offset (2 ^ esrSas esr) t
  invalid : esrIsv esr = false → (t.vcpus v).regs.x r = (s.vcpus v).regs.x r ∧
    Set.EqOn t.ram.mem s.ram.mem (block (s.dist v + 16) 8)ᶜ
  others : ∃ x, t.vcpus = ((s.advance v).setX v r x).vcpus

/-- The access is one to a whole register. -/
structure WholeAccess (esr : BitVec 64) : Prop where
  isv : esrIsv esr = true
  sse : esrSse esr = false
  size : 2 ^ esrSas esr = d.regSize offset
  aligned : offset % d.regSize offset = 0

end access

/-! ## What is done -/

namespace Platform

variable (P : Platform)

/-- The device of a function that reads. -/
def readDev (a : ℕ) : Option VgicDev :=
  if a = P.vgicdRead then some .gicd else if a = P.vgicrRead then some .gicr else none

/-- The device of a function that writes. -/
def writeDev (a : ℕ) : Option VgicDev :=
  if a = P.vgicdWrite then some .gicd else if a = P.vgicrWrite then some .gicr else none

end Platform

/-- The functions of `vgicv3.c` at their addresses; none of them looks at the record of the
access. -/
def vgicHandlers (P : Platform) (hw : GicrHw) (isen : BitVec 32) : VmmioHandlers where
  read a v offset reg _ :=
    match P.readDev a with
    | some d => d.read hw isen v offset reg
    | none => throw .nullDeref
  write a v offset val _ :=
    match P.writeDev a with
    | some d => d.write v offset val
    | none => throw .nullDeref

section emulated
variable (P : Platform) (hw : GicrHw) (isen : BitVec 32) (s : Hyp) (v : Fin ncpu) (r : Fin 31)
  (esr far hpfar : BitVec 64)

/-- The run of an abort. -/
def abortRun : EStateM.Result Fault Hyp Unit :=
  el1SyncProc P (vgicHandlers P hw isen) esr far hpfar s

/-- **What `el1_sync_proc` does** with an abort at `ipa`, where `found` is the record that serves
it.  Nothing in `load` and `store` is about the syndrome but its bit WnR. -/
structure Emulated (found : Option VmmioInfo) (ipa : ℕ) : Prop where
  only : ∀ t, abortRun P hw isen s esr far hpfar = .ok () t →
    (∃ x, t.vcpus = ((s.advance v).setX v r x).vcpus) ∧
      (esrWnr esr = true → t.vcpus = (s.advance v).vcpus)
  unserved : found = none → abortRun P hw isen s esr far hpfar = .ok () (s.advance v)
  load : ∀ info ∈ found, ∀ d ∈ P.readDev info.vmmioRead, esrWnr esr = false →
    d.Ready s v (ipa - info.base) → ¬ d.ReadSlip (ipa - info.base) →
    ∃ t, abortRun P hw isen s esr far hpfar = .ok () (t.advance v) ∧
      d.Loads hw s v (ipa - info.base) r t ∧
      (WholeAccess d (ipa - info.base) esr → d.value hw s v (ipa - info.base) ≠ none →
        Refines d hw s v r (ipa - info.base) esr (t.advance v))
  store : ∀ info ∈ found, ∀ d ∈ P.writeDev info.vmmioWrite, esrWnr esr = true →
    d.Ready s v (ipa - info.base) → ¬ d.WriteSlip (ipa - info.base) →
    d.Apart s v (ipa - info.base) ((s.vcpus v).regs.x r) →
    ∃ t, abortRun P hw isen s esr far hpfar = .ok () (t.advance v) ∧
      d.Wrote s v (ipa - info.base) ((s.vcpus v).regs.x r) t ∧
      (WholeAccess d (ipa - info.base) esr → d.cell s v (ipa - info.base) ≠ none →
        Refines d hw s v r (ipa - info.base) esr (t.advance v))

end emulated

/-! ## Only the register of the access -/

section only
variable {ρ : Type} {f : Hyp → ρ}

/-- The loop of `vmmio_handler` leaves alone what the functions it may call do. -/
theorem keeps_vmmioLoop {H : VmmioHandlers} {v : Fin ncpu} {reg : Option (Fin 31)}
    {val : BitVec 64} {x : VmmioAccess}
    (hread : x.wnr = false → ∀ a offset, Keeps f (H.read a v offset reg x))
    (hwrite : ∀ a offset, Keeps f (H.write a v offset val x)) (fuel a : ℕ) :
    Keeps f (vmmioLoop H v reg val x fuel a) := by
  induction fuel generalizing a with
  | zero => exact .throw _
  | succ fuel ih =>
      rw [vmmioLoop]
      refine .ite (.pure _) ?_
      intro s
      rw [wp_bind, wp_get]
      -- the record that was read, in any state from here on
      generalize readVmmio s.ram.mem a = info
      revert s
      change Keeps f _
      dsimp only
      refine .ite ?_ (ih _)
      cases hwnr : x.wnr with
      | false =>
          rw [if_neg Bool.false_ne_true]
          exact .ite (hread hwnr _ _) (ih _)
      | true =>
          rw [if_pos rfl]
          exact .ite (hwrite _ _) (ih _)

section handlers
variable {P : Platform} {hw : GicrHw} {isen : BitVec 32} {v : Fin ncpu}

theorem keeps_handlers_read {reg : Option (Fin 31)} (hf : ∀ r ∈ reg, ∀ s x, f (s.setX v r x) = f s)
    (hmem : ∀ s m, f (s.withMem m) = f s) (a offset : ℕ) (x : VmmioAccess) :
    Keeps f ((vgicHandlers P hw isen).read a v offset reg x) := by
  simp only [vgicHandlers]
  cases P.readDev a with
  | none => exact .throw _
  | some d =>
      cases d with
      | gicd => exact keeps_vgicdRead hf hmem isen offset
      | gicr => exact keeps_vgicrRead hf hw offset

theorem keeps_handlers_write (hf : ∀ s m g, f ((s.withMem m).withGic g) = f s) (a offset : ℕ)
    (val : BitVec 64) (x : VmmioAccess) :
    Keeps f ((vgicHandlers P hw isen).write a v offset val x) := by
  simp only [vgicHandlers]
  cases P.writeDev a with
  | none => exact .throw _
  | some d =>
      cases d with
      | gicd => exact keeps_vgicdWrite hf v offset val
      | gicr => exact keeps_vgicrWrite hf v offset val

end handlers

end only

section frame
variable {P : Platform} {hw : GicrHw} {isen : BitVec 32} {s t : Hyp} {v : Fin ncpu} {r : Fin 31}
  {esr far hpfar : BitVec 64}

theorem setX_setX (x y : BitVec 64) : (s.setX v r x).setX v r y = s.setX v r y := by
  simp [Hyp.setX, Hyp.setVcpu]

theorem setX_vcpus (h : t.vcpus = s.vcpus) (x : BitVec 64) :
    (t.setX v r x).vcpus = (s.setX v r x).vcpus := by
  simp only [Hyp.setX, Hyp.setVcpu, h]

theorem advance_vcpus (h : t.vcpus = s.vcpus) : (t.advance v).vcpus = (s.advance v).vcpus := by
  simp only [Hyp.advance, Hyp.setVcpu, h]

theorem advance_setX (x : BitVec 64) : (s.setX v r x).advance v = (s.advance v).setX v r x := by
  simp [Hyp.advance, Hyp.setX, Hyp.setVcpu]

/-- The virtual CPUs, but for the register of a load. -/
theorem eq_setX_of_mask (h : (t.setX v r 0).vcpus = (s.setX v r 0).vcpus) :
    ∃ x, t.vcpus = (s.setX v r x).vcpus := by
  refine ⟨(t.vcpus v).regs.x r, ?_⟩
  have hset := setX_vcpus (v := v) (r := r) h ((t.vcpus v).regs.x r)
  rw [setX_setX, setX_setX, setX_self] at hset
  exact hset

/-- What `vmmio_handler` leaves alone, `el1_sync_proc` does too. -/
theorem el1SyncProc_keeps {ρ : Type} {f : Hyp → ρ}
    (hrunning : (s.cores s.ram.core).tpidrEl2 = some v) (hec : esr >>> 26 &&& 0x3f#64 = 0x24#64)
    (hfnv : esrFnv esr = false)
    (hread : esrWnr esr = false → ∀ a offset x,
      Keeps f ((vgicHandlers P hw isen).read a v offset (vmmioReg (esrSrt esr)) x))
    (hwrite : ∀ a offset val x, Keeps f ((vgicHandlers P hw isen).write a v offset val x))
    (hrun : abortRun P hw isen s esr far hpfar = .ok () t) :
    ∃ u : Hyp, f u = f s ∧ t = u.advance v := by
  have hkeep : Keeps f
      (vmmioHandler (vgicHandlers P hw isen) v (esrSrt esr) (abortAccess esr far hpfar)) := by
    refine .bind .get fun s => (keeps_derefVm _).bind fun V => .ite (.pure _) ?_
    exact keeps_vmmioLoop (fun h a offset => hread h a offset _)
      (fun a offset => hwrite a offset _ _) _ _
  have hwp : wp (el1SyncProc P (vgicHandlers P hw isen) esr far hpfar)
      (fun _ t => ∃ u : Hyp, f u = f s ∧ t = u.advance v) (fun _ _ => True) s := by
    rw [wp_el1SyncProc_dataAbort hrunning hec hfnv]
    exact wp_mono (hkeep s) (fun _ u hu => ⟨u, hu, rfl⟩) fun _ _ _ => trivial
  exact wp_partial.mp hwp () t hrun

/-- A store changes no register but `elr`. -/
theorem abortRun_store_only (hrunning : (s.cores s.ram.core).tpidrEl2 = some v)
    (hec : esr >>> 26 &&& 0x3f#64 = 0x24#64) (hfnv : esrFnv esr = false) (hwnr : esrWnr esr = true)
    (hrun : abortRun P hw isen s esr far hpfar = .ok () t) : t.vcpus = (s.advance v).vcpus := by
  obtain ⟨u, hu, rfl⟩ := el1SyncProc_keeps (f := fun s => s.vcpus) hrunning hec hfnv
    (fun h => absurd (hwnr.symm.trans h) (by decide))
    (fun a offset val x => keeps_handlers_write (fun _ _ _ => rfl) a offset val x) hrun
  exact advance_vcpus hu

/-- **Only the register of a load and `elr` change.** -/
theorem abortRun_only (A : GuestAbort s v esr r)
    (hrun : abortRun P hw isen s esr far hpfar = .ok () t) :
    (∃ x, t.vcpus = ((s.advance v).setX v r x).vcpus) ∧
      (esrWnr esr = true → t.vcpus = (s.advance v).vcpus) := by
  refine ⟨?_, fun hwnr => abortRun_store_only A.running A.ec A.fnv hwnr hrun⟩
  have hmask : ∀ r' ∈ vmmioReg (esrSrt esr), ∀ (s : Hyp) (x : BitVec 64),
      ((s.setX v r' x).setX v r 0).vcpus = (s.setX v r 0).vcpus := by
    intro r' hr' s x
    rw [A.srt, vmmioReg_of_fin] at hr'
    obtain rfl : r = r' := Option.some.inj hr'
    rw [setX_setX]
  obtain ⟨u, hu, rfl⟩ := el1SyncProc_keeps (f := fun s => (s.setX v r 0).vcpus) A.running A.ec A.fnv
    (fun _ a offset x => keeps_handlers_read hmask (fun _ _ => rfl) a offset x)
    (fun a offset val x => keeps_handlers_write (fun _ _ _ => rfl) a offset val x) hrun
  obtain ⟨x, hx⟩ := eq_setX_of_mask hu
  refine ⟨x, ?_⟩
  rw [advance_vcpus hx, advance_setX]

/-- A load goes to the device of the record that serves it. -/
theorem abortRun_read {as : List ℕ} {info : VmmioInfo} {d : VgicDev} {rc : ℤ}
    (A : GuestAbort s v esr r) (R : Regions s (s.vcpus v).vm as)
    (hfound : served s.ram.mem as (esrWnr esr) (getFaultIpa hpfar far).toNat = some info)
    (hd : P.readDev info.vmmioRead = some d) (hwnr : esrWnr esr = false)
    (hrun : d.read hw isen v ((getFaultIpa hpfar far).toNat - info.base) (some r) s = .ok rc t) :
    abortRun P hw isen s esr far hpfar = .ok () (t.advance v) := by
  have hcall : info.call (vgicHandlers P hw isen) v (some r) ((s.vcpus v).regs.x r)
      (abortAccess esr far hpfar) s = .ok rc t := by
    have hread : ¬ (abortAccess esr far hpfar).wnr = true := by
      rw [abortAccess, hwnr]
      exact Bool.false_ne_true
    rw [VmmioInfo.call, if_neg hread]
    simp only [vgicHandlers, hd]
    exact hrun
  rw [abortRun, el1SyncProc_served A R, hfound]
  exact bind_of_ok hcall

/-- A store goes to the device of the record that serves it. -/
theorem abortRun_write {as : List ℕ} {info : VmmioInfo} {d : VgicDev} {rc : ℤ}
    (A : GuestAbort s v esr r) (R : Regions s (s.vcpus v).vm as)
    (hfound : served s.ram.mem as (esrWnr esr) (getFaultIpa hpfar far).toNat = some info)
    (hd : P.writeDev info.vmmioWrite = some d) (hwnr : esrWnr esr = true)
    (hrun : d.write v ((getFaultIpa hpfar far).toNat - info.base) ((s.vcpus v).regs.x r) s =
      .ok rc t) :
    abortRun P hw isen s esr far hpfar = .ok () (t.advance v) := by
  have hcall : info.call (vgicHandlers P hw isen) v (some r) ((s.vcpus v).regs.x r)
      (abortAccess esr far hpfar) s = .ok rc t := by
    rw [VmmioInfo.call, if_pos (show (abortAccess esr far hpfar).wnr = true from hwnr)]
    simp only [vgicHandlers, hd]
    exact hrun
  rw [abortRun, el1SyncProc_served A R, hfound]
  exact bind_of_ok hcall

end frame

/-! ## A load from a whole register -/

section whole
variable {d : VgicDev} {hw : GicrHw} {s t : Hyp} {v : Fin ncpu} {r : Fin 31} {offset : ℕ}
  {esr x : BitVec 64}

/-- A value of 32 bits. -/
theorem setWidth_lt (x : BitVec 32) : (x.setWidth 64).toNat < 256 ^ 4 := by
  rw [BitVec.toNat_setWidth]
  exact (Nat.mod_le _ _).trans_lt x.isLt

theorem gicdValue_lt {isen : BitVec 32} (h : gicdValue isen s v offset = some x) :
    x.toNat < 256 ^ 4 := by
  rw [gicdValue] at h
  cases hF : gicdFields offset with
  | some F =>
      rw [hF] at h
      rw [← Option.some.inj h]
      exact setWidth_lt _
  | none =>
      rw [hF] at h
      dsimp only at h
      split at h
      · rw [← Option.some.inj h]
        split <;> decide
      split at h
      · rw [← Option.some.inj h]
        exact setWidth_lt _
      split at h
      · rw [← Option.some.inj h]
        exact setWidth_lt _
      split at h
      · rw [← Option.some.inj h]
        decide
      split at h
      · rw [← Option.some.inj h]
        exact setWidth_lt _
      · cases h

theorem gicrValue_lt {w : Fin ncpu} {o : ℕ} (ho : o ≠ 8) (h : gicrValue hw s w o = some x) :
    x.toNat < 256 ^ 4 := by
  rw [gicrValue, if_neg ho] at h
  split at h
  · rw [← Option.some.inj h]
    decide
  split at h
  · rw [← Option.some.inj h]
    exact setWidth_lt _
  split at h
  · rw [← Option.some.inj h]
    exact setWidth_lt _
  split at h
  · rw [← Option.some.inj h]
    exact setWidth_lt _
  · cases h

/-- The value of a register has its size. -/
theorem VgicDev.value_lt (h : d.value hw s v offset = some x) (hal : offset % d.regSize offset = 0) :
    x.toNat < 256 ^ d.regSize offset := by
  cases d with
  | gicd => exact gicdValue_lt h
  | gicr =>
      simp only [regSize] at hal ⊢
      by_cases htyper : 8 ≤ offset % gicrStride ∧ offset % gicrStride < 16
      · rw [if_pos htyper]
        exact x.isLt
      · rw [if_neg htyper]
        have ho : offset % gicrStride ≠ 8 := fun h8 => htyper ⟨h8.ge, h8.trans_lt (by decide)⟩
        exact gicrValue_lt ho h

/-- The register of the bytes of a register. -/
theorem VgicDev.reg_of_byte {i : ℕ} (hal : offset % d.regSize offset = 0)
    (hi : i < d.regSize offset) :
    (offset + i) % d.regSize (offset + i) = i ∧ d.regSize (offset + i) = d.regSize offset := by
  cases d with
  | gicd =>
      simp only [regSize] at hal hi ⊢
      exact ⟨by omega, trivial⟩
  | gicr =>
      simp only [regSize, gicrStride] at hal hi ⊢
      by_cases htyper : 8 ≤ offset % 0x20000 ∧ offset % 0x20000 < 16
      · rw [if_pos htyper] at hal hi
        have hsame : 8 ≤ (offset + i) % 0x20000 ∧ (offset + i) % 0x20000 < 16 := by omega
        rw [if_pos htyper, if_pos hsame]
        exact ⟨by omega, rfl⟩
      · rw [if_neg htyper] at hal hi
        have hsame : ¬ (8 ≤ (offset + i) % 0x20000 ∧ (offset + i) % 0x20000 < 16) := by omega
        rw [if_neg htyper, if_neg hsame]
        exact ⟨by omega, rfl⟩

/-- The bytes of a number, read as a number. -/
theorem readLe_valByte {m : Mem} {n : ℕ} (h : ∀ i < n, m (offset + i) = valByte x i) :
    readLe m offset n = x.toNat % 256 ^ n := by
  rw [← readLe_writeLe m offset n x.toNat]
  refine readLe_congr fun y hy => ?_
  obtain ⟨i, rfl⟩ := Nat.exists_eq_add_of_le hy.1
  rw [h i (Nat.lt_of_add_lt_add_left hy.2), writeLe_of_mem hy, Nat.add_sub_cancel_left, valByte]
  apply BitVec.eq_of_toNat_eq
  rw [BitVec.toNat_setWidth, BitVec.toNat_ushiftRight, BitVec.toNat_ofNat,
    Nat.shiftRight_eq_div_pow, Nat.mul_comm, Nat.pow_mul]

/-- **A load from a whole register** gets its bytes. -/
theorem VgicDev.Loads.refines (L : d.Loads hw s v offset r t) (hwnr : esrWnr esr = false)
    (W : WholeAccess d offset esr) (hvalue : d.value hw s v offset ≠ none) :
    Refines d hw s v r offset esr (t.advance v) := by
  obtain ⟨x, hx⟩ := Option.ne_none_iff_exists'.mp hvalue
  have hvcpus : (t.advance v).vcpus = ((s.advance v).setX v r x).vcpus := by
    have hset := L.vcpus
    rw [hx, Option.getD_some] at hset
    rw [advance_vcpus hset, advance_setX]
  have hbytes : ∀ i < d.regSize offset, d.space hw s v (offset + i) = valByte x i := by
    intro i hi
    obtain ⟨hmod, hsize⟩ := d.reg_of_byte W.aligned hi
    rw [VgicDev.space, hmod, Nat.add_sub_cancel, hx, Option.getD_some]
  have hread : readLe (d.space hw s v) offset (2 ^ esrSas esr) = x.toNat := by
    rw [W.size, readLe_valByte hbytes]
    exact Nat.mod_eq_of_lt (d.value_lt hx W.aligned)
  refine ⟨fun _ _ => ?_, fun _ h => ?_, fun h => ?_, x, hvcpus⟩
  · rw [loadValue, W.sse, if_neg Bool.false_ne_true, hread, BitVec.ofNat_toNat, BitVec.setWidth_eq,
      hvcpus]
    simp [Hyp.setX, Hyp.setVcpu]
  · exact absurd (hwnr.symm.trans h) Bool.false_ne_true
  · exact absurd (h.symm.trans W.isv) Bool.false_ne_true

end whole

/-! ## A store to a whole register -/

section store
variable {d : VgicDev} {hw : GicrHw} {s t : Hyp} {v : Fin ncpu} {r : Fin 31} {offset : ℕ}
  {esr val : BitVec 64}

/-- The loop over the four bytes of a register that is memory to the guest. -/
structure CellLoop (d : VgicDev) (s : Hyp) (v : Fin ncpu) (offset : ℕ) (val : BitVec 64)
    (L : RegLoop) : Prop where
  loop : d.loop offset val = some L
  n : L.n = 4
  sel : ∀ i, L.sel i = true
  byte : L.byte = valByte val
  word : L.irqNum % 4 = 0
  cell : ∀ i < 4, d.cell s v (offset + i) = some (L.addr (d.cpu s v offset) s i)

theorem gicd_cellLoop (hal : offset % 4 = 0) (hcell : VgicDev.gicd.cell s v offset ≠ none) :
    ∃ L, CellLoop .gicd s v offset val L := by
  by_cases hprio : 0x400 ≤ offset ∧ offset ≤ 0x7fb
  · have hloop : gicdLoop offset val = some (prioLoop ((offset - 0x400) / 4 * 4) val) := by
      rw [gicdLoop, if_neg (by omega), if_neg (by omega), if_pos hprio]
    refine ⟨_, hloop, rfl, fun _ => rfl, rfl, Nat.mul_mod_left _ _, fun i hi => ?_⟩
    have hirq : offset + i - 0x400 = (offset - 0x400) / 4 * 4 + i := by omega
    rw [VgicDev.cell, if_pos (by omega), hirq]
    rfl
  by_cases htarget : 0x800 ≤ offset ∧ offset ≤ 0xbfb
  · have hloop : gicdLoop offset val = some (targetLoop ((offset - 0x800) / 4 * 4) val) := by
      rw [gicdLoop, if_neg (by omega), if_neg (by omega), if_neg hprio, if_pos htarget]
    refine ⟨_, hloop, rfl, fun _ => rfl, rfl, Nat.mul_mod_left _ _, fun i hi => ?_⟩
    have hirq : offset + i - 0x800 = (offset - 0x800) / 4 * 4 + i := by omega
    rw [VgicDev.cell, if_neg (by omega), if_pos (by omega), hirq]
    rfl
  · rw [VgicDev.cell, if_neg hprio, if_neg htarget] at hcell
    exact absurd rfl hcell

theorem gicr_cellLoop (hal : offset % 4 = 0) (hslip : ¬ VgicDev.gicr.WriteSlip offset)
    (hcell : VgicDev.gicr.cell s v offset ≠ none) : ∃ L, CellLoop .gicr s v offset val L := by
  have hprio : 0x10400 ≤ offset % gicrStride ∧ offset % gicrStride < 0x10420 := by
    by_contra h
    rw [VgicDev.cell, if_neg h] at hcell
    exact hcell rfl
  have hlast : 0x10400 ≤ offset % gicrStride ∧ offset % gicrStride ≤ 0x1041c := by
    simp only [gicrStride] at hprio ⊢
    omega
  have hfirst : offset < gicrStride := Nat.lt_of_not_le fun h => hslip ⟨h, hlast⟩
  have hmod : offset % gicrStride = offset := Nat.mod_eq_of_lt hfirst
  rw [hmod] at hprio hlast
  have hloop : VgicDev.gicr.loop offset val = some (prioLoop (gicrPrioIrq offset) val) := by
    rw [VgicDev.loop, gicrLoop, hmod, hmod, if_neg (by omega), if_pos hlast]
  refine ⟨_, hloop, rfl, fun _ => rfl, rfl, ?_, fun i hi => ?_⟩
  · simp only [prioLoop, gicrPrioIrq]
    omega
  · have hbyte : (offset + i) % gicrStride = offset + i := Nat.mod_eq_of_lt (by
      simp only [gicrStride]
      omega)
    have hframe : s.frameVcpu v (offset + i) = s.frameVcpu v offset := by
      have hdiv : (offset + i) / gicrStride = offset / gicrStride := by
        simp only [gicrStride]
        omega
      simp only [Hyp.frameVcpu, hdiv]
    have hirq : offset + i - 0x10400 = gicrPrioIrq offset + i := by
      simp only [gicrPrioIrq]
      omega
    rw [VgicDev.cell, hbyte, if_pos (by omega), hframe, hirq]
    rfl

/-- The bytes of a register of priorities or targets are those of a loop. -/
theorem VgicDev.cellLoop (hal : offset % 4 = 0) (hslip : ¬ d.WriteSlip offset)
    (hcell : d.cell s v offset ≠ none) : ∃ L, CellLoop d s v offset val L := by
  cases d with
  | gicd => exact gicd_cellLoop hal hcell
  | gicr => exact gicr_cellLoop hal hslip hcell

/-- The loop sets each of the four bytes. -/
theorem CellLoop.scatter {L : RegLoop} (C : CellLoop d s v offset val L) {i : ℕ} (hi : i < 4)
    (m : Mem) :
    scatter m (L.addr (d.cpu s v offset) s) L.sel L.byte L.n (L.addr (d.cpu s v offset) s i) =
      valByte val i := by
  have hword := C.word
  rw [C.n, ← C.byte]
  refine scatter_of_mem (fun i hi j hj heq => ?_) hi (C.sel i)
  have hsame : (L.irqNum + i) / 32 = (L.irqNum + j) / 32 := by omega
  have hirq := irqAddr_inj hsame heq
  omega

/-- **A store to a whole register** sets its bytes. -/
theorem VgicDev.Wrote.refines (H : d.Wrote s v offset ((s.vcpus v).regs.x r) t)
    (hwnr : esrWnr esr = true) (W : WholeAccess d offset esr) (hslip : ¬ d.WriteSlip offset)
    (hapart : d.Apart s v offset ((s.vcpus v).regs.x r)) (hcell : d.cell s v offset ≠ none) :
    Refines d hw s v r offset esr (t.advance v) := by
  have hvcpus : (t.advance v).vcpus = (s.advance v).vcpus := advance_vcpus H.vcpus
  have hfour : d.regSize offset = 4 := by
    cases d with
    | gicd => rfl
    | gicr =>
        refine if_neg fun htyper => hcell (if_neg ?_)
        omega
  have hal := W.aligned
  rw [hfour] at hal
  obtain ⟨L, C⟩ : ∃ L, CellLoop d s v offset ((s.vcpus v).regs.x r) L :=
    d.cellLoop hal hslip hcell
  have hmem := H.mem
  rw [C.loop] at hmem
  refine ⟨fun _ h => ?_, fun _ _ => ⟨fun i hi => ?_, fun x hx hother => ?_⟩, fun h => ?_, ?_⟩
  · exact absurd (hwnr.symm.trans h) (by decide)
  · rw [W.size, hfour] at hi
    refine ⟨_, C.cell i hi, ?_⟩
    have hout : L.addr (d.cpu s v offset) s i ∉ block (s.dist v + 16) 8 := fun hx =>
      hapart L C.loop i (C.n ▸ hi) (C.sel i) (lock_subset_dist _ hx)
    exact (hmem _ hout).trans (C.scatter hi _)
  · refine (hmem x hx).trans (scatter_of_notMem fun i hi _ heq => ?_)
    rw [C.n] at hi
    refine hother i ?_ ((C.cell i hi).trans (congrArg some heq.symm))
    rwa [W.size, hfour]
  · exact absurd (h.symm.trans W.isv) Bool.false_ne_true
  · refine ⟨(s.vcpus v).regs.x r, hvcpus.trans ?_⟩
    have hself : ((s.advance v).vcpus v).regs.x r = (s.vcpus v).regs.x r := by
      simp [Hyp.advance, Hyp.setVcpu]
    rw [← hself, setX_self]

end store

/-! ## Every abort -/

section abort
variable {P : Platform} {hw : GicrHw} {isen : BitVec 32} {s : Hyp} {v : Fin ncpu} {r : Fin 31}
  {esr far hpfar : BitVec 64}

/-- **Accesses to registered regions are emulated** by the first region that serves them. -/
theorem mmio_emulated {as : List ℕ} (A : GuestAbort s v esr r) (R : Regions s (s.vcpus v).vm as) :
    Emulated P hw isen s v r esr far hpfar
      (served s.ram.mem as (esrWnr esr) (getFaultIpa hpfar far).toNat)
      (getFaultIpa hpfar far).toNat where
  only t hrun := abortRun_only A hrun
  unserved hnone := by
    rw [abortRun, el1SyncProc_served A R, hnone]
  load info hfound d hd hwnr hready hslip := by
    obtain ⟨rc, t, hrun, hloads⟩ := @VgicDev.load_runs d s v _ hw isen r hready hslip
    exact ⟨t, abortRun_read A R hfound hd hwnr hrun, hloads,
      fun W hvalue => hloads.refines hwnr W hvalue⟩
  store info hfound d hd hwnr hready hslip hapart := by
    obtain ⟨rc, t, hrun, hwrote⟩ := d.store_runs hready hslip hapart
    exact ⟨t, abortRun_write A R hfound hd hwnr hrun, hwrote,
      fun W hcell => hwrote.refines hwnr W hslip hapart hcell⟩

end abort

/-! ## The accesses that are not refined -/

/-- The record of the distributor's region. -/
def gicdInfo : VmmioInfo := ⟨0, gicdBase, 0x10000, obedient.vgicdRead, obedient.vgicdWrite⟩

/-- A machine that has this region.  The bytes of its interrupts' records are `fill`. -/
def gicdGuest (fill : Byte) : Hyp :=
  { (filledHyp fill 63).withMem (writeVmmio (filledHyp fill 63).ram.mem 0x8000 gicdInfo) with
    vms := fun _ => { zeroVm with vgicDist := 0x2000, vmmios := 0x8000 }
    cores := fun core => { (filledHyp fill 63).cores core with tpidrEl2 := some 0 } }

section guest
variable {fill : Byte} {offset : ℕ} {esr : BitVec 64} {wnr : Bool}

theorem gicdGuest_mem {x : ℕ} (hx : x ∉ block 0x8000 sizeofVmmioInfo) :
    (gicdGuest fill).ram.mem x = (filledHyp fill 63).ram.mem x :=
  writeVmmio_of_notMem hx

theorem gicdGuest_info : readVmmio (gicdGuest fill).ram.mem 0x8000 = gicdInfo :=
  (readVmmio_writeVmmio (filledHyp fill 63).ram.mem 0x8000 gicdInfo).trans (by decide)

theorem gicdGuest_regions : Regions (gicdGuest fill) 0x1000 [0x8000] := by
  refine ⟨⟨rfl, by decide, ?_⟩, show 0x8000 < 2 ^ 64 by decide⟩
  exact congrArg VmmioInfo.next gicdGuest_info

theorem gicdGuest_served (h : offset < 0x1000) :
    served (gicdGuest fill).ram.mem [0x8000] wnr (gicdBase + offset) = some gicdInfo := by
  have hserves : gicdInfo.Serves wnr (gicdBase + offset) := by
    refine ⟨⟨Nat.le_add_right _ _, ?_⟩, by cases wnr <;> decide⟩
    simp only [gicdInfo, gicdBase]
    omega
  rw [served, List.map_cons, gicdGuest_info]
  exact List.find?_cons_of_pos (decide_eq_true hserves)

theorem gicdGuest_dist : (gicdGuest fill).dist 0 = 0x2000 := rfl

theorem gicdGuest_free : VgicFree (gicdGuest fill) 0 where
  vm_ne := show 0x1000 ≠ 0 by decide
  dist_ne := show 0x2000 ≠ 0 by decide
  core := show 0 < 2 ^ 31 by decide
  lock_free := by
    have hsame : ∀ k ≤ 20, readLe (gicdGuest fill).ram.mem (0x2000 + k) 4 =
        readLe (filledHyp fill 63).ram.mem (0x2000 + k) 4 := by
      intro k hk
      refine readLe_congr fun x hx => gicdGuest_mem ?_
      simp only [mem_block, sizeofVmmioInfo] at hx ⊢
      omega
    have hlock : distLock (gicdGuest fill).ram.mem 0x2000 =
        distLock (filledHyp fill 63).ram.mem 0x2000 := by
      rw [distLock, distLock, hsame 16 (by decide), hsame 20 (by decide)]
    have hfree := (@filled_fits fill 63 0).lock_free
    rwa [filled_dist, ← hlock] at hfree

/-- Where the records of the first interrupts are. -/
theorem gicdGuest_record {irq : ℕ} (h : irq < 16) :
    (gicdGuest fill).lookup 0 irq = 0x300002 + sizeofIrqConfig * irq := by
  rw [Hyp.lookup, irqAddr, if_pos h]
  rfl

theorem gicdGuest_low {irq : ℕ} (h : irq < 32) : 0x300000 ≤ (gicdGuest fill).lookup 0 irq := by
  have hcpu : ((gicdGuest fill).vcpus 0).vgicCpu = 0x300000 := rfl
  rw [Hyp.lookup, hcpu, irqAddr, sgiAddr, ppiAddr, if_pos h]
  split <;> omega

/-- The bytes of the records of private interrupts. -/
theorem gicdGuest_byte {irq : ℕ} (h : irq < 32) (f : ℕ) :
    (gicdGuest fill).ram.mem ((gicdGuest fill).lookup 0 irq + f) = fill := by
  have hlow := @gicdGuest_low fill irq h
  rw [gicdGuest_mem]
  · exact filled_byte (by omega)
  · simp only [mem_block, sizeofVmmioInfo]
    omega

/-- The outcome of an access at an offset in the region, for the register `X[0]`, is not what the
instruction says. -/
def Unrefined (esr : BitVec 64) (offset : ℕ) : Prop :=
  GuestAbort (gicdGuest 1) 0 esr 0 ∧
    getFaultIpa 0x80000 (BitVec.ofNat 64 offset) = BitVec.ofNat 64 (gicdBase + offset) ∧
    ∃ t, abortRun obedient (fun _ _ => 0) 0 (gicdGuest 1) esr (BitVec.ofNat 64 offset) 0x80000 =
      .ok () t ∧ ¬ Refines .gicd (fun _ _ => 0) (gicdGuest 1) 0 0 offset esr t

theorem gicdGuest_abort (hec : esr >>> 26 &&& 0x3f#64 = 0x24#64) (hfnv : esrFnv esr = false)
    (hsrt : esrSrt esr = 0) : GuestAbort (gicdGuest fill) 0 esr 0 :=
  ⟨rfl, show 0x1000 ≠ 0 by decide, hec, hfnv, hsrt⟩

/-- A load from the region gets the whole register. -/
theorem gicdGuest_load (A : GuestAbort (gicdGuest 1) 0 esr 0) (h : offset < 0x1000)
    (hipa : getFaultIpa 0x80000 (BitVec.ofNat 64 offset) = BitVec.ofNat 64 (gicdBase + offset))
    (hwnr : esrWnr esr = false) (hslip : ¬ VgicDev.gicd.ReadSlip offset)
    (hload : ∀ t : Hyp, (t.vcpus 0).regs.x 0 =
      (VgicDev.gicd.value (fun _ _ => 0) (gicdGuest 1) 0 offset).getD 0 →
        ¬ Refines .gicd (fun _ _ => 0) (gicdGuest 1) 0 0 offset esr t) :
    Unrefined esr offset := by
  have hnat : (getFaultIpa 0x80000 (BitVec.ofNat 64 offset)).toNat = gicdBase + offset := by
    rw [hipa, BitVec.toNat_ofNat, gicdBase]
    omega
  have hserved := @gicdGuest_served 1 offset (esrWnr esr) h
  have hdev : obedient.readDev gicdInfo.vmmioRead = some .gicd := rfl
  have hoff : gicdBase + offset - gicdInfo.base = offset := Nat.add_sub_cancel_left _ _
  obtain ⟨rc, t, hrun, hloads⟩ :=
    @VgicDev.load_runs .gicd (gicdGuest 1) 0 offset (fun _ _ => 0) 0 0 gicdGuest_free hslip
  refine ⟨A, hipa, t.advance 0, ?_, hload _ ?_⟩
  · rw [← hnat] at hserved
    rw [← hoff, ← hnat] at hrun
    exact abortRun_read A gicdGuest_regions hserved hdev hwnr hrun
  · have hreg := congrFun (advance_vcpus (v := 0) hloads.vcpus) 0
    rw [advance_setX] at hreg
    rw [hreg]
    simp [Hyp.setX, Hyp.setVcpu]
    rfl

/-- A load whose syndrome is not valid. -/
theorem unrefined_invalid : Unrefined 0x92800000 0 := by
  refine gicdGuest_load (gicdGuest_abort (by decide) (by decide) (by decide)) (by decide)
    (by decide) (by decide) (by simp only [VgicDev.ReadSlip]; omega) fun t ht H => ?_
  have hzero := (H.invalid (by decide)).1
  obtain ⟨m, hm⟩ : ∃ m : ℕ, VgicDev.gicd.value (fun _ _ => 0) (gicdGuest 1) 0 0 =
      some (if m = 0 then 0x10 else 0x12) := ⟨_, rfl⟩
  have hbefore : ((gicdGuest 1).vcpus 0).regs.x 0 = 0 := rfl
  rw [ht, hm, hbefore, Option.getD_some] at hzero
  split at hzero
  · exact absurd hzero (by decide)
  · exact absurd hzero (by decide)

/-- What a load of one byte from a known register should get. -/
theorem loadValue_byte {x : BitVec 64} (hal : offset % 4 = 0) (sse : Bool)
    (hx : VgicDev.gicd.value (fun _ _ => 0) (gicdGuest 1) 0 offset = some x) :
    loadValue (VgicDev.gicd.space (fun _ _ => 0) (gicdGuest 1) 0) offset 0 sse =
      if sse then (x.setWidth 8).signExtend 64 else (x.setWidth 8).setWidth 64 := by
  have hspace : VgicDev.gicd.space (fun _ _ => 0) (gicdGuest 1) 0 offset = x.setWidth 8 := by
    have hmod : offset % VgicDev.gicd.regSize offset = 0 := hal
    rw [VgicDev.space, hmod, Nat.sub_zero, hx, Option.getD_some, valByte, Nat.zero_mul,
      BitVec.ushiftRight_zero]
  rw [loadValue, pow_zero, readLe_byte, hspace]
  cases sse with
  | true =>
      rw [if_pos rfl, if_pos rfl]
      exact congrArg (BitVec.signExtend 64) (BitVec.ofNat_toNat 8 _)
  | false =>
      rw [if_neg Bool.false_ne_true, if_neg Bool.false_ne_true]
      exact BitVec.ofNat_toNat 64 _

/-- A load of one byte of four. -/
theorem unrefined_size : Unrefined 0x93000000 0x400 := by
  refine gicdGuest_load (gicdGuest_abort (by decide) (by decide) (by decide)) (by decide)
    (by decide) (by decide) (by simp only [VgicDev.ReadSlip]; omega) fun t ht H => ?_
  have hprio : VgicDev.gicd.value (fun _ _ => 0) (gicdGuest 1) 0 0x400 = some 0x01010101 := by
    have hone : ∀ k < 4, ((gicdGuest 1).lockDist 0).ram.mem
        (RegFields.addr ⟨0, 4, 0, 8⟩ 0 ((gicdGuest 1).lockDist 0) k) = 1 := by
      intro k hk
      have hrec := @gicdGuest_record 1 (0 + k) (by omega)
      have hmem := @gicdGuest_byte 1 (0 + k) (by omega) 0
      have hout : (gicdGuest 1).lookup 0 (0 + k) ∉ block ((gicdGuest 1).dist 0 + 16) 8 := by
        rw [hrec, gicdGuest_dist]
        simp only [mem_block]
        omega
      rw [RegFields.addr, lockDist_lookup, Nat.add_zero, Hyp.lockDist_mem,
        setDistLock_outside hout]
      exact hmem
    have hsum : gathered ((gicdGuest 1).lockDist 0).ram.mem
        (RegFields.addr ⟨0, 4, 0, 8⟩ 0 ((gicdGuest 1).lockDist 0)) 8 0 4 = 0x01010101 := by
      simp only [gathered, hone 0 (by decide), hone 1 (by decide), hone 2 (by decide),
        hone 3 (by decide)]
      decide
    have hvalue : VgicDev.gicd.value (fun _ _ => 0) (gicdGuest 1) 0 0x400 =
        some ((gathered ((gicdGuest 1).lockDist 0).ram.mem
          (RegFields.addr ⟨0, 4, 0, 8⟩ 0 ((gicdGuest 1).lockDist 0)) 8 0 4).setWidth 64) := rfl
    rw [hvalue, hsum]
    rfl
  have hload := H.load (by decide) (by decide)
  rw [ht, show esrSas 0x93000000 = 0 by decide, loadValue_byte (by decide) _ hprio, hprio] at hload
  exact absurd hload (by decide)

/-- A load of one byte, sign-extended. -/
theorem unrefined_sign : Unrefined 0x93200000 4 := by
  refine gicdGuest_load (gicdGuest_abort (by decide) (by decide) (by decide)) (by decide)
    (by decide) (by decide) (by simp only [VgicDev.ReadSlip]; omega) fun t ht H => ?_
  obtain ⟨q, hq⟩ : ∃ q : BitVec 32, VgicDev.gicd.value (fun _ _ => 0) (gicdGuest 1) 0 4 =
      some ((q ||| 7#32 <<< 5).setWidth 64) := ⟨_, rfl⟩
  have hload := H.load (by decide) (by decide)
  rw [ht, show esrSas 0x93200000 = 0 by decide, loadValue_byte (by decide) _ hq, hq,
    show esrSse 0x93200000 = true by decide, if_pos rfl, Option.getD_some] at hload
  have htop := congrArg (fun x => x.getLsbD 63) hload
  simp at htop

/-- A store of one byte of four. -/
theorem unrefined_store : Unrefined 0x93000040 0x400 := by
  have A : GuestAbort (gicdGuest 1) 0 0x93000040 0 :=
    gicdGuest_abort (by decide) (by decide) (by decide)
  have hloop : gicdLoop 0x400 (((gicdGuest 1).vcpus 0).regs.x 0) = some (prioLoop 0 0) := rfl
  have hrec : ∀ i < 4, (prioLoop 0 0).addr 0 (gicdGuest 1) i = 0x300002 + sizeofIrqConfig * i := by
    intro i hi
    have hirq : (prioLoop 0 0).irqNum + i = i := Nat.zero_add i
    rw [RegLoop.addr, hirq, gicdGuest_record (by omega)]
    rfl
  have hapart : VgicDev.gicd.Apart (gicdGuest 1) 0 0x400 (((gicdGuest 1).vcpus 0).regs.x 0) := by
    intro L hL i hi _
    obtain rfl := Option.some.inj (hloop.symm.trans hL)
    rw [VgicDev.cpu, hrec i hi, gicdGuest_dist]
    simp only [mem_block, sizeofVgicDist]
    omega
  obtain ⟨rc, t, hrun, hwrote⟩ := VgicDev.store_runs (d := .gicd) gicdGuest_free
    (by simp only [VgicDev.WriteSlip]; omega) hapart
  refine ⟨A, by decide, t.advance 0, ?_, fun H => ?_⟩
  · have hserved := @gicdGuest_served 1 0x400 (esrWnr 0x93000040) (by decide)
    have hdev : obedient.writeDev gicdInfo.vmmioWrite = some .gicd := rfl
    exact abortRun_write A gicdGuest_regions hserved hdev (by decide) hrun
  · have hcell : VgicDev.gicd.cell (gicdGuest 1) 0 0x400 ≠ none := by simp [VgicDev.cell]
    obtain ⟨L, C⟩ : ∃ L, CellLoop .gicd (gicdGuest 1) 0 0x400 (((gicdGuest 1).vcpus 0).regs.x 0) L :=
      gicd_cellLoop (by decide) hcell
    obtain rfl := Option.some.inj (hloop.symm.trans C.loop)
    -- the second byte is not named by the instruction, and is set
    have hsecond : (prioLoop 0 0).addr 0 (gicdGuest 1) 1 ∉ block ((gicdGuest 1).dist 0 + 16) 8 := by
      rw [hrec 1 (by decide), gicdGuest_dist]
      simp only [mem_block]
      omega
    have hset := (hwrote.mem _ hsecond).trans (C.scatter (by decide) _)
    have hkeep := (H.store (by decide) (by decide)).others _ hsecond fun i hi heq => by
      have hfirst := (C.cell i (hi.trans (by decide))).symm.trans heq
      rw [show i = 0 from Nat.lt_one_iff.mp hi] at hfirst
      have haddr := Option.some.inj hfirst
      rw [VgicDev.cpu, hrec 0 (by decide), hrec 1 (by decide)] at haddr
      exact absurd haddr (by decide)
    have hone : (gicdGuest 1).ram.mem ((prioLoop 0 0).addr 0 (gicdGuest 1) 1) = 1 :=
      gicdGuest_byte (by decide) 0
    rw [show (t.advance 0).ram.mem = t.ram.mem from rfl, hone] at hkeep
    exact absurd (hset.symm.trans hkeep) (by decide)

end guest

/-- A load whose syndrome is not valid changes its register; of a load or store of one byte, the
size and the sign are ignored. -/
theorem mmio_not_refined : Unrefined 0x92800000 0 ∧ Unrefined 0x93000000 0x400 ∧
    Unrefined 0x93200000 4 ∧ Unrefined 0x93000040 0x400 :=
  ⟨unrefined_invalid, unrefined_size, unrefined_sign, unrefined_store⟩

/-- A load of the four bytes of a priority register is served by the region's record. -/
theorem mmio_emulated_load : GuestAbort (gicdGuest 1) 0 0x93800000 0 ∧
    WholeAccess .gicd 0x400 0x93800000 ∧ VgicDev.gicd.Ready (gicdGuest 1) 0 0x400 ∧
    Emulated obedient (fun _ _ => 0) 0 (gicdGuest 1) 0 0 0x93800000 0x400 0x80000 (some gicdInfo)
      (gicdBase + 0x400) := by
  have A : GuestAbort (gicdGuest 1) 0 0x93800000 0 :=
    gicdGuest_abort (by decide) (by decide) (by decide)
  have hipa : (getFaultIpa 0x80000 0x400).toNat = gicdBase + 0x400 := by decide
  have H := @mmio_emulated obedient (fun _ _ => 0) 0 (gicdGuest 1) 0 0 0x93800000 0x400 0x80000
    [0x8000] A
    gicdGuest_regions
  rw [hipa, gicdGuest_served (by decide)] at H
  exact ⟨A, ⟨by decide, by decide, by decide, by decide⟩, gicdGuest_free, H⟩

end Xhyper
