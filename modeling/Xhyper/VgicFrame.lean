import Xhyper.VgicRecords

/-!
# What an access to the interrupt controller leaves alone

A read changes a register of the guest, a write the records of interrupts and the physical
controller.  An access to the distributor also changes the bytes of its lock.

## Main definitions

* `underDistLock`, `onDist` — what runs under the lock of a distributor.
* `keeps_vgicdRead`, `keeps_vgicrRead` — reads.
* `keeps_vgicdWrite`, `keeps_vgicrWrite` — writes.
-/

namespace Xhyper

open Memory Prog

variable {ρ : Type} {f : Hyp → ρ}

/-! ## Looking records up -/

theorem keeps_derefVm (vm : ℕ) : Keeps f (derefVm vm) :=
  .bind .get fun _ => .ite (.throw _) (.pure _)

theorem keeps_derefVcpu (entry : Option (Fin ncpu)) : Keeps f (derefVcpu entry) := by
  cases entry with
  | none => exact .throw _
  | some w => exact .pure w

theorem keeps_loadLe (a n : ℕ) : Keeps f (loadLe a n) := .get_bind fun _ => rfl

theorem keeps_vgicIrqGet (v : Fin ncpu) (irqNum : ℤ) : Keeps f (vgicIrqGet v irqNum) :=
  .bind .get fun _ => .ite (.pure _) <| .ite (.pure _) <|
    .ite ((keeps_derefVm _).bind fun _ => .ite (.throw _) (.pure _)) (.throw _)

theorem keeps_vgicGather (v : Fin ncpu) (irqNum n field width : ℕ) (init : BitVec 32) :
    Keeps f (vgicGather v irqNum n field width init) := by
  refine Keeps.bind (.whileLoop (fun p => ?_) _ _) fun _ => .pure _
  exact (keeps_vgicIrqGet v _).bind fun _ => (keeps_loadLe _ _).bind fun _ => .pure _

theorem keeps_vgicrFrame (v : Fin ncpu) (offset : ℕ) : Keeps f (vgicrFrame v offset) := by
  refine .bind .get fun s => (keeps_derefVm _).bind fun V => .ite (.pure _) ?_
  split
  · exact .pure _
  · exact .throw _

/-! ## The lock of the distributor -/

/-- What runs under the lock of a distributor. -/
def underDistLock (a : ℕ) (x : Exec Hyp Bool) : Exec Hyp ℤ := do
  withDistLock a archSpinLock
  let handled ← x
  withDistLock a archSpinUnlock
  pure (if handled then 0 else -1)

/-- An access of `v` to its distributor. -/
def onDist (v : Fin ncpu) (x : ℕ → Exec Hyp Bool) : Exec Hyp ℤ := do
  let V ← derefVm ((← get).vcpus v).vm
  if V.vgicDist = 0 then throw .nullDeref else underDistLock V.vgicDist (x V.vgicDist)

section lock
variable (hf : ∀ s m, f (s.withMem m) = f s)

include hf

theorem keeps_withDistLock (a : ℕ) (op : ℕ → Spinlock → Except Fault Spinlock) :
    Keeps f (withDistLock a op) := by
  refine .get_bind fun s => ?_
  cases op s.ram.core (distLock s.ram.mem a) with
  | ok l => exact hf s _
  | error e => rfl

theorem keeps_underDistLock (a : ℕ) {x : Exec Hyp Bool} (h : Keeps f x) :
    Keeps f (underDistLock a x) :=
  (keeps_withDistLock hf _ _).bind fun _ => h.bind fun _ =>
    (keeps_withDistLock hf _ _).bind fun _ => .pure _

theorem keeps_onDist {v : Fin ncpu} {x : ℕ → Exec Hyp Bool} (h : ∀ a, Keeps f (x a)) :
    Keeps f (onDist v x) :=
  .bind .get fun _ => (keeps_derefVm _).bind fun _ => .ite (.throw _)
    (keeps_underDistLock hf _ (h _))

end lock

/-! ## Reads -/

section reads
variable {v : Fin ncpu} {reg : Option (Fin 31)}

/-- A read changes the guest's register only. -/
theorem keeps_setReg (hf : ∀ r ∈ reg, ∀ s x, f (s.setX v r x) = f s) (x : BitVec 64) :
    Keeps f (setReg v reg x) := by
  cases reg with
  | none => exact .throw _
  | some r => exact .modify fun s => hf r rfl s x

/-- Put a word in the guest's register. -/
theorem keeps_gather_setReg {α : Type} {a : α} (hf : ∀ r ∈ reg, ∀ s x, f (s.setX v r x) = f s)
    (w : Fin ncpu) (irqNum n field width : ℕ) (init : BitVec 32) : Keeps f (do
      let x ← vgicGather w irqNum n field width init
      setReg v reg (x.setWidth 64)
      pure a : Exec Hyp α) :=
  (keeps_vgicGather w irqNum n field width init).bind fun _ => (keeps_setReg hf _).bind fun _ =>
    .pure _

theorem keeps_vgicdReadReg (hf : ∀ r ∈ reg, ∀ s x, f (s.setX v r x) = f s) (isen : BitVec 32)
    (vgicDist offset : ℕ) : Keeps f (vgicdReadReg isen v vgicDist offset reg) := by
  have hend : ∀ x, Keeps f (do setReg v reg x; pure true : Exec Hyp Bool) := fun x =>
    (keeps_setReg hf x).bind fun _ => .pure _
  have hfields := @keeps_gather_setReg _ f v reg Bool true hf v
  rw [vgicdReadReg]
  refine .ite ((keeps_loadLe _ _).bind fun _ => hend _) ?_
  refine .ite ((keeps_loadLe _ _).bind fun _ => hend _) ?_
  refine .ite (.bind .get fun _ => hend _) ?_
  refine .ite (hfields _ _ _ _ _) (.ite (hfields _ _ _ _ _) ?_)
  refine .ite (hfields _ _ _ _ _) (.ite (hfields _ _ _ _ _) ?_)
  exact .ite (hend _) (.ite (.bind .get fun _ => hend _) (.pure _))

theorem keeps_vgicdRead (hf : ∀ r ∈ reg, ∀ s x, f (s.setX v r x) = f s)
    (hmem : ∀ s m, f (s.withMem m) = f s) (isen : BitVec 32) (offset : ℕ) :
    Keeps f (vgicdRead isen v offset reg) :=
  keeps_onDist (x := fun a => vgicdReadReg isen v a offset reg) hmem
    fun a => keeps_vgicdReadReg hf isen a offset

theorem keeps_vgicrReadReg (hf : ∀ r ∈ reg, ∀ s x, f (s.setX v r x) = f s) (hw : GicrHw)
    (vcpu : Option (Fin ncpu)) (offset o : ℕ) :
    Keeps f (vgicrReadReg hw v vcpu offset o reg) := by
  have hend : ∀ x, Keeps f (do setReg v reg x; pure 0 : Exec Hyp ℤ) := fun x =>
    (keeps_setReg hf x).bind fun _ => .pure _
  have hfields := @keeps_gather_setReg _ f v reg ℤ 0 hf
  rw [vgicrReadReg]
  refine .ite (hend _) ?_
  refine .ite ((keeps_derefVcpu _).bind fun _ => .bind .get fun _ => hend _) ?_
  refine .ite ((keeps_derefVcpu _).bind fun _ => .bind .get fun _ => hend _) ?_
  refine .ite ((keeps_derefVcpu _).bind fun w => hfields w _ _ _ _ _) ?_
  exact .ite ((keeps_derefVcpu _).bind fun w => hfields w _ _ _ _ _) (.pure _)

theorem keeps_vgicrRead (hf : ∀ r ∈ reg, ∀ s x, f (s.setX v r x) = f s) (hw : GicrHw)
    (offset : ℕ) : Keeps f (vgicrRead hw v offset reg) := by
  refine (keeps_vgicrFrame v offset).bind fun r => ?_
  cases r with
  | none => exact .pure _
  | some vcpu => exact keeps_vgicrReadReg hf hw vcpu offset _

end reads

/-! ## Writes -/

section writes
variable (hf : ∀ s m g, f ((s.withMem m).withGic g) = f s)

include hf

theorem keeps_storeLe (a n x : ℕ) : Keeps f (storeLe a n x) := .modify fun s => hf s _ s.gic

/-- A call of the physical controller. -/
theorem keeps_tell {op : Exec Hyp Unit} (h : ∀ t, ∃ g, op t = .ok () (t.withGic g)) :
    Keeps f op := by
  intro t
  obtain ⟨g, hg⟩ := h t
  exact wp_of_ok hg (hf t t.ram.mem g)

theorem keeps_vgicdEnable {op : ℕ → Exec Hyp Unit}
    (h : ∀ irq t, ∃ g, op irq t = .ok () (t.withGic g)) (w : Fin ncpu) (irqNum : ℕ)
    (val : BitVec 64) (enabled : ℕ) : Keeps f (vgicdEnable w irqNum val enabled op) := by
  refine .bind (.forRange fun i => ?_) fun _ => .pure _
  refine (keeps_vgicIrqGet w _).bind fun _ => .ite ?_ (.pure _)
  exact (keeps_storeLe hf _ _ _).bind fun _ => keeps_tell hf (h _)

theorem keeps_vgicdWriteReg (v : Fin ncpu) (vgicDist offset : ℕ) (val : BitVec 64) :
    Keeps f (vgicdWriteReg v vgicDist offset val) := by
  have hset := keeps_vgicdEnable hf fun irq t => ⟨_, gicEnableInt_eq irq t⟩
  have hclear := keeps_vgicdEnable hf fun irq t => ⟨_, gicDisableInt_eq irq t⟩
  rw [vgicdWriteReg]
  refine .ite ((keeps_storeLe hf _ _ _).bind fun _ => .pure _) ?_
  refine .ite ((hset _ _ _ _).bind fun _ => .pure _) ?_
  refine .ite ((hclear _ _ _ _).bind fun _ => .pure _) ?_
  refine .ite (.bind (.forRange fun i => ?_) fun _ => .pure _) ?_
  · exact (keeps_vgicIrqGet v _).bind fun _ => keeps_storeLe hf _ _ _
  refine .ite (.bind (.forRange fun i => ?_) fun _ => .pure _) (.pure _)
  refine (keeps_vgicIrqGet v _).bind fun _ => (keeps_storeLe hf _ _ _).bind fun _ => ?_
  exact (keeps_loadLe _ _).bind fun _ => keeps_tell hf fun t => ⟨_, gicSetTarget_eq _ t _⟩

theorem keeps_vgicdWrite (v : Fin ncpu) (offset : ℕ) (val : BitVec 64) :
    Keeps f (vgicdWrite v offset val) :=
  keeps_onDist (x := fun a => vgicdWriteReg v a offset val) (fun s m => hf s m s.gic)
    fun a => keeps_vgicdWriteReg hf v a offset val

theorem keeps_vgicrWriteReg (vcpu : Option (Fin ncpu)) (offset o : ℕ) (val : BitVec 64) :
    Keeps f (vgicrWriteReg vcpu offset o val) := by
  have hset := keeps_vgicdEnable hf fun irq t => ⟨_, gicEnableInt_eq irq t⟩
  rw [vgicrWriteReg]
  refine .ite (.pure _) ?_
  refine .ite ((keeps_derefVcpu _).bind fun w => (hset w _ _ _).bind fun _ => .pure _) ?_
  refine .ite ((keeps_derefVcpu _).bind fun w => .bind (.forRange fun i => ?_) fun _ => .pure _)
    (.pure _)
  exact (keeps_vgicIrqGet w _).bind fun _ => keeps_storeLe hf _ _ _

theorem keeps_vgicrWrite (v : Fin ncpu) (offset : ℕ) (val : BitVec 64) :
    Keeps f (vgicrWrite v offset val) := by
  refine (keeps_vgicrFrame v offset).bind fun r => ?_
  cases r with
  | none => exact .pure _
  | some vcpu => exact keeps_vgicrWriteReg hf vcpu offset _ val

end writes

end Xhyper
