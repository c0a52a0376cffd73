import Mathlib.Logic.Function.Basic
import Mathlib.Data.List.Basic

/-!
# Interrupt lines

The part of an interrupt controller that a core sees, when dropping the priority of an interrupt
and deactivating it are two writes.  A device makes an interrupt pending; the core acknowledges
one, which makes it active; it is not offered again until it was deactivated, and no other one is
offered until the priority was dropped.

All interrupts have one priority.

## Main definitions

* `Lines`, `Lines.Offers` — the state, and which interrupts may be acknowledged.
* `Lines.raise`, `Lines.withdraw` — what a device does.
* `Lines.ack`, `Lines.drop`, `Lines.deactivate` — what a core does.
-/

namespace Irq

variable {ι : Type} [DecidableEq ι]

/-- The state of the interrupts. -/
structure Lines (ι : Type) where
  pending : ι → Bool
  active : ι → Bool
  /-- Acknowledged, and not dropped. -/
  running : List ι

namespace Lines

/-- A device makes `i` pending. -/
def raise (l : Lines ι) (i : ι) : Lines ι := { l with pending := Function.update l.pending i true }

/-- A device takes `i` back. -/
def withdraw (l : Lines ι) (i : ι) : Lines ι :=
  { l with pending := Function.update l.pending i false }

/-- The core may acknowledge `i`. -/
def Offers (l : Lines ι) (i : ι) : Prop :=
  l.pending i = true ∧ l.active i = false ∧ l.running = []

/-- The core acknowledges `i`. -/
def ack (l : Lines ι) (i : ι) : Lines ι where
  pending := Function.update l.pending i false
  active := Function.update l.active i true
  running := i :: l.running

/-- The core drops the priority of the interrupt it acknowledged last. -/
def drop (l : Lines ι) (i : ι) : Lines ι :=
  if l.running.head? = some i then { l with running := l.running.tail } else l

/-- The core, or the guest through a list register, deactivates `i`. -/
def deactivate (l : Lines ι) (i : ι) : Lines ι :=
  { l with active := Function.update l.active i false }

@[simp] theorem raise_active (l : Lines ι) (i : ι) : (l.raise i).active = l.active := rfl
@[simp] theorem raise_running (l : Lines ι) (i : ι) : (l.raise i).running = l.running := rfl
@[simp] theorem withdraw_active (l : Lines ι) (i : ι) : (l.withdraw i).active = l.active := rfl
@[simp] theorem withdraw_running (l : Lines ι) (i : ι) : (l.withdraw i).running = l.running := rfl
@[simp] theorem deactivate_active (l : Lines ι) (i : ι) :
    (l.deactivate i).active = Function.update l.active i false := rfl
@[simp] theorem deactivate_running (l : Lines ι) (i : ι) :
    (l.deactivate i).running = l.running := rfl

/-- Acknowledging an interrupt and dropping its priority leaves it active. -/
theorem drop_ack (l : Lines ι) (i : ι) : (l.ack i).drop i =
    { pending := Function.update l.pending i false
      active := Function.update l.active i true
      running := l.running } := by
  have hhead : (l.ack i).running.head? = some i := rfl
  rw [drop, if_pos hhead]
  rfl

/-- Deactivating it as well leaves all interrupts but its being pending as they were. -/
theorem deactivate_drop_ack {l : Lines ι} {i : ι} (h : l.Offers i) :
    ((l.ack i).drop i).deactivate i = l.withdraw i := by
  rw [drop_ack, deactivate, withdraw, Function.update_idem]
  have hactive : Function.update l.active i false = l.active := by
    rw [← h.2.1, Function.update_eq_self]
  simp only [hactive]

end Lines

end Irq
