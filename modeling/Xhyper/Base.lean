import Xhyper.Lib.Memory
import Xhyper.Lib.Prog
import Mathlib.Order.CompletePartialOrder
import Mathlib.Tactic.NormNum

/-!
# Layout, stops and spinlocks

The constants of `layout.h`, the ways a run of the hypervisor can end without
returning, and the spinlock of `spinlock.h` as one core sees it.

A C function is a program over the part of the hypervisor's state it works on.
It stops when it calls `abort`, which prints and waits for ever, and when it does
what C gives no meaning to: using a null pointer or indexing past an array.
Waiting for a lock that another core holds is a stop as well, since the functions
here run on one core.

The lock word is kept at the 32 bits the exclusive load reads; the byte field
`lock` of the C structure is its low byte.

## Main definitions

* `Fault` — why a run stopped.
* `Spinlock`, `archSpinLock`, `archSpinUnlock` — the lock on its own.
* `spinLock`, `spinUnlock` — the lock as a part of a larger state.
-/

namespace Xhyper

open Memory Prog

/-! ## Layout -/

/-- `NCPU`. -/
abbrev ncpu : ℕ := 4

-- Cores and general registers are numbered from 0.
instance neZero_ncpu : NeZero ncpu := ⟨by decide⟩

instance neZero_gpr : NeZero 31 := ⟨by decide⟩

/-- `PAGESIZE`, which is `SZ_4K`. -/
abbrev pageSize : ℕ := 0x1000

/-- `HIMAGE_VADDR`, the load address of the hypervisor. -/
abbrev himageVaddr : ℕ := 0x40200000

/-- `PHYEND`, which is `PHYBASE + PHYSIZE`. -/
abbrev phyEnd : ℕ := 0x40000000 + 256 * 1024 * 1024

/-- `PL011BASE`. -/
abbrev pl011Base : ℕ := 0x09000000

/-- `GICD_BASE`. -/
abbrev gicdBase : ℕ := 0x08000000

/-- `GICD_SIZE`. -/
abbrev gicdSize : ℕ := 0x10000

/-- `GICR_BASE`. -/
abbrev gicrBase : ℕ := 0x080a0000

/-- `GICR_SIZE`. -/
abbrev gicrSize : ℕ := 0x80000

/-- `GICR_STRIDE`. -/
abbrev gicrStride : ℕ := 0x20000

/-! ## Stops -/

/-- Why a run did not return. -/
inductive Fault
  /-- `abort` was called with this format. -/
  | abort (fmt : String)
  /-- A null pointer was used. -/
  | nullDeref
  /-- An array was indexed outside its bounds. -/
  | outOfBounds
  /-- The core waits for a lock another core holds, or goes round a loop for ever. -/
  | spin
  deriving DecidableEq, Repr

/-- A C function over the state `σ`. -/
abbrev Exec (σ α : Type) := EStateM Fault σ α

/-- `abort(fmt, ...)`. -/
def abort {σ α : Type} (fmt : String) : Exec σ α := throw (.abort fmt)

@[simp] theorem wp_abort {σ α : Type} {Q : α → σ → Prop} {E : Fault → σ → Prop} {s : σ}
    (fmt : String) : wp (abort fmt : Exec σ α) Q E s ↔ E (.abort fmt) s := Iff.rfl

/-! ## Spinlocks -/

/-- `spinlock_t`, less its name. -/
structure Spinlock where
  /-- The core that took the lock last. -/
  coreid : ℤ
  /-- The 32 bits at the address of the field `lock`. -/
  word : BitVec 32
  deriving DecidableEq, Repr

/-- The byte field `lock`. -/
def Spinlock.lock (l : Spinlock) : BitVec 8 := l.word.setWidth 8

/-- `spin_check`: does this core hold the lock? -/
def spinCheck (core : ℕ) (l : Spinlock) : Bool := l.lock != 0 && l.coreid == core

/-- `arch_spinlock_init` stores one byte of the lock word. -/
def archSpinlockInit (l : Spinlock) : Spinlock :=
  { coreid := -1, word := l.word &&& ~~~0xff#32 }

/-- `arch_spin_lock`, run to its end on a core no other core disturbs. -/
def archSpinLock (core : ℕ) (l : Spinlock) : Except Fault Spinlock :=
  if spinCheck core l then .error (.abort "spinlock - %s is alredy held by core: %d")
  else if l.word ≠ 0 then .error .spin
  else .ok { coreid := core, word := 1 }

/-- `arch_spin_unlock`. -/
def archSpinUnlock (core : ℕ) (l : Spinlock) : Except Fault Spinlock :=
  if !spinCheck core l then .error (.abort "spinlock - %s is unlocked by invalid coreid: %d")
  else .ok { l with word := 0 }

/-- The lock as `core` holds it. -/
def Spinlock.heldBy (core : ℕ) : Spinlock := { coreid := core, word := 1 }

/-- The lock as `core` leaves it. -/
def Spinlock.leftBy (core : ℕ) : Spinlock := { coreid := core, word := 0 }

@[simp] theorem word_leftBy (core : ℕ) : (Spinlock.leftBy core).word = 0 := rfl

theorem archSpinLock_of_free {core : ℕ} {l : Spinlock} (h : l.word = 0) :
    archSpinLock core l = .ok (.heldBy core) := by
  simp [archSpinLock, spinCheck, Spinlock.lock, Spinlock.heldBy, h]

/-- A lock that was taken was free. -/
theorem word_of_archSpinLock {core : ℕ} {l l' : Spinlock} (h : archSpinLock core l = .ok l') :
    l.word = 0 := by
  by_contra hword
  rw [archSpinLock, if_pos hword] at h
  split at h
  · cases h
  · cases h

/-- A core does not take a lock twice. -/
theorem archSpinLock_heldBy (core : ℕ) : archSpinLock core (.heldBy core) =
    .error (.abort "spinlock - %s is alredy held by core: %d") := by
  simp [archSpinLock, spinCheck, Spinlock.lock, Spinlock.heldBy]

theorem archSpinUnlock_heldBy (core : ℕ) :
    archSpinUnlock core (.heldBy core) = .ok (.leftBy core) := by
  simp [archSpinUnlock, spinCheck, Spinlock.lock, Spinlock.heldBy, Spinlock.leftBy]

/-- A lock that was given back is free. -/
theorem word_of_archSpinUnlock {core : ℕ} {l l' : Spinlock} (h : archSpinUnlock core l = .ok l') :
    l'.word = 0 := by
  rw [archSpinUnlock] at h
  split at h
  · cases h
  · cases h
    rfl

section inState
variable {σ : Type} (l : Lens σ Spinlock) (core : ℕ)

/-- `arch_spin_lock` on the lock at `l`. -/
def spinLock : Exec σ Unit := do
  match archSpinLock core (l.get (← get)) with
  | .ok k => modify (l.set k)
  | .error e => throw e

/-- `arch_spin_unlock` on the lock at `l`. -/
def spinUnlock : Exec σ Unit := do
  match archSpinUnlock core (l.get (← get)) with
  | .ok k => modify (l.set k)
  | .error e => throw e

variable {l core} {Q : Unit → σ → Prop} {E : Fault → σ → Prop} {s : σ}

/-- A free lock is taken. -/
theorem wp_spinLock (h : (l.get s).word = 0) :
    wp (spinLock l core) Q E s ↔ Q () (l.set (.heldBy core) s) := by
  simp [spinLock, archSpinLock_of_free h]

/-- Taking a lock: it is free, or the core stops. -/
theorem wp_spinLock_of (hQ : (l.get s).word = 0 → Q () (l.set (.heldBy core) s))
    (hE : (l.get s).word ≠ 0 → ∀ e, E e s) : wp (spinLock l core) Q E s := by
  by_cases h : (l.get s).word = 0
  · exact (wp_spinLock h).mpr (hQ h)
  · simp only [spinLock, wp_bind, wp_get]
    cases hx : archSpinLock core (l.get s) with
    | error e => exact hE h e
    | ok k =>
        simp only [archSpinLock, h, ne_eq, not_false_eq_true, if_true] at hx
        by_cases hc : spinCheck core (l.get s) = true <;> simp [hc] at hx

/-- A lock this core holds is given back. -/
theorem wp_spinUnlock (h : l.get s = .heldBy core) :
    wp (spinUnlock l core) Q E s ↔ Q () (l.set (.leftBy core) s) := by
  simp [spinUnlock, h, archSpinUnlock_heldBy]

/-- A core that got a lock has written it. -/
theorem spinLock_ends (h : ∀ k, Q () (l.set k s)) :
    wp (spinLock l core) Q (fun _ _ => True) s := by
  simp only [spinLock, wp_bind, wp_get]
  cases archSpinLock core (l.get s) with
  | ok k => exact h k
  | error e => trivial

/-- A core that gave a lock back has written it. -/
theorem spinUnlock_ends (h : ∀ k, Q () (l.set k s)) :
    wp (spinUnlock l core) Q (fun _ _ => True) s := by
  simp only [spinUnlock, wp_bind, wp_get]
  cases archSpinUnlock core (l.get s) with
  | ok k => exact h k
  | error e => trivial

/-- What it wrote is a free lock. -/
theorem spinUnlock_frees (h : ∀ k : Spinlock, k.word = 0 → Q () (l.set k s)) :
    wp (spinUnlock l core) Q (fun _ _ => True) s := by
  simp only [spinUnlock, wp_bind, wp_get]
  cases hk : archSpinUnlock core (l.get s) with
  | ok k => exact h k (word_of_archSpinUnlock hk)
  | error e => trivial

end inState

/-! ## Pages -/

/-- A page address that a translation entry can hold. -/
structure IsPage (p : ℕ) : Prop where
  aligned : p % pageSize = 0
  bound : p < 2 ^ 48

/-- Two pages are the same or share no byte. -/
theorem page_disjoint {p q x : ℕ} (hp : p % pageSize = 0) (hq : q % pageSize = 0)
    (hxp : x ∈ block p pageSize) (hxq : x ∈ block q pageSize) : p = q := by
  simp only [mem_block, pageSize] at *
  omega

end Xhyper
