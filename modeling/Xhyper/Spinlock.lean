import Xhyper.Base
import Mathlib.Data.List.Induction
import Mathlib.Logic.Function.Basic

/-!
# The spinlock between cores

`arch_spin_lock` and `arch_spin_unlock` reach the lock in several accesses, and other cores
take their turns in between.  A turn is one access of one core: the load of the byte `lock` or
of `coreid` in `spin_check`, the exclusive load, the exclusive store, the store of `coreid` and
the store that clears the word.  A schedule is a list of turns, and every schedule is allowed.

An exclusive store needs the core's monitor, which the exclusive load sets and every later
store to the word clears.  It may fail for other reasons too, so a turn says whether it does.

The cores are of any type.  `coreid()` takes a core's number from the low four bits of
`mpidr_el1`, and nothing here says that the numbers of two cores differ.

## Main definitions

* `SpinCores`, `SpinCores.step`, `SpinCores.run` — the cores around one lock, turn after turn.
* `SpinCores.Exclusive` — the invariant, over the places of all cores and their monitors.
* `spinlock_exclusive` — one holder at most, and it can always give the lock back.
* `spinlock_no_false_alarm` — when the check for a lock already held is right.
-/

namespace Xhyper

/-! ## Cores and turns -/

/-- Where a core is: what its next access to the lock will be. -/
inductive SpinPc
  /-- It does not use the lock; `spin_check` in `arch_spin_lock` loads the byte next. -/
  | outside
  /-- The byte was set; `spin_check` in `arch_spin_lock` loads `coreid`. -/
  | lockOwner
  /-- `ldxr` -/
  | loadEx
  /-- `stxr` -/
  | storeEx
  /-- The word is stored; `coreid` is stored next. -/
  | setOwner
  /-- It holds the lock; `spin_check` in `arch_spin_unlock` loads the byte next. -/
  | inside
  /-- The byte was set; `spin_check` in `arch_spin_unlock` loads `coreid`. -/
  | unlockOwner
  /-- `str wzr` -/
  | clear
  /-- It stopped: "spinlock is alredy held by core". -/
  | alreadyHeld
  /-- It stopped: "spinlock is unlocked by invalid coreid". -/
  | invalidUnlock
  deriving DecidableEq, Repr

/-- Between its successful exclusive store and its clearing store. -/
def SpinPc.holds : SpinPc → Bool
  | .setOwner | .inside | .unlockOwner | .clear => true
  | .outside | .lockOwner | .loadEx | .storeEx | .alreadyHeld | .invalidUnlock => false

/-- The cores around one lock. -/
structure SpinCores (ι : Type) where
  /-- `coreid` and the lock word. -/
  lock : Spinlock
  /-- The place of each core. -/
  pc : ι → SpinPc
  /-- The exclusive monitor of each core is set for the lock word. -/
  monitor : ι → Bool

/-- One access of one core. -/
structure Turn (ι : Type) where
  /-- The core whose turn it is. -/
  core : ι
  /-- An exclusive store of this turn is not lost for a reason of its own. -/
  stores : Bool

namespace SpinCores

section steps
variable {ι : Type} [DecidableEq ι]

/-- The core `c` goes on at `p`. -/
def goto (s : SpinCores ι) (c : ι) (p : SpinPc) : SpinCores ι :=
  { s with pc := Function.update s.pc c p }

/-- A store to the lock word clears every monitor. -/
def storeWord (s : SpinCores ι) (w : BitVec 32) : SpinCores ι :=
  { s with lock := { s.lock with word := w }, monitor := fun _ => false }

/-- The monitor of the core `c`. -/
def setMonitor (s : SpinCores ι) (c : ι) (b : Bool) : SpinCores ι :=
  { s with monitor := Function.update s.monitor c b }

/-- The store to `coreid`. -/
def storeOwner (s : SpinCores ι) (n : ℕ) : SpinCores ι :=
  { s with lock := { s.lock with coreid := n } }

/-- **One turn**, where `coreid` gives the cores' numbers. -/
def step (coreid : ι → ℕ) (s : SpinCores ι) (t : Turn ι) : SpinCores ι :=
  let c := t.core
  match s.pc c with
  | .outside => s.goto c (if s.lock.lock ≠ 0 then .lockOwner else .loadEx)
  | .lockOwner => s.goto c (if s.lock.coreid = coreid c then .alreadyHeld else .loadEx)
  | .loadEx => (s.setMonitor c true).goto c (if s.lock.word ≠ 0 then .loadEx else .storeEx)
  | .storeEx =>
      if s.monitor c && t.stores then (s.storeWord 1).goto c .setOwner
      else (s.setMonitor c false).goto c .loadEx
  | .setOwner => (s.storeOwner (coreid c)).goto c .inside
  | .inside => s.goto c (if s.lock.lock ≠ 0 then .unlockOwner else .invalidUnlock)
  | .unlockOwner => s.goto c (if s.lock.coreid = coreid c then .clear else .invalidUnlock)
  | .clear => (s.storeWord 0).goto c .outside
  | .alreadyHeld | .invalidUnlock => s

/-- A schedule, turn after turn. -/
def run (coreid : ι → ℕ) (s : SpinCores ι) (sched : List (Turn ι)) : SpinCores ι :=
  sched.foldl (step coreid) s

/-- Every core is outside. -/
def start (lock : Spinlock) (monitor : ι → Bool) : SpinCores ι :=
  { lock, pc := fun _ => .outside, monitor }

variable {coreid : ι → ℕ} {s : SpinCores ι}

@[simp] theorem run_nil : s.run coreid [] = s := rfl

theorem run_cons (t : Turn ι) (l : List (Turn ι)) :
    s.run coreid (t :: l) = (s.step coreid t).run coreid l := rfl

theorem run_append (l l' : List (Turn ι)) :
    s.run coreid (l ++ l') = (s.run coreid l).run coreid l' :=
  List.foldl_append

theorem run_concat (l : List (Turn ι)) (t : Turn ι) :
    s.run coreid (l ++ [t]) = (s.run coreid l).step coreid t :=
  run_append l [t]

section fields
variable (s) (c : ι) (p : SpinPc) (b : Bool)

@[simp] theorem goto_lock : (s.goto c p).lock = s.lock := rfl
@[simp] theorem goto_monitor : (s.goto c p).monitor = s.monitor := rfl
@[simp] theorem goto_pc_self : (s.goto c p).pc c = p := Function.update_self _ _ _
@[simp] theorem setMonitor_lock : (s.setMonitor c b).lock = s.lock := rfl
@[simp] theorem setMonitor_pc : (s.setMonitor c b).pc = s.pc := rfl

theorem goto_pc_of_ne {s : SpinCores ι} {c d : ι} (p : SpinPc) (h : d ≠ c) :
    (s.goto c p).pc d = s.pc d :=
  Function.update_of_ne h _ _

end fields

/-- The other cores stay where they are. -/
theorem step_pc_of_ne {t : Turn ι} {d : ι} (h : d ≠ t.core) :
    (s.step coreid t).pc d = s.pc d := by
  simp only [step]
  split
  case h_4 => split <;> exact goto_pc_of_ne _ h
  case h_9 | h_10 => rfl
  all_goals exact goto_pc_of_ne _ h

/-! ### One core alone

Without turns of other cores the accesses add up to `arch_spin_lock` and `arch_spin_unlock` as
one core computes them. -/

section alone
variable {c : ι} {k : Spinlock}

/-- The lock is taken in four turns. -/
theorem run_archSpinLock (hpc : s.pc c = .outside)
    (h : archSpinLock (coreid c) s.lock = .ok k) :
    let s' := s.run coreid (List.replicate 4 ⟨c, true⟩)
    s'.pc c = .inside ∧ s'.lock = k := by
  have hword : s.lock.word = 0 := by
    by_contra hne
    simp only [archSpinLock, ne_eq, hne, not_false_eq_true, if_true] at h
    split at h <;> cases h
  have hlock : s.lock.lock = 0 := by
    rw [Spinlock.lock, hword]
    decide
  rw [archSpinLock_of_free hword, Except.ok.injEq] at h
  simp [run_cons, step, hpc, hlock, hword, goto, setMonitor, storeWord, storeOwner, ← h,
    Spinlock.heldBy]

/-- A core that holds the lock already stops. -/
theorem run_archSpinLock_abort (hpc : s.pc c = .outside) (h : spinCheck (coreid c) s.lock) :
    (s.run coreid (List.replicate 2 ⟨c, true⟩)).pc c = .alreadyHeld := by
  simp only [spinCheck, Bool.and_eq_true, bne_iff_ne, beq_iff_eq] at h
  have hset : ¬ s.lock.lock = 0#8 := h.1
  simp [run_cons, step, hpc, hset, h.2, goto]

/-- The lock is given back in three turns. -/
theorem run_archSpinUnlock (hpc : s.pc c = .inside)
    (h : archSpinUnlock (coreid c) s.lock = .ok k) :
    let s' := s.run coreid (List.replicate 3 ⟨c, true⟩)
    s'.pc c = .outside ∧ s'.lock = k := by
  have hcheck : spinCheck (coreid c) s.lock = true := by
    cases hne : spinCheck (coreid c) s.lock with
    | true => rfl
    | false => simp [archSpinUnlock, hne] at h
  simp only [archSpinUnlock, hcheck, Bool.not_true, Bool.false_eq_true, if_false,
    Except.ok.injEq] at h
  simp only [spinCheck, Bool.and_eq_true, bne_iff_ne, beq_iff_eq] at hcheck
  have hset : ¬ s.lock.lock = 0#8 := hcheck.1
  simp [run_cons, step, hpc, hset, hcheck.2, goto, storeWord, ← h]

end alone

end steps

/-! ## The invariant -/

section invariant
variable {ι : Type} {coreid : ι → ℕ} {s : SpinCores ι}

/-- **The invariant.**  A core that holds the lock sees its own store in the word, and its own
number once it has stored it.  A core that is about to store has a monitor only while the word
is still zero. -/
structure Exclusive (coreid : ι → ℕ) (s : SpinCores ι) : Prop where
  unique : ∀ c d, (s.pc c).holds → (s.pc d).holds → c = d
  word : ∀ c, (s.pc c).holds → s.lock.word = 1
  owner : ∀ c, (s.pc c).holds → s.pc c ≠ .setOwner → s.lock.coreid = coreid c
  free : (∀ c, (s.pc c).holds = false) → s.lock.word = 0
  fresh : ∀ c, s.pc c = .storeEx → s.monitor c → s.lock.word = 0
  valid : ∀ c, s.pc c ≠ .invalidUnlock

/-- A lock whose word is zero starts free. -/
theorem exclusive_start {lock : Spinlock} {monitor : ι → Bool} (h : lock.word = 0) :
    Exclusive coreid (start lock monitor) where
  unique _ _ hc := absurd hc Bool.false_ne_true
  word _ hc := absurd hc Bool.false_ne_true
  owner _ hc := absurd hc Bool.false_ne_true
  free _ := h
  fresh _ _ _ := h
  valid _ := nofun

/-- The byte of a lock that is held is not zero. -/
theorem lock_ne_zero {l : Spinlock} (h : l.word = 1) : l.lock ≠ 0 := by
  rw [Spinlock.lock, h]
  decide

/-- While a core holds the lock the word is not zero, so that no other core can store. -/
theorem Exclusive.not_holds (h : Exclusive coreid s) {c d : ι} (hc : s.pc c = .storeEx)
    (hm : s.monitor c) : (s.pc d).holds = false := by
  have hword := h.fresh c hc hm
  cases hd : (s.pc d).holds with
  | false => rfl
  | true =>
      rw [h.word d hd] at hword
      exact absurd hword (by decide)

variable [DecidableEq ι]

/-- A core moves between two places where it does not hold the lock, or between two where it
does, without touching the lock. -/
theorem Exclusive.goto (h : Exclusive coreid s) {c : ι} {p : SpinPc}
    (hholds : p.holds = (s.pc c).holds) (howner : s.pc c = .setOwner → p = .setOwner)
    (hstore : p = .storeEx → s.monitor c → s.lock.word = 0) (hvalid : p ≠ .invalidUnlock) :
    Exclusive coreid (s.goto c p) := by
  have hsame : ∀ d, ((s.goto c p).pc d).holds = (s.pc d).holds := by
    intro d
    by_cases hd : d = c
    · rw [hd, goto_pc_self, hholds]
    · rw [goto_pc_of_ne p hd]
  constructor
  · intro d e hd he
    rw [hsame] at hd he
    exact h.unique d e hd he
  · intro d hd
    rw [hsame] at hd
    exact h.word d hd
  · intro d hd hne
    rw [hsame] at hd
    refine h.owner d hd fun heq => hne ?_
    by_cases hdc : d = c
    · rw [hdc] at heq ⊢
      rw [goto_pc_self, howner heq]
    · rw [goto_pc_of_ne p hdc, heq]
  · intro hnone
    exact h.free fun d => hsame d ▸ hnone d
  · intro d hd hm
    by_cases hdc : d = c
    · rw [hdc, goto_pc_self] at hd
      exact hstore hd (hdc ▸ hm)
    · rw [goto_pc_of_ne p hdc] at hd
      exact h.fresh d hd hm
  · intro d
    by_cases hdc : d = c
    · rw [hdc, goto_pc_self]
      exact hvalid
    · rw [goto_pc_of_ne p hdc]
      exact h.valid d

/-- A core's monitor changes while it is not about to store. -/
theorem Exclusive.setMonitor (h : Exclusive coreid s) {c : ι} {b : Bool}
    (hb : s.pc c = .storeEx → b = false) : Exclusive coreid (s.setMonitor c b) where
  unique := h.unique
  word := h.word
  owner := h.owner
  free := h.free
  fresh d hd hm := by
    by_cases hdc : d = c
    · subst hdc
      simp only [SpinCores.setMonitor, Function.update_self, hb hd] at hm
      exact absurd hm Bool.false_ne_true
    · simp only [SpinCores.setMonitor, Function.update_of_ne hdc] at hm
      exact h.fresh d hd hm
  valid := h.valid

/-- The exclusive store takes the lock. -/
theorem Exclusive.take (h : Exclusive coreid s) {c : ι} (hc : s.pc c = .storeEx)
    (hm : s.monitor c) : Exclusive coreid ((s.storeWord 1).goto c .setOwner) := by
  have honly : ∀ d, (((s.storeWord 1).goto c .setOwner).pc d).holds → d = c := by
    intro d hd
    by_contra hdc
    rw [goto_pc_of_ne _ hdc] at hd
    have hfree : (s.pc d).holds = false := h.not_holds hc hm
    exact absurd (hfree.symm.trans hd) nofun
  constructor
  · intro d e hd he
    rw [honly d hd, honly e he]
  · intro d _
    rfl
  · intro d hd hne
    rw [honly d hd, goto_pc_self] at hne
    exact absurd rfl hne
  · intro hnone
    have hc' := hnone c
    rw [goto_pc_self] at hc'
    exact absurd hc' nofun
  · intro d _ hd
    exact absurd hd nofun
  · intro d
    by_cases hdc : d = c
    · rw [hdc, goto_pc_self]
      nofun
    · rw [goto_pc_of_ne _ hdc]
      exact h.valid d

/-- The holder stores its number. -/
theorem Exclusive.own (h : Exclusive coreid s) {c : ι} (hc : s.pc c = .setOwner) :
    Exclusive coreid ((s.storeOwner (coreid c)).goto c .inside) := by
  have hhold : (s.pc c).holds := by rw [hc]; rfl
  have honly : ∀ d, (((s.storeOwner (coreid c)).goto c .inside).pc d).holds → d = c := by
    intro d hd
    by_contra hdc
    rw [goto_pc_of_ne _ hdc] at hd
    exact hdc (h.unique d c hd hhold)
  constructor
  · intro d e hd he
    rw [honly d hd, honly e he]
  · intro d _
    exact h.word c hhold
  · intro d hd _
    rw [honly d hd]
    rfl
  · intro hnone
    have hc' := hnone c
    rw [goto_pc_self] at hc'
    exact absurd hc' nofun
  · intro d hd hm
    by_cases hdc : d = c
    · rw [hdc, goto_pc_self] at hd
      exact absurd hd nofun
    · rw [goto_pc_of_ne _ hdc] at hd
      exact h.fresh d hd hm
  · intro d
    by_cases hdc : d = c
    · rw [hdc, goto_pc_self]
      nofun
    · rw [goto_pc_of_ne _ hdc]
      exact h.valid d

/-- The holder clears the word. -/
theorem Exclusive.release (h : Exclusive coreid s) {c : ι} (hc : s.pc c = .clear) :
    Exclusive coreid ((s.storeWord 0).goto c .outside) := by
  have hhold : (s.pc c).holds := by rw [hc]; rfl
  have hnone : ∀ d, ¬ (((s.storeWord 0).goto c .outside).pc d).holds := by
    intro d hd
    by_cases hdc : d = c
    · rw [hdc, goto_pc_self] at hd
      exact absurd hd nofun
    · rw [goto_pc_of_ne _ hdc] at hd
      exact hdc (h.unique d c hd hhold)
  constructor
  · exact fun d _ hd _ => absurd hd (hnone d)
  · exact fun d hd => absurd hd (hnone d)
  · exact fun d hd _ => absurd hd (hnone d)
  · exact fun _ => rfl
  · exact fun _ _ _ => rfl
  · intro d
    by_cases hdc : d = c
    · rw [hdc, goto_pc_self]
      nofun
    · rw [goto_pc_of_ne _ hdc]
      exact h.valid d

/-- **One turn keeps the invariant.** -/
theorem Exclusive.step (h : Exclusive coreid s) (t : Turn ι) :
    Exclusive coreid (s.step coreid t) := by
  simp only [SpinCores.step]
  split
  case h_1 hpc =>
    split <;> exact h.goto (by rw [hpc]; rfl) (by rw [hpc]; nofun) nofun nofun
  case h_2 hpc =>
    split <;> exact h.goto (by rw [hpc]; rfl) (by rw [hpc]; nofun) nofun nofun
  case h_3 hpc =>
    have hmon : Exclusive coreid (s.setMonitor t.core true) :=
      h.setMonitor (by rw [hpc]; nofun)
    split
    case isTrue => exact hmon.goto (by simp [hpc]) (by simp [hpc]) nofun nofun
    case isFalse hzero =>
      exact hmon.goto (by simp [hpc]; rfl) (by simp [hpc]) (fun _ _ => not_not.mp hzero) nofun
  case h_4 hpc =>
    split
    case isTrue hstore => exact h.take hpc (Bool.and_eq_true_iff.mp hstore).1
    case isFalse =>
      have hmon : Exclusive coreid (s.setMonitor t.core false) := h.setMonitor fun _ => rfl
      exact hmon.goto (by simp [hpc]; rfl) (by simp [hpc]) nofun nofun
  case h_5 hpc => exact h.own hpc
  case h_6 hpc =>
    have hhold : (s.pc t.core).holds := by rw [hpc]; rfl
    rw [if_pos (lock_ne_zero (h.word _ hhold))]
    exact h.goto (by rw [hpc]; rfl) (by rw [hpc]; nofun) nofun nofun
  case h_7 hpc =>
    have hhold : (s.pc t.core).holds := by rw [hpc]; rfl
    rw [if_pos (h.owner _ hhold (by rw [hpc]; nofun))]
    exact h.goto (by rw [hpc]; rfl) (by rw [hpc]; nofun) nofun nofun
  case h_8 hpc => exact h.release hpc
  case h_9 | h_10 => exact h

/-- The invariant holds after every schedule. -/
theorem Exclusive.run (h : Exclusive coreid s) (sched : List (Turn ι)) :
    Exclusive coreid (s.run coreid sched) :=
  List.foldlRecOn sched _ h fun _ hs t _ => hs.step t

end invariant

end SpinCores

/-! ## One holder -/

section exclusion
variable {ι : Type} [DecidableEq ι]

/-- **At most one core holds the lock, and it gives it back without an abort**, after every
schedule of any cores, whatever `coreid` and the monitors held before. -/
theorem spinlock_exclusive (coreid : ι → ℕ) (owner : ℤ) (monitor : ι → Bool)
    (sched : List (Turn ι)) :
    let s := (SpinCores.start { coreid := owner, word := 0 } monitor).run coreid sched
    (∀ c d, (s.pc c).holds → (s.pc d).holds → c = d) ∧ ∀ c, s.pc c ≠ .invalidUnlock :=
  have h := (SpinCores.exclusive_start rfl).run sched
  ⟨h.unique, h.valid⟩

end exclusion

/-! ## The check for a lock already held -/

/-- The bytes behind `lock` in the word that the exclusive load reads. -/
def Spinlock.padding (l : Spinlock) : BitVec 24 := l.word.extractLsb' 8 24

/-- Clearing the byte `lock` keeps the bytes behind it. -/
theorem clear_lock (w : BitVec 32) : w &&& ~~~0xff#32 = w.extractLsb' 8 24 ++ 0#8 := by
  have hmask : ~~~0xff#32 = BitVec.allOnes 24 ++ 0#8 := by decide
  rw [hmask]
  apply BitVec.eq_of_getLsbD_eq
  intro i hi
  rw [BitVec.getLsbD_and, BitVec.getLsbD_append, BitVec.getLsbD_append, BitVec.getLsbD_allOnes]
  by_cases hlow : i < 8
  · simp [hlow]
  · have hback : 8 + (i - 8) = i := by omega
    have hhigh : i - 8 < 24 := by omega
    simp [hlow, hback, hhigh]

/-- The initialisation clears one byte, so it clears the word when the others are zero. -/
theorem word_archSpinlockInit (l : Spinlock) :
    (archSpinlockInit l).word = 0 ↔ l.padding = 0 := by
  rw [archSpinlockInit, clear_lock]
  constructor
  · intro h
    have hhigh := congrArg (BitVec.extractLsb' 8 24) h
    rwa [BitVec.extractLsb'_append_eq_left] at hhigh
  · intro h
    change l.padding ++ 0#8 = 0
    rw [h]
    decide

namespace SpinCores

section alarm
variable {ι : Type}

/-- **No false alarm and a free word**: no core stopped because it was told that it holds the
lock already, and the word is zero while no core holds the lock. -/
structure Orderly (s : SpinCores ι) : Prop where
  alarm : ∀ c, s.pc c ≠ .alreadyHeld
  free : (∀ c, (s.pc c).holds = false) → s.lock.word = 0

/-- A core looks at `coreid` and finds its own number there while another core has the word but
has not stored its number yet, or has the same number. -/
def StaleLook (coreid : ι → ℕ) (s : SpinCores ι) (t : Turn ι) : Prop :=
  s.pc t.core = .lockOwner ∧ s.lock.coreid = coreid t.core ∧
    ∃ d, d ≠ t.core ∧ (s.pc d = .setOwner ∨ coreid d = coreid t.core)

/-- A core that has seen the byte set and whose number is in `coreid` was overtaken: some core
took the lock and has not stored its number, or stored the same one. -/
def Overtaken (coreid : ι → ℕ) (s : SpinCores ι) : Prop :=
  ∀ c, s.pc c = .lockOwner → s.lock.coreid = coreid c →
    ∃ d, d ≠ c ∧ (s.pc d = .setOwner ∨ coreid d = coreid c)

variable {coreid : ι → ℕ} {s : SpinCores ι} {t : Turn ι}

/-- A core that sees the byte set sees a holder. -/
theorem Exclusive.exists_holder (h : Exclusive coreid s) (hlock : s.lock.lock ≠ 0) :
    ∃ d, (s.pc d).holds := by
  by_contra hnone
  have hword : s.lock.word = 0 := h.free fun d => by simpa using not_exists.mp hnone d
  rw [Spinlock.lock, hword] at hlock
  exact hlock (by decide)

/-- At the start no core looks. -/
theorem overtaken_start {lock : Spinlock} {monitor : ι → Bool} :
    Overtaken coreid (start lock monitor) := fun _ hc => absurd hc nofun

variable [DecidableEq ι]

/-- Only the store of `coreid` changes it. -/
theorem step_coreid (h : s.pc t.core ≠ .setOwner) :
    (s.step coreid t).lock.coreid = s.lock.coreid := by
  simp only [step]
  split
  case h_4 => split <;> rfl
  case h_5 hpc => exact absurd hpc h
  all_goals rfl

/-- A core looks at `coreid` after it saw the byte set. -/
theorem step_lockOwner (h : (s.step coreid t).pc t.core = .lockOwner) :
    s.pc t.core = .outside ∧ s.lock.lock ≠ 0 := by
  simp only [step] at h
  split at h
  case h_1 hpc =>
    rw [goto_pc_self] at h
    split at h
    case isTrue hlock => exact ⟨hpc, hlock⟩
    case isFalse => exact absurd h nofun
  case h_4 => split at h <;> exact absurd ((goto_pc_self _ _ _).symm.trans h) nofun
  case h_9 hpc | h_10 hpc => exact absurd (hpc.symm.trans h) nofun
  case h_2 | h_3 | h_6 | h_7 =>
    rw [goto_pc_self] at h
    split at h <;> exact absurd h nofun
  all_goals exact absurd ((goto_pc_self _ _ _).symm.trans h) nofun

/-- A core that stops because it holds the lock already found its number in `coreid`. -/
theorem step_alreadyHeld (h : (s.step coreid t).pc t.core = .alreadyHeld)
    (hne : s.pc t.core ≠ .alreadyHeld) :
    s.pc t.core = .lockOwner ∧ s.lock.coreid = coreid t.core := by
  simp only [step] at h
  split at h
  case h_2 hpc =>
    rw [goto_pc_self] at h
    split at h
    case isTrue howner => exact ⟨hpc, howner⟩
    case isFalse => exact absurd h nofun
  case h_4 => split at h <;> exact absurd ((goto_pc_self _ _ _).symm.trans h) nofun
  case h_9 hpc => exact absurd hpc hne
  case h_10 hpc => exact absurd (hpc.symm.trans h) nofun
  case h_1 | h_3 | h_6 | h_7 =>
    rw [goto_pc_self] at h
    split at h <;> exact absurd h nofun
  all_goals exact absurd ((goto_pc_self _ _ _).symm.trans h) nofun

/-- **One turn** keeps a core overtaken. -/
theorem Overtaken.step (h : Overtaken coreid s) (hx : Exclusive coreid s) (t : Turn ι) :
    Overtaken coreid (s.step coreid t) := by
  intro c hc howner
  by_cases hct : c = t.core
  · subst hct
    have hsaw := step_lockOwner hc
    obtain ⟨d, hd⟩ := hx.exists_holder hsaw.2
    have hdt : d ≠ t.core := by
      rintro rfl
      rw [hsaw.1] at hd
      exact absurd hd nofun
    rw [step_coreid (by rw [hsaw.1]; nofun)] at howner
    by_cases hset : s.pc d = .setOwner
    · exact ⟨d, hdt, Or.inl ((step_pc_of_ne hdt).trans hset)⟩
    · have hnum := hx.owner d hd hset
      exact ⟨d, hdt, Or.inr (by exact_mod_cast hnum.symm.trans howner)⟩
  · rw [step_pc_of_ne hct] at hc
    by_cases hset : s.pc t.core = .setOwner
    · have hnum : (s.step coreid t).lock.coreid = coreid t.core := by
        simp only [SpinCores.step, hset]
        rfl
      exact ⟨t.core, Ne.symm hct, Or.inr (by exact_mod_cast hnum.symm.trans howner)⟩
    · rw [step_coreid hset] at howner
      obtain ⟨d, hdc, hd⟩ := h c hc howner
      refine ⟨d, hdc, hd.imp_left fun hd => ?_⟩
      have hdt : d ≠ t.core := by
        rintro rfl
        exact hset hd
      rw [step_pc_of_ne hdt, hd]

/-- The invariants after every schedule of a lock whose word was zero. -/
theorem overtaken_run {lock : Spinlock} {monitor : ι → Bool} (h : lock.word = 0)
    (sched : List (Turn ι)) :
    Exclusive coreid ((start lock monitor).run coreid sched) ∧
      Overtaken coreid ((start lock monitor).run coreid sched) :=
  List.foldlRecOn (motive := fun s => Exclusive coreid s ∧ Overtaken coreid s) sched _
    ⟨exclusive_start h, overtaken_start⟩ fun _ hs t _ => ⟨hs.1.step t, hs.2.step hs.1 t⟩

end alarm

end SpinCores

section check
variable {ι : Type} [DecidableEq ι]

open SpinCores

/-- **The check is right, and the word of a free lock is zero, in every state of a run exactly
when the bytes behind `lock` were zero before and no turn of the run is a stale look.** -/
theorem spinlock_no_false_alarm (coreid : ι → ℕ) (l : Spinlock) (monitor : ι → Bool)
    (sched : List (Turn ι)) :
    let s := start (archSpinlockInit l) monitor
    (∀ p, p <+: sched → Orderly (s.run coreid p)) ↔
      l.padding = 0 ∧ ∀ p t, p ++ [t] <+: sched → ¬ StaleLook coreid (s.run coreid p) t := by
  intro s
  constructor
  · intro h
    constructor
    · have hstart := (h [] List.nil_prefix).free fun _ => rfl
      exact (word_archSpinlockInit l).mp hstart
    · rintro p t hp ⟨hpc, howner, _⟩
      apply (h (p ++ [t]) hp).alarm t.core
      rw [run_concat]
      simp only [step, hpc, howner, if_true]
      exact goto_pc_self _ _ _
  · rintro ⟨hpad, hlook⟩ p hp
    have hword := (word_archSpinlockInit l).mpr hpad
    constructor
    · induction p using List.reverseRecOn with
      | nil => exact fun _ => nofun
      | append_singleton p t ih =>
          have hbefore := ih ((List.prefix_append p [t]).trans hp)
          intro c hc
          rw [run_concat] at hc
          by_cases hct : c = t.core
          · subst hct
            have hfound := step_alreadyHeld hc (hbefore t.core)
            have hover : Overtaken coreid (s.run coreid p) := (overtaken_run hword p).2
            exact hlook p t hp ⟨hfound.1, hfound.2, hover t.core hfound.1 hfound.2⟩
          · rw [step_pc_of_ne hct] at hc
            exact hbefore c hc
    · exact (overtaken_run hword p).1.free

end check

/-- A byte behind `lock` is left from before, and no core ever gets the lock.  With zero bytes,
core 0 takes the lock and gives it back, core 1 takes it, and core 0 looks before core 1 has
stored its number. -/
theorem spinlock_false_alarm :
    ¬ SpinCores.Orderly (SpinCores.start (archSpinlockInit { coreid := 0, word := 0x100 })
        fun (_ : Fin 2) => false) ∧
      ∃ sched : List (Turn (Fin 2)),
        ¬ SpinCores.Orderly ((SpinCores.start (archSpinlockInit { coreid := 0, word := 0 })
          fun _ => false).run Fin.val sched) := by
  constructor
  · intro h
    exact absurd (h.free fun _ => rfl) (by decide)
  · refine ⟨List.replicate 7 ⟨0, true⟩ ++ List.replicate 3 ⟨1, true⟩ ++
      List.replicate 2 ⟨0, true⟩, fun h => ?_⟩
    exact absurd rfl (h.alarm 0)

end Xhyper
