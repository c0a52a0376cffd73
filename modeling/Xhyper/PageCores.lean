import Xhyper.Kalloc
import Xhyper.Spinlock
import Mathlib.Data.Finset.Basic

/-!
# The page allocator from several cores

Every core takes pages with `alloc_one_page` and gives them back with `free_one_page`, and the
other cores take their turns between any two accesses of these functions: the accesses of the
lock, the load of the head, the load or store of a link, the store of the head, and each byte that
`memset` clears.  `memset` runs outside the lock in both functions, on a page of which the other
cores know nothing.

`own` says which pages a core was given.  A core writes to pages of its own and frees them, or it
passes one on; what a core does with pages of others or of the free list is not part of a run.
A core that found the list empty keeps the lock and stays where it is.

## Main definitions

* `PageCores`, `PageCores.step`, `PageCores.run` — the cores around the allocator, turn after turn.
* `PageCores.run_allocOnePage`, `PageCores.run_freeOnePage` — one core alone.
-/

namespace Xhyper

open Memory Prog

/-! ## Cores and turns -/

/-- Where a core is: what its next access will be. -/
inductive PagePc
  | idle
  /-- It is in `arch_spin_lock` of `alloc_one_page`. -/
  | allocLock
  /-- It loads `pages.freelist`. -/
  | allocHead
  /-- It loads `page->next`. -/
  | allocNext (page : ℕ)
  /-- It stores `next` to `pages.freelist`. -/
  | allocStore (page next : ℕ)
  /-- It is in `arch_spin_unlock`. -/
  | allocUnlock (page : ℕ)
  /-- `memset` clears byte `k` next. -/
  | allocZero (page k : ℕ)
  /-- It returned `NULL`, with the lock. -/
  | outOfPages
  /-- `memset` of `free_one_page` clears byte `k` next. -/
  | freeZero (page k : ℕ)
  /-- It is in `arch_spin_lock` of `free_one_page`. -/
  | freeLock (page : ℕ)
  /-- It loads `pages.freelist`. -/
  | freeHead (page : ℕ)
  /-- It stores the head it loaded to `fp->next`. -/
  | freeLink (page head : ℕ)
  /-- It stores `fp` to `pages.freelist`. -/
  | freeStore (page : ℕ)
  /-- It is in `arch_spin_unlock`. -/
  | freeUnlock
  deriving DecidableEq, Repr

/-- A place as the lock sees it. -/
inductive LockPhase
  | away
  | taking
  | holding
  | leaving
  deriving DecidableEq, Repr

/-- The places in the code of the lock. -/
def LockPhase.Allows : LockPhase → SpinPc → Prop
  | .away, p => p = .outside
  | .taking, p => p = .outside ∨ p = .lockOwner ∨ p = .loadEx ∨ p = .storeEx ∨ p = .setOwner ∨
      p = .alreadyHeld
  | .holding, p => p = .inside
  | .leaving, p => p = .inside ∨ p = .unlockOwner ∨ p = .clear

/-- Where the core is with the lock. -/
def PagePc.phase : PagePc → LockPhase
  | .idle | .allocZero _ _ | .freeZero _ _ => .away
  | .allocLock | .freeLock _ => .taking
  | .allocHead | .allocNext _ | .allocStore _ _ | .outOfPages | .freeHead _ | .freeLink _ _
  | .freeStore _ => .holding
  | .allocUnlock _ | .freeUnlock => .leaving

/-- What an idle core does next. -/
inductive PageCall (ι : Type)
  | alloc
  | free (page : ℕ)
  /-- It stores a byte. -/
  | store (addr : ℕ) (val : Byte)
  /-- It passes a page on to another core. -/
  | give (page : ℕ) (core : ι)

/-- The cores around the page allocator. -/
structure PageCores (ι : Type) where
  /-- `pages.lock`, and where each core is in the code of the lock. -/
  spin : SpinCores ι
  mem : Mem
  /-- `pages.freelist` -/
  freelist : ℕ
  pc : ι → PagePc
  /-- The pages of each core. -/
  own : ι → Finset ℕ

namespace SpinCores

variable {ι : Type} [DecidableEq ι] {coreid : ι → ℕ} {s : SpinCores ι} {t : Turn ι}

/-- A core that is taking the lock goes on with it, or gets it. -/
theorem step_taking (hc : LockPhase.taking.Allows (s.pc t.core)) :
    LockPhase.taking.Allows ((s.step coreid t).pc t.core) ∨
      (s.step coreid t).pc t.core = .inside := by
  rcases hc with hpc | hpc | hpc | hpc | hpc | hpc <;> simp only [step, hpc]
  · rw [goto_pc_self]
    split <;> simp [LockPhase.Allows]
  · rw [goto_pc_self]
    split <;> simp [LockPhase.Allows]
  · rw [goto_pc_self]
    split <;> simp [LockPhase.Allows]
  · split <;> rw [goto_pc_self] <;> simp [LockPhase.Allows]
  · rw [goto_pc_self]
    exact Or.inr rfl
  · simp [LockPhase.Allows]

/-- A core that is giving the lock back goes on with it, or is outside. -/
theorem Exclusive.step_leaving (h : Exclusive coreid s)
    (hc : LockPhase.leaving.Allows (s.pc t.core)) :
    LockPhase.leaving.Allows ((s.step coreid t).pc t.core) ∨
      (s.step coreid t).pc t.core = .outside := by
  rcases hc with hpc | hpc | hpc
  · have hword := h.word t.core (by rw [hpc]; rfl)
    simp only [SpinCores.step, hpc]
    rw [goto_pc_self, if_pos (lock_ne_zero hword)]
    exact Or.inl (Or.inr (Or.inl rfl))
  · have howner := h.owner t.core (by rw [hpc]; rfl) (by simp [hpc])
    simp only [SpinCores.step, hpc]
    rw [goto_pc_self, if_pos howner]
    exact Or.inl (Or.inr (Or.inr rfl))
  · simp only [SpinCores.step, hpc]
    rw [goto_pc_self]
    exact Or.inr rfl

end SpinCores

namespace PageCores

section bytes
variable {ι : Type} (s : PageCores ι) (x : ℕ) (b : Byte)

/-- A byte is stored. -/
def store : PageCores ι :=
  { s with mem := Function.update s.mem x b }

@[simp] theorem store_spin : (s.store x b).spin = s.spin := rfl
@[simp] theorem store_freelist : (s.store x b).freelist = s.freelist := rfl
@[simp] theorem store_own : (s.store x b).own = s.own := rfl
@[simp] theorem store_pc : (s.store x b).pc = s.pc := rfl

end bytes

section steps
variable {ι : Type} [DecidableEq ι]

/-- The core `c` goes on at `p`. -/
def goto (s : PageCores ι) (c : ι) (p : PagePc) : PageCores ι :=
  { s with pc := Function.update s.pc c p }

/-- The page `p` is the core `c`'s from now on. -/
def take (s : PageCores ι) (c : ι) (p : ℕ) : PageCores ι :=
  { s with own := Function.update s.own c (insert p (s.own c)) }

/-- The page `p` is no longer the core `c`'s. -/
def drop (s : PageCores ι) (c : ι) (p : ℕ) : PageCores ι :=
  { s with own := Function.update s.own c ((s.own c).erase p) }

/-- An access of `arch_spin_lock`; with the lock the core goes on at `next`. -/
def lockTurn (coreid : ι → ℕ) (s : PageCores ι) (t : Turn ι) (next : PagePc) : PageCores ι :=
  let s' := { s with spin := s.spin.step coreid t }
  if s'.spin.pc t.core = .inside then s'.goto t.core next else s'

/-- An access of `arch_spin_unlock`; without the lock the core goes on at `next`. -/
def unlockTurn (coreid : ι → ℕ) (s : PageCores ι) (t : Turn ι) (next : PagePc) : PageCores ι :=
  let s' := { s with spin := s.spin.step coreid t }
  if s'.spin.pc t.core = .outside then s'.goto t.core next else s'

/-- **One turn**, in which an idle core does `call`, if there is one. -/
def step (coreid : ι → ℕ) (s : PageCores ι) (t : Turn ι) (call : Option (PageCall ι)) :
    PageCores ι :=
  let c := t.core
  match s.pc c with
  | .idle =>
      match call with
      | none => s
      | some .alloc => s.goto c .allocLock
      | some (.free p) => if p ∈ s.own c then s.goto c (.freeZero p 0) else s
      | some (.store x b) => if x - x % pageSize ∈ s.own c then s.store x b else s
      | some (.give p d) => if p ∈ s.own c then (s.drop c p).take d p else s
  | .allocLock => s.lockTurn coreid t .allocHead
  | .allocHead => s.goto c (if s.freelist = 0 then .outOfPages else .allocNext s.freelist)
  | .allocNext p => s.goto c (.allocStore p (read64 s.mem p))
  | .allocStore p n => (({ s with freelist := n } : PageCores ι).take c p).goto c (.allocUnlock p)
  | .allocUnlock p => s.unlockTurn coreid t (.allocZero p 0)
  | .allocZero p k =>
      (s.store (p + k) 0).goto c (if k + 1 < pageSize then .allocZero p (k + 1) else .idle)
  | .outOfPages => s
  | .freeZero p k =>
      (s.store (p + k) 0).goto c (if k + 1 < pageSize then .freeZero p (k + 1) else .freeLock p)
  | .freeLock p => s.lockTurn coreid t (.freeHead p)
  | .freeHead p => s.goto c (.freeLink p s.freelist)
  | .freeLink p h => ({ s with mem := write64 s.mem p h } : PageCores ι).goto c (.freeStore p)
  | .freeStore p => (({ s with freelist := p } : PageCores ι).drop c p).goto c .freeUnlock
  | .freeUnlock => s.unlockTurn coreid t .idle

/-- A schedule, turn after turn. -/
def run (coreid : ι → ℕ) (s : PageCores ι) (sched : List (Turn ι × Option (PageCall ι))) :
    PageCores ι :=
  sched.foldl (fun s t => s.step coreid t.1 t.2) s

/-- Every core is idle and has no page. -/
def start (r : Ram) (monitor : ι → Bool) : PageCores ι where
  spin := .start r.pages.lock monitor
  mem := r.mem
  freelist := r.pages.freelist
  pc _ := .idle
  own _ := ∅

variable {coreid : ι → ℕ} {s : PageCores ι}

@[simp] theorem run_nil : s.run coreid [] = s := rfl

theorem run_cons (t : Turn ι × Option (PageCall ι)) (l : List (Turn ι × Option (PageCall ι))) :
    s.run coreid (t :: l) = (s.step coreid t.1 t.2).run coreid l := rfl

theorem run_append (l l' : List (Turn ι × Option (PageCall ι))) :
    s.run coreid (l ++ l') = (s.run coreid l).run coreid l' :=
  List.foldl_append

section fields
variable (s) (c : ι) (p : PagePc) (q x : ℕ)

@[simp] theorem goto_spin : (s.goto c p).spin = s.spin := rfl
@[simp] theorem goto_mem : (s.goto c p).mem = s.mem := rfl
@[simp] theorem goto_freelist : (s.goto c p).freelist = s.freelist := rfl
@[simp] theorem goto_own : (s.goto c p).own = s.own := rfl
@[simp] theorem goto_pc_self : (s.goto c p).pc c = p := Function.update_self _ _ _
@[simp] theorem take_spin : (s.take c q).spin = s.spin := rfl
@[simp] theorem take_mem : (s.take c q).mem = s.mem := rfl
@[simp] theorem take_freelist : (s.take c q).freelist = s.freelist := rfl
@[simp] theorem take_pc : (s.take c q).pc = s.pc := rfl
@[simp] theorem drop_spin : (s.drop c q).spin = s.spin := rfl
@[simp] theorem drop_mem : (s.drop c q).mem = s.mem := rfl
@[simp] theorem drop_freelist : (s.drop c q).freelist = s.freelist := rfl
@[simp] theorem drop_pc : (s.drop c q).pc = s.pc := rfl

theorem goto_pc_of_ne {s : PageCores ι} {c d : ι} (p : PagePc) (h : d ≠ c) :
    (s.goto c p).pc d = s.pc d :=
  Function.update_of_ne h _ _

theorem mem_take {c d : ι} : q ∈ (s.take c x).own d ↔ q ∈ s.own d ∨ (d = c ∧ q = x) := by
  by_cases hd : d = c
  · subst hd
    simp [take, or_comm]
  · simp [take, hd]

theorem mem_drop {c d : ι} : q ∈ (s.drop c x).own d ↔ q ∈ s.own d ∧ ¬ (d = c ∧ q = x) := by
  by_cases hd : d = c
  · subst hd
    simp [drop, and_comm]
  · simp [drop, hd]

end fields

end steps

/-! ### One core alone

Without turns of other cores the accesses add up to `alloc_one_page` and `free_one_page` as one
core computes them. -/

section alone
variable {ι : Type} [DecidableEq ι] {coreid : ι → ℕ} {s : PageCores ι} {c : ι}

/-- The allocator's variables are those of `r`. -/
structure Shows (s : PageCores ι) (r : Ram) : Prop where
  lock : s.spin.lock = r.pages.lock
  mem : s.mem = r.mem
  freelist : s.freelist = r.pages.freelist

/-- The turns of a core that begins `call`. -/
def turns (c : ι) (call : PageCall ι) (n : ℕ) : List (Turn ι × Option (PageCall ι)) :=
  (⟨c, true⟩, some call) :: List.replicate n (⟨c, true⟩, none)

/-- `arch_spin_lock` in four turns. -/
theorem run_lockTurn {pc next : PagePc} (hpc : s.pc c = pc)
    (hstep : ∀ s : PageCores ι, s.pc c = pc →
      s.step coreid ⟨c, true⟩ none = s.lockTurn coreid ⟨c, true⟩ next)
    (hout : s.spin.pc c = .outside) (hword : s.spin.lock.word = 0) :
    ∃ spin, spin.pc c = .inside ∧ spin.lock = .heldBy (coreid c) ∧
      s.run coreid (List.replicate 4 (⟨c, true⟩, none)) =
        ({ s with spin := spin } : PageCores ι).goto c next := by
  have hrun := SpinCores.run_archSpinLock hout (k := .heldBy (coreid c))
    (archSpinLock_of_free hword)
  have hbyte : s.spin.lock.lock = 0 := by
    rw [Spinlock.lock, hword]
    decide
  refine ⟨_, hrun.1, hrun.2, ?_⟩
  simp [run_cons, hstep, hpc, lockTurn, SpinCores.run_cons, SpinCores.step, hout, hbyte, hword,
    SpinCores.goto, SpinCores.setMonitor, SpinCores.storeWord, SpinCores.storeOwner, goto]

variable (coreid) in
/-- `arch_spin_unlock` in three turns. -/
theorem run_unlockTurn {pc q : PagePc} (hpc : s.pc c = pc)
    (hstep : ∀ s : PageCores ι, s.pc c = pc →
      s.step coreid ⟨c, true⟩ none = s.unlockTurn coreid ⟨c, true⟩ q)
    (hin : s.spin.pc c = .inside) (hlock : s.spin.lock = .heldBy (coreid c)) :
    ∃ spin, spin.pc c = .outside ∧ spin.lock = .leftBy (coreid c) ∧
      s.run coreid (List.replicate 3 (⟨c, true⟩, none)) =
        ({ s with spin := spin } : PageCores ι).goto c q := by
  have hrun := SpinCores.run_archSpinUnlock (k := .leftBy (coreid c)) hin
    (by rw [hlock]; exact archSpinUnlock_heldBy _)
  have hset : ¬ s.spin.lock.lock = 0#8 := SpinCores.lock_ne_zero (by rw [hlock]; rfl)
  have howner : s.spin.lock.coreid = coreid c := by rw [hlock]; rfl
  refine ⟨_, hrun.1, hrun.2, ?_⟩
  simp [run_cons, hstep, hpc, unlockTurn, SpinCores.run_cons, SpinCores.step, hin, hset, howner,
    SpinCores.goto, SpinCores.storeWord, goto]

/-- `memset` byte by byte, for either of its callers. -/
theorem run_zero {f : ℕ → PagePc} {p : ℕ} {q : PagePc}
    (hstep : ∀ (s : PageCores ι) k, s.pc c = f k → s.step coreid ⟨c, true⟩ none =
      (s.store (p + k) 0).goto c (if k + 1 < pageSize then f (k + 1) else q)) :
    ∀ (n k : ℕ) (s : PageCores ι), k + n + 1 = pageSize → s.pc c = f k →
      s.run coreid (List.replicate (n + 1) (⟨c, true⟩, none)) =
        ({ s with mem := fill s.mem (p + k) (n + 1) 0 } : PageCores ι).goto c q := by
  intro n
  induction n with
  | zero =>
      intro k s hk hpc
      have hfill : Function.update s.mem (p + k) 0 = fill s.mem (p + k) 1 0 := by
        funext x
        by_cases hx : x = p + k
        · rw [hx, Function.update_self, fill_of_mem (by simp)]
        · rw [Function.update_of_ne hx, fill_of_notMem (by simp only [mem_block]; omega)]
      rw [List.replicate_one, run_cons, run_nil, hstep s k hpc, if_neg (by omega), ← hfill]
      rfl
  | succ n ih =>
      intro k s hk hpc
      have hfill : fill (Function.update s.mem (p + k) 0) (p + (k + 1)) (n + 1) 0 =
          fill s.mem (p + k) (n + 1 + 1) 0 := by
        funext x
        by_cases hx : x ∈ block (p + (k + 1)) (n + 1)
        · rw [fill_of_mem hx, fill_of_mem (by simp only [mem_block] at hx ⊢; omega)]
        · rw [fill_of_notMem hx]
          by_cases hxk : x = p + k
          · rw [hxk, Function.update_self, fill_of_mem (by simp)]
          · rw [Function.update_of_ne hxk,
              fill_of_notMem (by simp only [mem_block] at hx ⊢; omega)]
      rw [List.replicate_succ, run_cons, hstep s k hpc, if_pos (by omega),
        ih (k + 1) _ (by omega) (goto_pc_self _ _ _), ← hfill]
      simp [goto, store]

/-- A call from its beginning until the core has the lock. -/
theorem run_turns {call : PageCall ι} {pc q : PagePc} {m : Mem} (k n : ℕ)
    (hbegin : (s.step coreid ⟨c, true⟩ (some call)).run coreid (List.replicate k (⟨c, true⟩, none)) =
      ({ s with mem := m } : PageCores ι).goto c pc)
    (hstep : ∀ s : PageCores ι, s.pc c = pc →
      s.step coreid ⟨c, true⟩ none = s.lockTurn coreid ⟨c, true⟩ q)
    (hout : s.spin.pc c = .outside) (hword : s.spin.lock.word = 0) :
    ∃ spin, spin.pc c = .inside ∧ spin.lock = .heldBy (coreid c) ∧
      s.run coreid (turns c call (k + (4 + n))) =
        (({ s with spin := spin, mem := m } : PageCores ι).goto c q).run coreid
          (List.replicate n (⟨c, true⟩, none)) := by
  obtain ⟨spin, hin, hheld, hrun⟩ := run_lockTurn
    (s := ({ s with mem := m } : PageCores ι).goto c pc) (goto_pc_self _ _ _) hstep hout hword
  refine ⟨spin, hin, hheld, ?_⟩
  rw [turns, List.replicate_add, List.replicate_add, run_cons, run_append, run_append, hbegin, hrun]
  simp [goto]

variable (coreid) in
/-- The rest of `alloc_one_page` from where the head is loaded. -/
theorem run_pop (hpc : s.pc c = .allocHead) (hin : s.spin.pc c = .inside)
    (hheld : s.spin.lock = .heldBy (coreid c)) (hne : s.freelist ≠ 0) :
    let s' := s.run coreid (List.replicate (3 + (3 + pageSize)) (⟨c, true⟩, none))
    s'.spin.lock = .leftBy (coreid c) ∧ s'.mem = fill s.mem s.freelist pageSize 0 ∧
      s'.freelist = read64 s.mem s.freelist ∧ s'.pc c = .idle ∧
      s'.own = (s.take c s.freelist).own := by
  have hpop : s.run coreid (List.replicate 3 (⟨c, true⟩, none)) =
      (({ s with freelist := read64 s.mem s.freelist } : PageCores ι).take c s.freelist).goto c
        (.allocUnlock s.freelist) := by
    simp [run_cons, step, hpc, hne, goto, take]
  obtain ⟨spin, hout, hleft, hrun⟩ := run_unlockTurn coreid
    (s := (({ s with freelist := read64 s.mem s.freelist } : PageCores ι).take c s.freelist).goto c
      (.allocUnlock s.freelist)) (q := .allocZero s.freelist 0) (goto_pc_self _ _ _)
    (fun s hs => by simp only [step, hs]) hin hheld
  rw [List.replicate_add, List.replicate_add, run_append, run_append, hpop, hrun,
    run_zero (c := c) (f := .allocZero s.freelist) (p := s.freelist) (q := .idle)
      (fun s k hs => by simp only [step, hs]) 4095 0 _ rfl (goto_pc_self _ _ _)]
  exact ⟨hleft, rfl, rfl, goto_pc_self _ _ _, rfl⟩

/-- **`alloc_one_page` of one core alone**, in the accesses of `step`. -/
theorem run_allocOnePage {r : Ram} (hr : r.core = coreid c) (H : s.Shows r) (hpc : s.pc c = .idle)
    (hout : s.spin.pc c = .outside) (hword : r.pages.lock.word = 0) :
    wp allocOnePage (fun page r' => ∃ n, let s' := s.run coreid (turns c .alloc n)
      s'.Shows r' ∧ match page with
        | none => s'.pc c = .outOfPages ∧ s'.own = s.own
        | some p => s'.pc c = .idle ∧ s'.own = (s.take c p).own) (fun _ _ => False) r := by
  obtain ⟨hlock, hmem, hfree⟩ := H
  have hbegin : (s.step coreid ⟨c, true⟩ (some .alloc)).run coreid (List.replicate 0 (⟨c, true⟩, none))
      = ({ s with mem := s.mem } : PageCores ι).goto c .allocLock := by
    simp [step, hpc]
  have hrun := fun n => run_turns (q := .allocHead) 0 n hbegin
    (fun s hs => by simp only [step, hs]) hout (by rw [hlock, hword])
  simp only [allocOnePage, wp_bind, wp_get]
  rw [wp_spinLock (by simpa using hword)]
  simp only [Ram.set_pagesLock]
  by_cases hnull : r.pages.freelist = 0
  · obtain ⟨spin, hin, hheld, hturns⟩ := hrun 1
    simp only [hnull, if_true, wp_pure]
    refine ⟨0 + (4 + 1), ?_⟩
    rw [hturns, List.replicate_one, run_cons, run_nil]
    simp only [step, goto_pc_self, goto_freelist, hfree, hnull, if_true]
    exact ⟨⟨hheld.trans (hr ▸ rfl), hmem, rfl⟩, trivial, rfl⟩
  · obtain ⟨spin, hin, hheld, hturns⟩ := hrun (3 + (3 + pageSize))
    simp only [hnull, if_false, wp_bind, wp_get, wp_load64, wp_modify]
    rw [wp_spinUnlock (by simp)]
    simp only [Ram.set_pagesLock, wp_memset, wp_pure]
    refine ⟨0 + (4 + (3 + (3 + pageSize))), ?_⟩
    have hpop := run_pop coreid
      (s := ({ s with spin := spin } : PageCores ι).goto c .allocHead) (goto_pc_self _ _ _) hin hheld
      (hfree ▸ hnull)
    rw [hturns]
    obtain ⟨hlock', hmem', hfree', hpc', hown'⟩ := hpop
    refine ⟨⟨hlock'.trans (hr ▸ rfl), hmem'.trans ?_, hfree'.trans ?_⟩, hpc', ?_⟩
    · exact congrArg₂ (fill · · pageSize 0) hmem hfree
    · exact congrArg₂ read64 hmem hfree
    · rw [hown', ← hfree]
      rfl

/-- **`free_one_page` of one core alone**, in the accesses of `step`. -/
theorem run_freeOnePage {r : Ram} {p : ℕ} (hr : r.core = coreid c) (H : s.Shows r)
    (hpc : s.pc c = .idle) (hout : s.spin.pc c = .outside) (hword : r.pages.lock.word = 0)
    (hp : p ∈ s.own c) (hne : p ≠ 0) :
    wp (freeOnePage p) (fun _ r' => ∃ n, let s' := s.run coreid (turns c (.free p) n)
      s'.Shows r' ∧ s'.pc c = .idle ∧ s'.own = (s.drop c p).own) (fun _ _ => False) r := by
  obtain ⟨hlock, hmem, hfree⟩ := H
  have hbegin : (s.step coreid ⟨c, true⟩ (some (.free p))).run coreid
      (List.replicate pageSize (⟨c, true⟩, none)) =
      ({ s with mem := fill s.mem p pageSize 0 } : PageCores ι).goto c (.freeLock p) := by
    simp only [step, hpc, hp, if_true]
    rw [run_zero (c := c) (f := .freeZero p) (p := p) (q := .freeLock p)
      (fun s k hs => by simp only [step, hs]) 4095 0 _ rfl (goto_pc_self _ _ _)]
    simp [goto]
  obtain ⟨spin, hin, hheld, hturns⟩ := run_turns (q := .freeHead p) pageSize (3 + 3) hbegin
    (fun s hs => by simp only [step, hs]) hout (by rw [hlock, hword])
  obtain ⟨spin', hout', hleft, hrun⟩ := run_unlockTurn coreid
    (s := (({ s with spin := spin, mem := write64 (fill s.mem p pageSize 0) p s.freelist
                     freelist := p } : PageCores ι).drop c p).goto c .freeUnlock)
    (q := .idle) (goto_pc_self _ _ _) (fun s hs => by simp only [step, hs]) hin hheld
  have hpush : (({ s with spin := spin, mem := fill s.mem p pageSize 0 } : PageCores ι).goto c
      (.freeHead p)).run coreid (List.replicate 3 (⟨c, true⟩, none)) =
      (({ s with spin := spin, mem := write64 (fill s.mem p pageSize 0) p s.freelist
                 freelist := p } : PageCores ι).drop c p).goto c .freeUnlock := by
    simp [run_cons, step, goto, drop]
  simp only [freeOnePage, hne, if_false, wp_bind, wp_get, wp_memset]
  rw [wp_spinLock (by simpa using hword)]
  simp only [Ram.set_pagesLock, wp_store64, wp_modify]
  rw [wp_spinUnlock (by simp)]
  simp only [Ram.set_pagesLock]
  refine ⟨pageSize + (4 + (3 + 3)), ?_⟩
  rw [hturns, List.replicate_add, run_append, hpush, hrun]
  refine ⟨⟨hleft.trans (hr ▸ rfl), ?_, rfl⟩, goto_pc_self _ _ _, rfl⟩
  exact congrArg₂ (fun m h => write64 (fill m p pageSize 0) p h) hmem hfree

end alone

end PageCores

end Xhyper
