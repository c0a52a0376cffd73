import Mathlib.Data.Nat.Notation
import Mathlib.Logic.Function.Basic
import Xhyper.Lib.Prog

/-!
# Operations under a lock

Any number of threads call operations on one state, each between taking a lock and giving it
back, which may change the state too: the lock may lie in it.  An operation is a tree of single
accesses to the state, and steps of other threads come between any two of them.

The steps add up to a run in which the calls came one after another, in the order in which they
gave the lock back: each returned what it returns in that run, and the state is the one that
run leaves.

## Main definitions

* `Accesses`, `Accesses.run` — an operation in single accesses, and what it does alone.
* `Accesses.Along` — a property of all the states that it goes through.
* `Threads`, `Threads.Step` — the threads, and one step of one of them.
* `lockedCall`, `Sequential` — a call with the lock, and calls one after another.
* `Threads.Explained` — a state that a sequential run explains.
-/

namespace Mutex

/-! ## Operations -/

/-- A program over `σ` in single accesses.  It returns, stops, or changes the state and goes on
as the state before the change says. -/
inductive Accesses (ε σ α : Type)
  | ret (a : α)
  | stop (e : ε)
  | access (change : σ → σ) (next : σ → Accesses ε σ α)

namespace Accesses

variable {ε σ α : Type}

/-- The program, run without anything in between. -/
def run : Accesses ε σ α → EStateM ε σ α
  | ret a => pure a
  | stop e => throw e
  | access change next => fun s => (next s).run (change s)

@[simp] theorem run_ret (a : α) (s : σ) : (ret a : Accesses ε σ α).run s = .ok a s := rfl

@[simp] theorem run_stop (e : ε) (s : σ) : (stop e : Accesses ε σ α).run s = .error e s := rfl

@[simp] theorem run_access (change : σ → σ) (next : σ → Accesses ε σ α) (s : σ) :
    (access change next).run s = (next s).run (change s) := rfl

/-- A program whose first access does everything. -/
def atOnce (x : EStateM ε σ α) : Accesses ε σ α :=
  access (fun s => match x s with | .ok _ s' => s' | .error _ s' => s')
    fun s => match x s with | .ok a _ => ret a | .error e _ => stop e

theorem run_atOnce (x : EStateM ε σ α) : (atOnce x).run = x := by
  funext s
  simp only [atOnce, run_access]
  cases x s <;> rfl

/-- Every state that the program leaves an access with, from `s` on, is one of `I`. -/
def Along (I : σ → Prop) : Accesses ε σ α → σ → Prop
  | ret _, _ => True
  | stop _, _ => True
  | access change next, s => I (change s) ∧ (next s).Along I (change s)

variable {I J : σ → Prop}

theorem Along.mono (hIJ : ∀ s, I s → J s) {x : Accesses ε σ α} {s : σ} (h : x.Along I s) :
    x.Along J s := by
  induction x generalizing s with
  | ret a => trivial
  | stop e => trivial
  | access change next ih => exact ⟨hIJ _ h.1, ih s h.2⟩

theorem along_atOnce {x : EStateM ε σ α} {s s' : σ} {a : α} (hrun : x s = .ok a s') (h : I s') :
    (atOnce x).Along I s := by
  simp only [atOnce, Along, hrun]
  exact ⟨h, trivial⟩

end Accesses

/-! ## Threads -/

/-- Where a thread is. -/
inductive Place (Op ε σ α : Type)
  | idle
  /-- It called `op` and waits for the lock. -/
  | waiting (op : Op)
  /-- It has the lock, and `rest` is left of its call. -/
  | inside (op : Op) (rest : Accesses ε σ α)

/-- The thread has the lock. -/
def Place.Inside {Op ε σ α : Type} : Place Op ε σ α → Prop
  | .inside _ _ => True
  | .idle | .waiting _ => False

/-- A call that returned. -/
structure Returned (ι Op α : Type) where
  thread : ι
  op : Op
  result : α
  deriving DecidableEq

/-- The threads around a state. -/
structure Threads (ι Op ε σ α : Type) where
  data : σ
  place : ι → Place Op ε σ α
  /-- The calls that returned, last one first. -/
  log : List (Returned ι Op α)

section threads
variable {ι Op ε σ α : Type}

/-- Calls one after another, last one first, with the results they give. -/
inductive Sequential (sem : ι → Op → EStateM ε σ α) (s₀ : σ) : List (Returned ι Op α) → σ → Prop
  | nil : Sequential sem s₀ [] s₀
  | call {log : List (Returned ι Op α)} {s s' : σ} {c : ι} {op : Op} {a : α} :
      Sequential sem s₀ log s → sem c op s = .ok a s' →
      Sequential sem s₀ (⟨c, op, a⟩ :: log) s'

/-- The calls of a run are those of another meaning, too, that agrees with the first one where the
run comes by: in the states of `I`, with the calls of `ok`. -/
theorem Sequential.congr {sem sem' : ι → Op → EStateM ε σ α} {s₀ s : σ}
    {log : List (Returned ι Op α)} {I : σ → Prop} {ok : ι → Op → Prop}
    (h : Sequential sem s₀ log s) (hs₀ : I s₀) (hok : ∀ r ∈ log, ok r.thread r.op)
    (hstep : ∀ c op s a s', ok c op → I s → sem c op s = .ok a s' →
      I s' ∧ sem' c op s = .ok a s') : I s ∧ Sequential sem' s₀ log s := by
  induction h with
  | nil => exact ⟨hs₀, .nil⟩
  | call _ hrun ih =>
      obtain ⟨hI, hseq⟩ := ih fun r hr => hok r (List.mem_cons_of_mem _ hr)
      obtain ⟨hI', hrun'⟩ := hstep _ _ _ _ _ (hok _ List.mem_cons_self) hI hrun
      exact ⟨hI', .call hseq hrun'⟩

variable (take give : ι → σ → σ) (prog : ι → Op → Accesses ε σ α)

/-- A call, run without anything in between. -/
def lockedCall (c : ι) (op : Op) : EStateM ε σ α := do
  modify (take c)
  let a ← (prog c op).run
  modify (give c)
  pure a

variable {take give prog} in
theorem lockedCall_eq {c : ι} {op : Op} {s s' : σ} {a : α}
    (h : (prog c op).run (take c s) = .ok a s') :
    lockedCall take give prog c op s = .ok a (give c s') := by
  change (EStateM.bind (prog c op).run fun a => do modify (give c); pure a) (take c s) = _
  rw [EStateM.bind, h]
  rfl

variable {take give prog} in
theorem lockedCall_ok {c : ι} {op : Op} {s t : σ} {a : α}
    (h : lockedCall take give prog c op s = .ok a t) :
    ∃ s', (prog c op).run (take c s) = .ok a s' ∧ t = give c s' := by
  cases hrun : (prog c op).run (take c s) with
  | ok b s' =>
      rw [lockedCall_eq hrun] at h
      cases h
      exact ⟨s', rfl, rfl⟩
  | error e s' =>
      change (EStateM.bind (prog c op).run fun a => do modify (give c); pure a) (take c s) = _ at h
      rw [EStateM.bind, hrun] at h
      cases h

/-- **The invariant.**  One thread at most has the lock.  The calls that returned are those of a
sequential run, which leaves the state when no thread has the lock; from where that run ends, a
call that has the lock does what is left of it from here. -/
structure Threads.Explained (s₀ : σ) (T : Threads ι Op ε σ α) : Prop where
  one : ∀ c d, (T.place c).Inside → (T.place d).Inside → c = d
  seq : ∃ s, Sequential (lockedCall take give prog) s₀ T.log s ∧
    (∀ c op rest, T.place c = .inside op rest →
      (prog c op).run (take c s) = rest.run T.data) ∧
    ((∀ c, ¬ (T.place c).Inside) → T.data = s)

section
variable {take give prog} {T : Threads ι Op ε σ α} {s₀ : σ} {c : ι}

/-- Threads of which none has the lock, before any call returned. -/
theorem Threads.explained_start (h : ∀ c, ¬ (T.place c).Inside) (hlog : T.log = []) :
    Explained take give prog T.data T where
  one c _ hc := absurd hc (h c)
  seq := by
    refine ⟨T.data, hlog ▸ .nil, fun c op rest hc => absurd ?_ (h c), fun _ => rfl⟩
    rw [hc]
    trivial

/-- The thread with the lock is the only one that is inside. -/
theorem Threads.Explained.only (E : Explained take give prog s₀ T) {op : Op} {rest : Accesses ε σ α}
    (hc : T.place c = .inside op rest) {d : ι} (hd : d ≠ c) : ¬ (T.place d).Inside := by
  intro h
  refine hd (E.one d c h ?_)
  rw [hc]
  trivial

end

variable [DecidableEq ι]

/-- The thread `c` goes on at `p`. -/
def Threads.goto (T : Threads ι Op ε σ α) (c : ι) (p : Place Op ε σ α) : Threads ι Op ε σ α :=
  { T with place := Function.update T.place c p }

/-- One step of one thread.  It gets the lock when no thread has it. -/
inductive Threads.Step (T : Threads ι Op ε σ α) : Threads ι Op ε σ α → Prop
  | call {c : ι} (op : Op) : T.place c = .idle → T.Step (T.goto c (.waiting op))
  | enter {c : ι} {op : Op} : T.place c = .waiting op → (∀ d, ¬ (T.place d).Inside) →
      T.Step { T.goto c (.inside op (prog c op)) with data := take c T.data }
  | access {c : ι} {op : Op} {change : σ → σ} {next : σ → Accesses ε σ α} :
      T.place c = .inside op (.access change next) →
      T.Step { T.goto c (.inside op (next T.data)) with data := change T.data }
  | leave {c : ι} {op : Op} {a : α} : T.place c = .inside op (.ret a) →
      T.Step { T.goto c .idle with
        data := give c T.data
        log := ⟨c, op, a⟩ :: T.log }

variable {take give prog} {T T' : Threads ι Op ε σ α} {s₀ : σ} {c : ι}

@[simp] theorem Threads.goto_data (T : Threads ι Op ε σ α) (c : ι) (p : Place Op ε σ α) :
    (T.goto c p).data = T.data := rfl

@[simp] theorem Threads.goto_log (T : Threads ι Op ε σ α) (c : ι) (p : Place Op ε σ α) :
    (T.goto c p).log = T.log := rfl

@[simp] theorem Threads.goto_place_self (T : Threads ι Op ε σ α) (c : ι) (p : Place Op ε σ α) :
    (T.goto c p).place c = p := Function.update_self _ _ _

theorem Threads.goto_place_of_ne (T : Threads ι Op ε σ α) {c d : ι} (p : Place Op ε σ α)
    (h : d ≠ c) : (T.goto c p).place d = T.place d := Function.update_of_ne h _ _

/-- Who is inside after a step to `p`. -/
theorem Threads.inside_goto {p : Place Op ε σ α} {d : ι} (h : ((T.goto c p).place d).Inside) :
    (d = c ∧ p.Inside) ∨ (d ≠ c ∧ (T.place d).Inside) := by
  by_cases hd : d = c
  · subst hd
    rw [goto_place_self] at h
    exact Or.inl ⟨rfl, h⟩
  · rw [goto_place_of_ne T p hd] at h
    exact Or.inr ⟨hd, h⟩

/-- **One step keeps the invariant.** -/
theorem Threads.Step.explained (E : Explained take give prog s₀ T)
    (h : T.Step take give prog T') : Explained take give prog s₀ T' := by
  obtain ⟨s, hseq, hrun, hfree⟩ := E.seq
  cases h with
  | call op hc =>
      rename_i c
      have hin : ∀ d, ((T.goto c (.waiting op)).place d).Inside → (T.place d).Inside := fun d hd =>
        (inside_goto hd).elim (fun h => h.2.elim) fun h => h.2
      refine ⟨fun d e hd he => E.one d e (hin d hd) (hin e he), s, hseq, ?_, ?_⟩
      · intro d op' rest hd
        by_cases hdc : d = c
        · subst hdc
          rw [goto_place_self] at hd
          cases hd
        · rw [goto_place_of_ne T _ hdc] at hd
          exact hrun d op' rest hd
      · intro hnone
        refine hfree fun d hd => ?_
        have hdc : d ≠ c := by
          rintro rfl
          rw [hc] at hd
          exact hd
        refine hnone d ?_
        rwa [goto_place_of_ne T _ hdc]
  | enter hc hnone =>
      rename_i c op
      have hdata := hfree hnone
      have hin : ∀ d, ((T.goto c (.inside op (prog c op))).place d).Inside → d = c := fun d hd =>
        (inside_goto hd).elim (fun h => h.1) fun h => absurd h.2 (hnone d)
      refine ⟨fun d e hd he => (hin d hd).trans (hin e he).symm, s, hseq, ?_, fun hno => ?_⟩
      · intro d op' rest hd
        have hdc : d = c := hin d (by rw [show (T.goto c _).place d = _ from hd]; trivial)
        subst hdc
        change (T.goto d _).place d = _ at hd
        rw [goto_place_self] at hd
        cases hd
        rw [hdata]
      · refine absurd ?_ (hno c)
        change ((T.goto c _).place c).Inside
        rw [goto_place_self]
        trivial
  | access hc =>
      rename_i c op change next
      have hin : ∀ d, ((T.goto c (.inside op (next T.data))).place d).Inside → d = c := fun d hd =>
        (inside_goto hd).elim (fun h => h.1) fun h => absurd h.2 (E.only hc h.1)
      refine ⟨fun d e hd he => (hin d hd).trans (hin e he).symm, s, hseq, ?_, fun hno => ?_⟩
      · intro d op' rest hd
        have hdc : d = c := hin d (by rw [show (T.goto c _).place d = _ from hd]; trivial)
        subst hdc
        change (T.goto d _).place d = _ at hd
        rw [goto_place_self] at hd
        cases hd
        rw [hrun d op _ hc, Accesses.run_access]
      · refine absurd ?_ (hno c)
        change ((T.goto c _).place c).Inside
        rw [goto_place_self]
        trivial
  | leave hc =>
      rename_i c op a
      have hnone : ∀ d, ¬ ((T.goto c .idle).place d).Inside := fun d hd =>
        (inside_goto hd).elim (fun h => h.2) fun h => E.only hc h.1 h.2
      refine ⟨fun d _ hd => absurd hd (hnone d), give c T.data,
        .call hseq (lockedCall_eq (hrun c op _ hc)), ?_, fun _ => rfl⟩
      intro d op' rest hd
      refine absurd ?_ (hnone d)
      rw [show (T.goto c .idle).place d = .inside op' rest from hd]
      trivial

end threads

end Mutex
