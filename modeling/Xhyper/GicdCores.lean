import Xhyper.Lib.Mutex
import Xhyper.Spinlock
import Xhyper.VgicContain
import Xhyper.VgicDevices

/-!
# The distributor from several cores

The virtual CPUs of a machine run on different cores, and each of them may access the machine's
distributor at any time.  The accesses meet in `vgic_dist->lock`: a core takes the lock, goes
through the `switch` of `vgicd_read` or `vgicd_write` and gives the lock back, and the other
cores take their turns between any two of its loads and stores.

The lock is part of the memory that the accesses store to.  The records of a machine's shared
interrupts may run over it, as their array is too small for them; a store to one of these would
take the lock from its holder.

`SpinThreads` are cores around a spinlock in their state that call operations under it, turn after
turn.  Whatever the schedule, operations that leave the lock alone add up to a sequential run of
them (`SpinThreads.Sound`).  How the compiler divides an operation into accesses does not matter.

## Main definitions

* `LockCell` — a spinlock that lies in the state.
* `SpinThreads`, `SpinThreads.step` — the cores, and one turn.
* `SpinThreads.Sound` — the invariant, `SpinThreads.Sound.run` that it holds after every schedule.
* `GicdAccess.exec`, `GicdAccess.body` — an access, and what it does under the lock.
* `gicd_accesses_atomic` — accesses of several cores are sequential.
-/

namespace Xhyper

open Memory Prog Mutex

/-! ## Operations under a spinlock -/

/-- A spinlock that lies in the state: what it is, and the stores to its two words. -/
structure LockCell (σ : Type) where
  get : σ → Spinlock
  storeWord : BitVec 32 → σ → σ
  storeOwner : ℕ → σ → σ

/-- Cores around one spinlock, with what they do under it. -/
structure SpinThreads (ι Op σ α : Type) where
  pc : ι → SpinPc
  monitor : ι → Bool
  threads : Threads ι Op Fault σ α

namespace SpinThreads

variable {ι Op σ α : Type} (k : LockCell σ) (coreid : ι → ℕ)
  (prog : ι → Op → Accesses Fault σ α)

/-- The cores around the lock that is in the state. -/
def spin (S : SpinThreads ι Op σ α) : SpinCores ι :=
  { lock := k.get S.threads.data, pc := S.pc, monitor := S.monitor }

/-- Once the word is stored, a core stores its number, and goes on with the operation. -/
def owned (c : ι) (op : Op) : Accesses Fault σ α :=
  .access (k.storeOwner (coreid c)) fun _ => prog c op

/-- Every core is outside. -/
def start (monitor : ι → Bool) (data : σ) : SpinThreads ι Op σ α where
  pc _ := .outside
  monitor := monitor
  threads := { data, place := fun _ => .idle, log := [] }

section turns
variable [DecidableEq ι]

/-- **One turn.**  A core that is outside begins the call `op`, if there is one; a core that has
the lock makes its next access, and gives the lock back when none is left.  A core whose
operation called `abort` keeps the lock. -/
def step (S : SpinThreads ι Op σ α) (t : Turn ι) (op : Option Op) : SpinThreads ι Op σ α :=
  let c := t.core
  let T := S.threads
  let spin := (S.spin k).step coreid t
  match S.pc c, T.place c with
  | .outside, .idle =>
      match op with
      | none => S
      | some op => ⟨spin.pc, spin.monitor, T.goto c (.waiting op)⟩
  | .storeEx, .waiting op =>
      if spin.pc c = .setOwner then
        ⟨spin.pc, spin.monitor, { T.goto c (.inside op (owned k coreid prog c op)) with
            data := k.storeWord 1 T.data }⟩
      else ⟨spin.pc, spin.monitor, T⟩
  | .setOwner, .inside op (.access change next) =>
      ⟨spin.pc, spin.monitor, { T.goto c (.inside op (next T.data)) with data := change T.data }⟩
  | .inside, .inside op (.access change next) =>
      -- a store of the operation to the lock word clears the monitors as well
      { pc := S.pc
        monitor := if (k.get (change T.data)).word = (k.get T.data).word then S.monitor
          else fun _ => false
        threads := { T.goto c (.inside op (next T.data)) with data := change T.data } }
  | .inside, .inside _ (.stop _) => S
  | .clear, .inside op (.ret a) =>
      ⟨spin.pc, spin.monitor, { T.goto c .idle with
          data := k.storeWord 0 T.data
          log := ⟨c, op, a⟩ :: T.log }⟩
  | _, _ => ⟨spin.pc, spin.monitor, T⟩

/-- A schedule, turn after turn, with the calls that are begun. -/
def run (S : SpinThreads ι Op σ α) (sched : List (Turn ι × Option Op)) : SpinThreads ι Op σ α :=
  sched.foldl (fun S t => S.step k coreid prog t.1 t.2) S

end turns

/-! ### The invariant -/

variable (I : σ → Prop) (ok : ι → Op → Prop)

/-- **Operations that leave the lock alone**: in the states of `I`, which the stores of the lock
stay in, none of the accesses of a call of `ok` changes the lock or leaves `I`. -/
structure Guarded : Prop where
  get_storeWord : ∀ w s, k.get (k.storeWord w s) = { k.get s with word := w }
  get_storeOwner : ∀ c s, k.get (k.storeOwner (coreid c) s) = { k.get s with coreid := coreid c }
  storeWord : ∀ w s, I s → I (k.storeWord w s)
  storeOwner : ∀ c s, I s → I (k.storeOwner (coreid c) s)
  along : ∀ c op s, ok c op → I s → (prog c op).Along (fun s' => I s' ∧ k.get s' = k.get s) s

/-- Where the core `c` is in the code of the lock, and in its call. -/
inductive Matches (c : ι) : SpinPc → Place Op Fault σ α → Prop
  | outside : Matches c .outside .idle
  | lockOwner {op : Op} : ok c op → Matches c .lockOwner (.waiting op)
  | loadEx {op : Op} : ok c op → Matches c .loadEx (.waiting op)
  | storeEx {op : Op} : ok c op → Matches c .storeEx (.waiting op)
  | alreadyHeld {op : Op} : ok c op → Matches c .alreadyHeld (.waiting op)
  | setOwner {op : Op} : ok c op → Matches c .setOwner (.inside op (owned k coreid prog c op))
  | inside {op : Op} (rest : Accesses Fault σ α) : ok c op → Matches c .inside (.inside op rest)
  | unlockOwner {op : Op} (a : α) : ok c op → Matches c .unlockOwner (.inside op (.ret a))
  | clear {op : Op} (a : α) : ok c op → Matches c .clear (.inside op (.ret a))

/-- **The invariant.**  The lock is sound, each core is where the lock has it, what is left of a
call leaves the lock alone, and a sequential run from `s₀` explains what was done. -/
structure Sound (s₀ : σ) (S : SpinThreads ι Op σ α) : Prop where
  exclusive : (S.spin k).Exclusive coreid
  coupled : ∀ c, Matches k coreid prog ok c (S.pc c) (S.threads.place c)
  inv : I S.threads.data
  along : ∀ c op rest, S.pc c = .inside → S.threads.place c = .inside op rest →
    rest.Along (fun s => I s ∧ k.get s = k.get S.threads.data) S.threads.data
  logged : ∀ r ∈ S.threads.log, ok r.thread r.op
  explained : S.threads.Explained (fun _ => k.storeWord 1) (fun _ => k.storeWord 0)
    (owned k coreid prog) s₀

section sound
variable {k coreid prog I ok} {S : SpinThreads ι Op σ α} {s₀ : σ}

@[simp] theorem spin_lock (S : SpinThreads ι Op σ α) : (S.spin k).lock = k.get S.threads.data := rfl
@[simp] theorem spin_pc (S : SpinThreads ι Op σ α) : (S.spin k).pc = S.pc := rfl
@[simp] theorem spin_monitor (S : SpinThreads ι Op σ α) : (S.spin k).monitor = S.monitor := rfl

/-- A core that is in its call holds the lock. -/
theorem Matches.holds {c : ι} {p : SpinPc} {q : Place Op Fault σ α}
    (h : Matches k coreid prog ok c p q) (hq : q.Inside) : p.holds = true := by
  cases h
  case outside | lockOwner | loadEx | storeEx | alreadyHeld => exact hq.elim
  all_goals rfl

theorem sound_start {data : σ} (hword : (k.get data).word = 0) (hI : I data)
    (monitor : ι → Bool) :
    Sound k coreid prog I ok data (start monitor data : SpinThreads ι Op σ α) where
  exclusive := SpinCores.exclusive_start hword
  coupled _ := .outside
  inv := hI
  along c op rest hc := by cases hc
  logged r hr := absurd hr List.not_mem_nil
  explained := Threads.explained_start (T := ⟨data, fun _ => .idle, []⟩) (fun _ => id) rfl

/-- While a core holds the lock, the others do not. -/
theorem Sound.others (H : Sound k coreid prog I ok s₀ S) {c : ι} (hc : (S.pc c).holds = true)
    (d : ι) (hd : d ≠ c) : (S.pc d).holds = false := by
  by_contra hno
  exact hd (H.exclusive.unique d c (Bool.eq_true_of_not_eq_false hno) hc)

variable [DecidableEq ι]

/-- **A turn in the code of the lock** that goes on at `T`. -/
theorem Sound.next (H : Sound k coreid prog I ok s₀ S) (t : Turn ι) {T : Threads ι Op Fault σ α}
    (hlock : k.get T.data = ((S.spin k).step coreid t).lock)
    (hmove : Matches k coreid prog ok t.core (((S.spin k).step coreid t).pc t.core)
      (T.place t.core))
    (hplace : ∀ c, c ≠ t.core → T.place c = S.threads.place c)
    (hdata : T.data = S.threads.data ∨ ∀ c, c ≠ t.core → (S.pc c).holds = false) (hI : I T.data)
    (halong : ∀ op rest, ((S.spin k).step coreid t).pc t.core = .inside →
      T.place t.core = .inside op rest →
        rest.Along (fun s => I s ∧ k.get s = k.get T.data) T.data)
    (hlog : ∀ r ∈ T.log, ok r.thread r.op)
    (hexpl : T.Explained (fun _ => k.storeWord 1) (fun _ => k.storeWord 0) (owned k coreid prog)
      s₀) :
    Sound k coreid prog I ok s₀
      ⟨((S.spin k).step coreid t).pc, ((S.spin k).step coreid t).monitor, T⟩ where
  exclusive := by
    have hX := H.exclusive.step t
    rw [SpinThreads.spin, hlock]
    exact hX
  coupled c := by
    by_cases hc : c = t.core
    · rw [hc]
      exact hmove
    · dsimp only
      rw [SpinCores.step_pc_of_ne hc, hplace c hc]
      exact H.coupled c
  inv := hI
  along c op rest hpc hin := by
    by_cases hc : c = t.core
    · subst hc
      exact halong op rest hpc hin
    · dsimp only at hpc hin
      rw [SpinCores.step_pc_of_ne hc] at hpc
      rw [hplace c hc] at hin
      rcases hdata with hsame | hnone
      · rw [hsame]
        exact H.along c op rest hpc hin
      · have hno := hnone c hc
        rw [show S.pc c = .inside from hpc] at hno
        cases hno
  logged := hlog
  explained := hexpl

/-- A turn in the code of the lock that is no store. -/
theorem Sound.quiet (H : Sound k coreid prog I ok s₀ S) (t : Turn ι)
    (hlock : ((S.spin k).step coreid t).lock = (S.spin k).lock)
    (hmove : Matches k coreid prog ok t.core (((S.spin k).step coreid t).pc t.core)
      (S.threads.place t.core))
    (hpc : ((S.spin k).step coreid t).pc t.core ≠ .inside) :
    Sound k coreid prog I ok s₀
      ⟨((S.spin k).step coreid t).pc, ((S.spin k).step coreid t).monitor, S.threads⟩ :=
  H.next t hlock.symm hmove (fun _ _ => rfl) (.inl rfl) H.inv (fun _ _ h => absurd h hpc) H.logged
    H.explained

section turns
variable {op : Op} {o : Option Op} {a : α} (t : Turn ι)

/-- The places of the other cores stay. -/
theorem goto_others (S : SpinThreads ι Op σ α) (p : Place Op Fault σ α) (c : ι)
    (hc : c ≠ t.core) : (S.threads.goto t.core p).place c = S.threads.place c :=
  Threads.goto_place_of_ne _ p hc

/-- A core begins a call. -/
theorem Sound.begins (H : Sound k coreid prog I ok s₀ S) (hpc : S.pc t.core = .outside)
    (hplace : S.threads.place t.core = .idle) (hok : ok t.core op) :
    Sound k coreid prog I ok s₀ (S.step k coreid prog t (some op)) := by
  simp only [SpinThreads.step, hpc, hplace]
  have hstep : ((S.spin k).step coreid t).pc t.core = .lockOwner ∨
      ((S.spin k).step coreid t).pc t.core = .loadEx := by
    simp only [SpinCores.step, spin_pc, hpc, SpinCores.goto_pc_self]
    exact ite_eq_or_eq _ _ _
  have hlock : ((S.spin k).step coreid t).lock = (S.spin k).lock := by
    simp only [SpinCores.step, spin_pc, hpc, SpinCores.goto_lock]
  refine H.next t hlock.symm ?_ (goto_others t S _) (.inl rfl) H.inv (fun op' rest h => ?_) H.logged
    ((Threads.Step.call op hplace).explained H.explained)
  · rw [Threads.goto_place_self]
    rcases hstep with h | h <;> rw [h]
    · exact .lockOwner hok
    · exact .loadEx hok
  · rcases hstep with h' | h' <;> exact absurd (h.symm.trans h') (by decide)

/-- A core stores to the word of the lock, and may find that its look at it is stale. -/
theorem Sound.storesWord (H : Sound k coreid prog I ok s₀ S) (G : Guarded k coreid prog I ok)
    (hpc : S.pc t.core = .storeEx) (hplace : S.threads.place t.core = .waiting op)
    (hok : ok t.core op) : Sound k coreid prog I ok s₀ (S.step k coreid prog t o) := by
  have hX := H.exclusive
  simp only [SpinThreads.step, hpc, hplace]
  have hcases : (((S.spin k).step coreid t).pc t.core = .setOwner ∧
        ((S.spin k).step coreid t).lock = { k.get S.threads.data with word := 1 } ∧
          S.monitor t.core = true) ∨
      (((S.spin k).step coreid t).pc t.core = .loadEx ∧
        ((S.spin k).step coreid t).lock = (S.spin k).lock) := by
    simp only [SpinCores.step, spin_pc, hpc]
    split
    case isTrue h =>
      exact Or.inl ⟨SpinCores.goto_pc_self _ _ _, rfl, (Bool.and_eq_true_iff.mp h).1⟩
    case isFalse => exact Or.inr ⟨SpinCores.goto_pc_self _ _ _, rfl⟩
  rcases hcases with ⟨hset, hlock, hmon⟩ | ⟨hload, hlock⟩
  · -- the lock is taken only while no core holds it, so that no core is in its call
    have hnone : ∀ d, (S.pc d).holds = false := fun d => hX.not_holds hpc hmon
    rw [if_pos hset]
    refine H.next t ?_ ?_ (goto_others t S _) (.inr fun d _ => hnone d) (G.storeWord _ _ H.inv)
      (fun _ _ h => absurd (hset.symm.trans h) (by decide)) H.logged
      ((Threads.Step.enter hplace fun d hd => ?_).explained H.explained)
    · rw [hlock]
      exact G.get_storeWord _ _
    · rw [hset]
      change Matches k coreid prog ok t.core _ ((S.threads.goto t.core _).place t.core)
      rw [Threads.goto_place_self]
      exact .setOwner hok
    · have hholds := (H.coupled d).holds hd
      rw [hnone d] at hholds
      cases hholds
  · rw [if_neg (by rw [hload]; decide)]
    refine H.quiet t hlock ?_ (by rw [hload]; decide)
    rw [hload, hplace]
    exact .loadEx hok

/-- The core that has the word stores its number. -/
theorem Sound.storesOwner (H : Sound k coreid prog I ok s₀ S) (G : Guarded k coreid prog I ok)
    (hpc : S.pc t.core = .setOwner)
    (hplace : S.threads.place t.core = .inside op (owned k coreid prog t.core op))
    (hok : ok t.core op) : Sound k coreid prog I ok s₀ (S.step k coreid prog t o) := by
  simp only [SpinThreads.step, hpc, hplace]
  have hset : ((S.spin k).step coreid t).pc t.core = .inside := by
    simp only [SpinCores.step, spin_pc, hpc, SpinCores.goto_pc_self]
  have hlock : ((S.spin k).step coreid t).lock =
      { k.get S.threads.data with coreid := coreid t.core } := by
    simp only [SpinCores.step, spin_pc, hpc, SpinCores.goto_lock]
    rfl
  refine H.next t ?_ ?_ (goto_others t S _) (.inr (H.others (by rw [hpc]; rfl)))
    (G.storeOwner _ _ H.inv) (fun op' rest _ hin => ?_) H.logged
    ((Threads.Step.access hplace).explained H.explained)
  · rw [hlock]
    exact G.get_storeOwner _ _
  · rw [hset]
    change Matches k coreid prog ok t.core _ ((S.threads.goto t.core _).place t.core)
    rw [Threads.goto_place_self]
    exact .inside _ hok
  · change (S.threads.goto t.core _).place t.core = _ at hin
    rw [Threads.goto_place_self] at hin
    cases hin
    exact G.along _ _ _ hok (G.storeOwner _ _ H.inv)

/-- The core that holds the lock makes an access of its call. -/
theorem Sound.accesses (H : Sound k coreid prog I ok s₀ S) {change : σ → σ}
    {next : σ → Accesses Fault σ α} (hpc : S.pc t.core = .inside)
    (hplace : S.threads.place t.core = .inside op (.access change next)) (hok : ok t.core op) :
    Sound k coreid prog I ok s₀ (S.step k coreid prog t o) := by
  have hX := H.exclusive
  simp only [SpinThreads.step, hpc, hplace]
  obtain ⟨⟨hI, hlock⟩, hnext⟩ := H.along t.core op _ hpc hplace
  have hmon : (if (k.get (change S.threads.data)).word = (k.get S.threads.data).word then
      S.monitor else fun _ => false) = S.monitor := if_pos (by rw [hlock])
  rw [hmon]
  refine ⟨?_, fun c => ?_, hI, fun c op' rest hin hrest => ?_, H.logged,
    (Threads.Step.access hplace).explained H.explained⟩
  · rw [SpinThreads.spin]
    dsimp only
    rw [hlock]
    exact hX
  · by_cases hc : c = t.core
    · subst hc
      change Matches k coreid prog ok _ _ ((S.threads.goto t.core _).place t.core)
      rw [Threads.goto_place_self, hpc]
      exact .inside _ hok
    · change Matches k coreid prog ok _ _ ((S.threads.goto t.core _).place c)
      rw [Threads.goto_place_of_ne _ _ hc]
      exact H.coupled c
  · have hc : c = t.core := by
      by_contra hne
      have hno := H.others (c := t.core) (by rw [hpc]; rfl) c hne
      rw [show S.pc c = .inside from hin] at hno
      cases hno
    subst hc
    change (S.threads.goto t.core _).place t.core = _ at hrest
    rw [Threads.goto_place_self] at hrest
    cases hrest
    dsimp only
    rw [hlock]
    exact hnext

/-- The core that holds the lock gives it back. -/
theorem Sound.givesBack (H : Sound k coreid prog I ok s₀ S) (G : Guarded k coreid prog I ok)
    (hpc : S.pc t.core = .clear) (hplace : S.threads.place t.core = .inside op (.ret a))
    (hok : ok t.core op) : Sound k coreid prog I ok s₀ (S.step k coreid prog t o) := by
  simp only [SpinThreads.step, hpc, hplace]
  have hset : ((S.spin k).step coreid t).pc t.core = .outside := by
    simp only [SpinCores.step, spin_pc, hpc, SpinCores.goto_pc_self]
  have hlock : ((S.spin k).step coreid t).lock = { k.get S.threads.data with word := 0 } := by
    simp only [SpinCores.step, spin_pc, hpc, SpinCores.goto_lock]
    rfl
  refine H.next t ?_ ?_ (goto_others t S _) (.inr (H.others (by rw [hpc]; rfl)))
    (G.storeWord _ _ H.inv) (fun _ _ h => absurd (hset.symm.trans h) (by decide))
    (List.forall_mem_cons.mpr ⟨hok, H.logged⟩)
    ((Threads.Step.leave hplace).explained H.explained)
  · rw [hlock]
    exact G.get_storeWord _ _
  · rw [hset]
    change Matches k coreid prog ok t.core _ ((S.threads.goto t.core _).place t.core)
    rw [Threads.goto_place_self]
    exact .outside

end turns

/-- **One turn keeps the invariant.** -/
theorem Sound.step (H : Sound k coreid prog I ok s₀ S) (G : Guarded k coreid prog I ok)
    (t : Turn ι) {op : Option Op} (hop : ∀ o ∈ op, ok t.core o) :
    Sound k coreid prog I ok s₀ (S.step k coreid prog t op) := by
  have hcoupled := H.coupled t.core
  have hX := H.exclusive
  generalize hpc : S.pc t.core = pc at hcoupled
  generalize hplace : S.threads.place t.core = place at hcoupled
  cases hcoupled with
  | outside =>
      cases op with
      | none =>
          simp only [SpinThreads.step, hpc, hplace]
          exact H
      | some op => exact H.begins t hpc hplace (hop op rfl)
  | lockOwner hok =>
      simp only [SpinThreads.step, hpc, hplace]
      refine H.quiet t ?_ ?_ ?_
      all_goals simp only [SpinCores.step, spin_pc, hpc, SpinCores.goto_pc_self,
        SpinCores.goto_lock, hplace]
      · split
        · exact .alreadyHeld hok
        · exact .loadEx hok
      · split <;> decide
  | loadEx hok =>
      simp only [SpinThreads.step, hpc, hplace]
      refine H.quiet t ?_ ?_ ?_
      all_goals simp only [SpinCores.step, spin_pc, hpc, SpinCores.goto_pc_self,
        SpinCores.goto_lock, SpinCores.setMonitor_lock, hplace]
      · split
        · exact .loadEx hok
        · exact .storeEx hok
      · split <;> decide
  | storeEx hok => exact H.storesWord t G hpc hplace hok
  | alreadyHeld hok =>
      simp only [SpinThreads.step, hpc, hplace]
      refine H.quiet t ?_ ?_ ?_
      all_goals simp only [SpinCores.step, spin_pc, hpc, hplace]
      · exact .alreadyHeld hok
      · decide
  | setOwner hok => exact H.storesOwner t G hpc hplace hok
  | inside rest hok =>
      cases rest with
      | ret a =>
          simp only [SpinThreads.step, hpc, hplace]
          have hword := hX.word t.core (by rw [spin_pc, hpc]; rfl)
          refine H.quiet t ?_ ?_ ?_
          all_goals simp only [SpinCores.step, spin_pc, hpc, SpinCores.goto_pc_self,
            SpinCores.goto_lock, hplace, if_pos (SpinCores.lock_ne_zero hword)]
          · exact .unlockOwner a hok
          · decide
      | stop e =>
          simp only [SpinThreads.step, hpc, hplace]
          exact H
      | access change next => exact H.accesses t hpc hplace hok
  | unlockOwner a hok =>
      simp only [SpinThreads.step, hpc, hplace]
      have howner := hX.owner t.core (by rw [spin_pc, hpc]; rfl) (by simp [hpc])
      refine H.quiet t ?_ ?_ ?_
      all_goals simp only [SpinCores.step, spin_pc, hpc, SpinCores.goto_pc_self,
        SpinCores.goto_lock, hplace, if_pos howner]
      · exact .clear a hok
      · decide
  | clear a hok => exact H.givesBack t G hpc hplace hok

/-- **After every schedule** of such calls. -/
theorem Sound.run (H : Sound k coreid prog I ok s₀ S) (G : Guarded k coreid prog I ok)
    (sched : List (Turn ι × Option Op)) (hsched : ∀ t ∈ sched, ∀ o ∈ t.2, ok t.1.core o) :
    Sound k coreid prog I ok s₀ (S.run k coreid prog sched) :=
  List.foldlRecOn sched _ H fun _ hs t ht => hs.step G t.1 (hsched t ht)

end sound

end SpinThreads

/-! ## Accesses to the distributor -/

namespace GicdAccess

variable (isen : BitVec 32) (core : ℕ) (v : Fin ncpu) (a : GicdAccess)

/-- The access of `v` on the core `core`. -/
def exec : Exec Hyp ℤ := do
  modify (Hyp.onCore core)
  if a.wnr then vgicdWrite v a.offset a.val else vgicdRead isen v a.offset (some a.reg)

/-- Its `switch`. -/
def switch (vgicDist : ℕ) : Exec Hyp Bool :=
  if a.wnr then vgicdWriteReg v vgicDist a.offset a.val
  else vgicdReadReg isen v vgicDist a.offset (some a.reg)

/-- What it does under the lock, and what it returns then. -/
def body (vgicDist : ℕ) : Exec Hyp ℤ := do
  modify (Hyp.onCore core)
  let handled ← a.switch isen v vgicDist
  pure (if handled then 0 else -1)

end GicdAccess

/-- `vgic_dist->lock`, which lies in memory. -/
def distCell (vgicDist : ℕ) : LockCell Hyp where
  get s := distLock s.ram.mem vgicDist
  storeWord w s := s.withMem (writeLe s.ram.mem (vgicDist + 20) 4 w.toNat)
  storeOwner n s := s.withMem (writeLe s.ram.mem (vgicDist + 16) 4 n)

/-- The records are found by the same pointers. -/
structure SameGic (vgicDist : ℕ) (s s' : Hyp) : Prop where
  vms : s'.vms = s.vms
  vm : ∀ v, (s'.vcpus v).vm = (s.vcpus v).vm
  vgicCpu : ∀ v, (s'.vcpus v).vgicCpu = (s.vcpus v).vgicCpu
  ptr : Set.EqOn s'.ram.mem s.ram.mem (block (vgicDist + 8) 8)

section same
variable {vgicDist : ℕ} {s t u : Hyp} {v : Fin ncpu} {a : GicdAccess} {isen : BitVec 32}

theorem SameGic.refl (vgicDist : ℕ) (s : Hyp) : SameGic vgicDist s s :=
  ⟨rfl, fun _ => rfl, fun _ => rfl, fun _ _ => rfl⟩

theorem SameGic.trans (H : SameGic vgicDist s t) (H' : SameGic vgicDist t u) :
    SameGic vgicDist s u :=
  ⟨H'.vms.trans H.vms, fun v => (H'.vm v).trans (H.vm v),
    fun v => (H'.vgicCpu v).trans (H.vgicCpu v), H'.ptr.trans H.ptr⟩

/-- Only memory behind the pointer changes. -/
theorem SameGic.withMem {m : Mem} (h : Set.EqOn m s.ram.mem (block (vgicDist + 8) 8)) :
    SameGic vgicDist s (s.withMem m) :=
  ⟨rfl, fun _ => rfl, fun _ => rfl, h⟩

theorem SameGic.dist (H : SameGic vgicDist s t) (v : Fin ncpu) : t.dist v = s.dist v := by
  rw [Hyp.dist, Hyp.dist, H.vms, H.vm]

theorem SameGic.lookup (H : SameGic vgicDist s t) (hdist : s.dist v = vgicDist) (irq : ℕ) :
    t.lookup v irq = s.lookup v irq := by
  have hspis : t.spis v = s.spis v := by
    rw [Hyp.spis, Hyp.spis, H.dist, hdist]
    exact readLe_congr H.ptr
  rw [Hyp.lookup, Hyp.lookup, hspis, H.vgicCpu]

/-- An access stores to the same bytes. -/
theorem SameGic.keepsDist (H : SameGic vgicDist s t) (hdist : s.dist v = vgicDist)
    (h : a.KeepsDist v s) : a.KeepsDist v t := by
  intro hwnr L hL i hi hsel
  rw [RegLoop.addr, H.lookup hdist, H.dist]
  exact h hwnr L hL i hi hsel

/-- **The `switch` of an access** leaves the pointers and the lock alone, when the bytes that it
sets in records are none of these. -/
theorem GicdAccess.switch_runs (hvm : (s.vcpus v).vm ≠ 0) (hne : s.dist v ≠ 0)
    (hkeep : a.KeepsDist v s) : ∃ b t, a.switch isen v (s.dist v) s = .ok b t ∧
      SameGic (s.dist v) s t ∧ t.ram.core = s.ram.core ∧
        Set.EqOn t.ram.mem s.ram.mem (block (s.dist v + 16) 8) := by
  cases hwnr : a.wnr with
  | false =>
      have hrun : a.switch isen v (s.dist v) = vgicdReadReg isen v (s.dist v) a.offset
          (some a.reg) := if_neg (by rw [hwnr]; decide)
      rw [hrun, vgicdReadReg_eq hvm hne]
      cases gicdValue isen s v a.offset with
      | none => exact ⟨_, _, rfl, .refl _ _, rfl, fun _ _ => rfl⟩
      | some x =>
          have hset : ∀ w, ((s.setX v a.reg x).vcpus w).vm = (s.vcpus w).vm ∧
              ((s.setX v a.reg x).vcpus w).vgicCpu = (s.vcpus w).vgicCpu := by
            intro w
            simp only [Hyp.setX, Hyp.setVcpu]
            by_cases hw : w = v
            · subst hw
              rw [Function.update_self]
              exact ⟨rfl, rfl⟩
            · rw [Function.update_of_ne hw]
              exact ⟨rfl, rfl⟩
          exact ⟨_, _, rfl, ⟨rfl, fun w => (hset w).1, fun w => (hset w).2, fun _ _ => rfl⟩, rfl,
            fun _ _ => rfl⟩
  | true =>
      have hrun : a.switch isen v (s.dist v) = vgicdWriteReg v (s.dist v) a.offset a.val :=
        if_pos hwnr
      rw [hrun]
      cases hL : gicdLoop a.offset a.val with
      | some L =>
          have hout := hkeep hwnr L hL
          have hmem : Set.EqOn (L.after v s L.n).ram.mem s.ram.mem (block (s.dist v + 8) 16) := by
            intro x hx
            rw [RegLoop.after_mem]
            exact scatter_of_notMem fun i hi hsel heq => hout i hi hsel (heq ▸ hx)
          refine ⟨_, _, vgicdWriteReg_loop hL hvm hne hout.keepsPtr,
            ⟨rfl, fun _ => rfl, fun _ => rfl, hmem.mono (block_subset le_rfl (by omega))⟩, rfl,
            hmem.mono (block_subset (by omega) (by omega))⟩
      | none =>
          obtain ⟨b, hreg⟩ := @vgicdWriteReg_plain s v a.offset a.val hL
          have hmem : Set.EqOn (VgicDev.gicd.plain s v a.offset a.val) s.ram.mem
              (block (s.dist v + 8) 16) := by
            intro x hx
            rw [VgicDev.plain]
            split
            · refine writeLe_of_notMem ?_
              simp only [mem_block] at hx ⊢
              omega
            · rfl
          exact ⟨b, _, hreg, .withMem (hmem.mono (block_subset le_rfl (by omega))), rfl,
            hmem.mono (block_subset (by omega) (by omega))⟩

end same

/-! ## The lock in memory -/

section cell
variable {m m' : Mem} {a core : ℕ}

/-- The two stores that take the lock. -/
theorem setDistLock_heldBy (hcore : core < 2 ^ 31) : setDistLock m a (.heldBy core) =
    writeLe (writeLe m (a + 20) 4 1) (a + 16) 4 core := by
  have hid : (BitVec.ofInt 32 (Spinlock.heldBy core).coreid).toNat = core := by
    rw [Spinlock.heldBy, BitVec.ofInt_natCast, BitVec.toNat_ofNat]
    omega
  funext x
  rw [setDistLock, hid]
  simp only [writeLe]
  by_cases hword : a + 20 ≤ x ∧ x < a + 20 + 4
  · have hout : ¬ (a + 16 ≤ x ∧ x < a + 16 + 4) := by omega
    rw [if_pos hword, if_neg hout, if_pos hword]
    rfl
  · rw [if_neg hword, if_neg hword]

/-- The one that gives it back, as the core's number is there. -/
theorem setDistLock_leftBy_eq (hcore : core < 2 ^ 31)
    (h : Set.EqOn m (setDistLock m' a (.heldBy core)) (block (a + 16) 8)) :
    setDistLock m a (.leftBy core) = writeLe m (a + 20) 4 0 := by
  have hid : (BitVec.ofInt 32 (Spinlock.leftBy core).coreid).toNat = core := by
    rw [Spinlock.leftBy, BitVec.ofInt_natCast, BitVec.toNat_ofNat]
    omega
  funext x
  rw [setDistLock, hid]
  simp only [writeLe, word_leftBy]
  by_cases hword : a + 20 ≤ x ∧ x < a + 20 + 4
  · rw [if_pos hword, if_pos hword]
    rfl
  · rw [if_neg hword, if_neg hword]
    by_cases howner : a + 16 ≤ x ∧ x < a + 16 + 4
    · have hin : x ∈ block (a + 16) 8 := by
        rw [mem_block]
        omega
      have hold := h hin
      rw [setDistLock_heldBy hcore, writeLe, if_pos howner] at hold
      rw [if_pos howner, hold]
    · rw [if_neg howner]

/-- Locking is the store to `word` and the one to `coreid`. -/
theorem lockDist_eq {s : Hyp} {v : Fin ncpu} (hcore : core < 2 ^ 31)
    (hdist : (s.onCore core).dist v = a) :
    (s.onCore core).lockDist v =
      ((distCell a).storeOwner core ((distCell a).storeWord 1 s)).onCore core := by
  rw [Hyp.lockDist, hdist]
  change Hyp.withMem _ (setDistLock s.ram.mem a (.heldBy core)) = _
  rw [setDistLock_heldBy hcore]
  rfl

/-- Unlocking what this core holds is the store to `word`. -/
theorem unlockDist_eq {u : Hyp} {v : Fin ncpu} (hcore : core < 2 ^ 31) (hdist : u.dist v = a)
    (hu : u.ram.core = core)
    (hheld : Set.EqOn u.ram.mem (setDistLock m a (.heldBy core)) (block (a + 16) 8)) :
    u.unlockDist v = (distCell a).storeWord 0 u := by
  rw [Hyp.unlockDist, hdist, hu, setDistLock_leftBy_eq hcore hheld]
  rfl

theorem get_storeWord (w : BitVec 32) (s : Hyp) :
    (distCell a).get ((distCell a).storeWord w s) = { (distCell a).get s with word := w } := by
  have hid : readLe (writeLe s.ram.mem (a + 20) 4 w.toNat) (a + 16) 4 =
      readLe s.ram.mem (a + 16) 4 := readLe_writeLe_of_disjoint _ (by omega)
  have hword : readLe (writeLe s.ram.mem (a + 20) 4 w.toNat) (a + 20) 4 = w.toNat := by
    rw [readLe_writeLe]
    exact Nat.mod_eq_of_lt w.isLt
  simp only [distCell, Hyp.withMem_mem, distLock, hid, hword, BitVec.ofNat_toNat,
    BitVec.setWidth_eq]

theorem get_storeOwner (hcore : core < 2 ^ 31) (s : Hyp) :
    (distCell a).get ((distCell a).storeOwner core s) =
      { (distCell a).get s with coreid := core } := by
  have hid : readLe (writeLe s.ram.mem (a + 16) 4 core) (a + 16) 4 = core := by
    rw [readLe_writeLe]
    exact Nat.mod_eq_of_lt (by omega)
  have hword : readLe (writeLe s.ram.mem (a + 16) 4 core) (a + 20) 4 =
      readLe s.ram.mem (a + 20) 4 := readLe_writeLe_of_disjoint _ (by omega)
  have hint : (BitVec.ofNat 32 core).toInt = core := by
    have hnat : (BitVec.ofNat 32 core).toNat = core := by
      rw [BitVec.toNat_ofNat]
      omega
    rw [BitVec.toInt_eq_toNat_of_lt (by rw [hnat]; omega), hnat]
  simp only [distCell, Hyp.withMem_mem, distLock, hid, hword, hint]

end cell

/-! ## Accesses of several cores -/

section accesses
variable {ι : Type} (coreid : ι → ℕ) (vcpu : ι → Fin ncpu) (isen : ι → BitVec 32) (vgicDist : ℕ)

/-- **The single accesses** that the compiler divides the accesses of the cores into.  Together
they do what the `switch` does.  As long as the pointers are those of `s₀`, none of them stores to
the lock or to a pointer when the source does not. -/
structure Divided (s₀ : Hyp) (prog : ι → GicdAccess → Accesses Fault Hyp ℤ) : Prop where
  run : ∀ c a, (prog c a).run = a.body (isen c) (coreid c) (vcpu c) vgicDist
  along : ∀ c a s, a.KeepsDist (vcpu c) s₀ → SameGic vgicDist s₀ s →
    (prog c a).Along (fun s' => SameGic vgicDist s₀ s' ∧
      (distCell vgicDist).get s' = (distCell vgicDist).get s) s

/-- The cores run virtual CPUs of the machine with this distributor, whose lock is free. -/
structure GicdReady (s₀ : Hyp) : Prop where
  vm_ne : ∀ c, (s₀.vcpus (vcpu c)).vm ≠ 0
  dist : ∀ c, s₀.dist (vcpu c) = vgicDist
  dist_ne : vgicDist ≠ 0
  core : ∀ c, coreid c < 2 ^ 31
  lock_free : (distLock s₀.ram.mem vgicDist).word = 0

variable {coreid vcpu isen vgicDist} {s₀ s : Hyp} {prog : ι → GicdAccess → Accesses Fault Hyp ℤ}

variable (isen) in
/-- The `switch` of an access in a state with the pointers of `s₀`. -/
theorem GicdReady.switch_runs (R : GicdReady coreid vcpu vgicDist s₀) {a : GicdAccess} {c : ι}
    (hkeep : a.KeepsDist (vcpu c) s₀) (H : SameGic vgicDist s₀ s) :
    ∃ b t, a.switch (isen c) (vcpu c) vgicDist (s.onCore (coreid c)) = .ok b t ∧
      a.body (isen c) (coreid c) (vcpu c) vgicDist s = .ok (if b then 0 else -1) t ∧
      SameGic vgicDist s t ∧ t.ram.core = coreid c ∧
        Set.EqOn t.ram.mem s.ram.mem (block (vgicDist + 16) 8) := by
  have hdist : (s.onCore (coreid c)).dist (vcpu c) = vgicDist := (H.dist _).trans (R.dist c)
  have hkeep' : a.KeepsDist (vcpu c) (s.onCore (coreid c)) := H.keepsDist (R.dist c) hkeep
  have hvm : ((s.onCore (coreid c)).vcpus (vcpu c)).vm ≠ 0 := by
    rw [show ((s.onCore (coreid c)).vcpus (vcpu c)).vm = _ from H.vm _]
    exact R.vm_ne c
  obtain ⟨b, t, hrun, hsame, hcore, hlock⟩ :=
    @GicdAccess.switch_runs _ _ a (isen c) hvm (hdist ▸ R.dist_ne) hkeep'
  rw [hdist] at hrun hsame hlock
  have hbody : a.body (isen c) (coreid c) (vcpu c) vgicDist s = .ok (if b then 0 else -1) t := by
    change (a.switch (isen c) (vcpu c) vgicDist >>= fun handled => pure (if handled then 0 else -1))
      (s.onCore (coreid c)) = _
    exact bind_of_ok hrun
  exact ⟨b, t, hrun, hbody, ⟨hsame.vms, hsame.vm, hsame.vgicCpu, hsame.ptr⟩, hcore, hlock⟩

/-- Accesses that are divided into one each. -/
theorem GicdReady.atOnce (R : GicdReady coreid vcpu vgicDist s₀) :
    Divided coreid vcpu isen vgicDist s₀
      fun c a => .atOnce (a.body (isen c) (coreid c) (vcpu c) vgicDist) := by
  refine ⟨fun c a => Accesses.run_atOnce _, fun c a s hkeep H => ?_⟩
  obtain ⟨b, t, _, hbody, hsame, _, hlock⟩ := R.switch_runs isen hkeep H
  exact Accesses.along_atOnce hbody ⟨H.trans hsame, distLock_of_eqOn hlock⟩

/-- What an access and the stores of the lock leave. -/
theorem Divided.guarded (D : Divided coreid vcpu isen vgicDist s₀ prog)
    (R : GicdReady coreid vcpu vgicDist s₀) :
    SpinThreads.Guarded (distCell vgicDist) coreid prog (SameGic vgicDist s₀)
      fun c a => a.KeepsDist (vcpu c) s₀ where
  get_storeWord := get_storeWord
  get_storeOwner c := get_storeOwner (R.core c)
  storeWord w s H := H.trans <| .withMem fun x hx => writeLe_of_notMem <| by
    simp only [mem_block] at hx ⊢
    omega
  storeOwner c s H := H.trans <| .withMem fun x hx => writeLe_of_notMem <| by
    simp only [mem_block] at hx ⊢
    omega
  along c a s hkeep H := D.along c a s hkeep H

/-- **A call with the lock** is the whole access. -/
theorem Divided.exec (D : Divided coreid vcpu isen vgicDist s₀ prog)
    (R : GicdReady coreid vcpu vgicDist s₀) {c : ι} {a : GicdAccess} {rc : ℤ} {s' : Hyp}
    (hkeep : a.KeepsDist (vcpu c) s₀) (H : SameGic vgicDist s₀ s)
    (hfree : (distLock s.ram.mem vgicDist).word = 0)
    (hrun : lockedCall (fun _ => (distCell vgicDist).storeWord 1)
      (fun _ => (distCell vgicDist).storeWord 0)
      (SpinThreads.owned (distCell vgicDist) coreid prog) c a s = .ok rc s') :
    (SameGic vgicDist s₀ s' ∧ (distLock s'.ram.mem vgicDist).word = 0) ∧
      a.exec (isen c) (coreid c) (vcpu c) s = .ok rc s' := by
  obtain ⟨u, hcall, rfl⟩ := lockedCall_ok hrun
  have G := D.guarded R
  obtain ⟨w, hw⟩ : ∃ w, w = (distCell vgicDist).storeOwner (coreid c)
    ((distCell vgicDist).storeWord 1 s) := ⟨_, rfl⟩
  have hbody : a.body (isen c) (coreid c) (vcpu c) vgicDist w = .ok rc u := by
    rw [← D.run, hw]
    exact hcall
  have Hw : SameGic vgicDist s₀ w := hw ▸ G.storeOwner c _ (G.storeWord 1 s H)
  obtain ⟨b, t, hswitch, hrun', hsame, hcore, hlock⟩ := R.switch_runs isen hkeep Hw
  rw [hbody] at hrun'
  cases hrun'
  refine ⟨⟨G.storeWord 0 _ (Hw.trans hsame), ?_⟩, ?_⟩
  · exact congrArg Spinlock.word (get_storeWord 0 u)
  -- the same stores around the same `switch`
  obtain ⟨s₁, hs₁⟩ : ∃ s₁, s₁ = s.onCore (coreid c) := ⟨_, rfl⟩
  have hdist : s₁.dist (vcpu c) = vgicDist := hs₁ ▸ (H.dist _).trans (R.dist c)
  have F : VgicFree s₁ (vcpu c) := by
    refine ⟨?_, hdist ▸ R.dist_ne, hs₁ ▸ R.core c, ?_⟩
    · rw [hs₁, show ((s.onCore (coreid c)).vcpus (vcpu c)).vm = _ from H.vm _]
      exact R.vm_ne c
    · rw [hdist, hs₁]
      exact hfree
  have hmem : w.ram.mem = setDistLock s.ram.mem vgicDist (.heldBy (coreid c)) := by
    rw [hw, setDistLock_heldBy (R.core c)]
    rfl
  have hlocked : s₁.lockDist (vcpu c) = w.onCore (coreid c) := by
    rw [hs₁, hw]
    exact lockDist_eq (R.core c) (hs₁ ▸ hdist)
  have hudist : u.dist (vcpu c) = s₁.dist (vcpu c) := by
    rw [hdist, hsame.dist, Hw.dist, R.dist]
  have hkept : Set.EqOn u.ram.mem (s₁.lockDist (vcpu c)).ram.mem
      (block (s₁.dist (vcpu c) + 16) 8) := by
    rw [hlocked, hdist]
    exact hlock
  have hruns := withDistLock_runs F.core F.lock_free (hlocked ▸ hswitch) hudist
    (hcore.trans (by rw [hs₁]; rfl)) hkept
  have hleft : u.unlockDist (vcpu c) = (distCell vgicDist).storeWord 0 u :=
    unlockDist_eq (R.core c) (hudist.trans hdist) hcore (hmem ▸ hlock)
  rw [hleft, hdist] at hruns
  change (if a.wnr then vgicdWrite (vcpu c) a.offset a.val
    else vgicdRead (isen c) (vcpu c) a.offset (some a.reg) : Exec Hyp ℤ) (s.onCore (coreid c)) = _
  rw [← hs₁]
  cases hwnr : a.wnr with
  | false =>
      rw [if_neg Bool.false_ne_true, vgicdRead_eq F, hdist]
      simpa only [GicdAccess.switch, hwnr, Bool.false_eq_true, if_false] using hruns
  | true =>
      rw [if_pos rfl, vgicdWrite_eq F, hdist]
      simpa only [GicdAccess.switch, hwnr, if_true] using hruns

variable [DecidableEq ι]

/-- **Accesses of several cores to a distributor are sequential**, after every schedule, whatever
single accesses `prog` the compiler divided them into, as long as the bytes that they set in records
are neither the pointer to the records nor the lock.  Those that returned did so with what they
give one after another, in the order in which they gave the lock back.  While no core holds the
lock the state is the one they leave, and the lock is given back without an abort. -/
theorem gicd_accesses_atomic (R : GicdReady coreid vcpu vgicDist s₀)
    (D : Divided coreid vcpu isen vgicDist s₀ prog) (monitor : ι → Bool)
    (sched : List (Turn ι × Option GicdAccess))
    (hkeep : ∀ t ∈ sched, ∀ a ∈ t.2, a.KeepsDist (vcpu t.1.core) s₀) :
    let S := (SpinThreads.start monitor s₀).run (distCell vgicDist) coreid prog sched
    (∃ s, Sequential (fun c a => a.exec (isen c) (coreid c) (vcpu c)) s₀ S.threads.log s ∧
      ((∀ c, (S.pc c).holds = false) → S.threads.data = s)) ∧
    ∀ c, S.pc c ≠ .invalidUnlock := by
  intro S
  have H : SpinThreads.Sound (distCell vgicDist) coreid prog (SameGic vgicDist s₀)
      (fun c a => a.KeepsDist (vcpu c) s₀) s₀ S :=
    (SpinThreads.sound_start R.lock_free (.refl _ _) monitor).run (D.guarded R) sched hkeep
  obtain ⟨s, hcalls, _, hfree⟩ := H.explained.seq
  have hseq : Sequential (fun c a => a.exec (isen c) (coreid c) (vcpu c)) s₀ S.threads.log s := by
    have hcongr := @Sequential.congr _ _ _ _ _ _ (fun c a => a.exec (isen c) (coreid c) (vcpu c))
      _ _ _ (fun s => SameGic vgicDist s₀ s ∧ (distLock s.ram.mem vgicDist).word = 0)
      (fun c a => a.KeepsDist (vcpu c) s₀) hcalls ⟨.refl _ _, R.lock_free⟩ H.logged
    refine (hcongr ?_).2
    rintro c a s rc s' hok ⟨hsame, hfree⟩ hcall
    exact D.exec R hok hsame hfree hcall
  refine ⟨⟨s, hseq, fun hnone => hfree fun c hc => ?_⟩, H.exclusive.valid⟩
  have hholds := (H.coupled c).holds hc
  rw [hnone c] at hholds
  cases hholds

end accesses

/-- Two cores that access the distributor by turns. -/
def twoAccesses (a b : GicdAccess) : List (Turn (Fin 2) × Option GicdAccess) :=
  let c : Turn (Fin 2) := ⟨⟨0, Nat.two_pos⟩, true⟩
  let d : Turn (Fin 2) := ⟨⟨1, Nat.one_lt_two⟩, true⟩
  [(c, some a), (d, some b)] ++ (List.replicate 7 [(c, none), (d, none)]).flatten ++
    List.replicate 7 (d, none)

/-- Core 0 sets the priorities of the interrupts 40 to 43 while core 1 waits to read them. -/
theorem gicd_accesses_atomic_two : ∃ s, Sequential
    (fun c (a : GicdAccess) => a.exec 0 c.val (Fin.castLE (by decide) c)) (filledHyp 0 63)
    [⟨(1 : Fin 2), ⟨false, 0x428, 0, 5⟩, 0⟩, ⟨0, ⟨true, 0x428, 0x40302010, 0⟩, 0⟩] s := by
  have F : ∀ v, VgicFits (filledHyp 0 63) v 63 := fun v => filled_fits
  have R : GicdReady Fin.val (Fin.castLE (by decide : 2 ≤ ncpu)) 0x2000 (filledHyp 0 63) :=
    ⟨fun c => (F _).vm_ne, fun _ => filled_dist, by decide, fun c => c.isLt.trans (by decide),
      (F 0).lock_free⟩
  have D : Divided Fin.val (Fin.castLE (by decide : 2 ≤ ncpu)) (fun _ => 0) 0x2000
      (filledHyp 0 63) _ := R.atOnce
  obtain ⟨⟨s, hseq, _⟩, _⟩ := gicd_accesses_atomic R D (fun _ => false)
    (twoAccesses ⟨true, 0x428, 0x40302010, 0⟩ ⟨false, 0x428, 0, 5⟩)
    fun _ _ _ _ _ L _ => filled_keepsDist L
  exact ⟨s, hseq⟩

end Xhyper
