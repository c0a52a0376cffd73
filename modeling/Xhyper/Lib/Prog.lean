import Mathlib.Data.Nat.Notation
import Mathlib.Tactic.Ring

/-!
# Programs that return or stop, and their weakest preconditions

A program is an `EStateM ε σ α`: it runs from a state and either returns a value
or stops with an `ε`, and in both cases leaves a state behind.  The state of a
stopped program is kept because what was written before a stop is part of what a
program does.

`wp x Q E s` says that running `x` from `s` ends in `Q` when it returns and in
`E` when it stops.  Total correctness is `E = fun _ _ => False`; partial
correctness is `E = fun _ _ => True`.  Since running is deterministic, one
predicate serves for both, and `wp_bind` is an equivalence.

## Main definitions

* `wp` — the weakest precondition of a program.
* `Lens`, `zoom` — run a program on a part of the state.
* `whileLoop`, `forRange` — bounded iteration, with an invariant rule each.
-/

namespace Prog

variable {ε σ τ α β : Type}

/-- Running `x` from `s` returns in `Q` or stops in `E`. -/
def wp (x : EStateM ε σ α) (Q : α → σ → Prop) (E : ε → σ → Prop) (s : σ) : Prop :=
  match x s with
  | .ok a s' => Q a s'
  | .error e s' => E e s'

/-! ## Reading a weakest precondition back -/

theorem wp_of_ok {x : EStateM ε σ α} {Q : α → σ → Prop} {E : ε → σ → Prop} {s s' : σ} {a : α}
    (h : x s = .ok a s') (hQ : Q a s') : wp x Q E s := by
  simpa only [wp, h] using hQ

theorem wp_of_error {x : EStateM ε σ α} {Q : α → σ → Prop} {E : ε → σ → Prop} {s s' : σ} {e : ε}
    (h : x s = .error e s') (hE : E e s') : wp x Q E s := by
  simpa only [wp, h] using hE

theorem ok_of_wp {x : EStateM ε σ α} {Q : α → σ → Prop} {E : ε → σ → Prop} {s s' : σ} {a : α}
    (h : wp x Q E s) (hx : x s = .ok a s') : Q a s' := by
  simpa only [wp, hx] using h

theorem error_of_wp {x : EStateM ε σ α} {Q : α → σ → Prop} {E : ε → σ → Prop} {s s' : σ} {e : ε}
    (h : wp x Q E s) (hx : x s = .error e s') : E e s' := by
  simpa only [wp, hx] using h

/-- A program whose stops are all excluded returns. -/
theorem returns_of_wp {x : EStateM ε σ α} {Q : α → σ → Prop} {E : ε → σ → Prop} {s : σ}
    (h : wp x Q E s) (hE : ∀ e s', ¬ E e s') : ∃ a s', x s = .ok a s' ∧ Q a s' := by
  cases hx : x s with
  | ok a s' => exact ⟨a, s', rfl, ok_of_wp h hx⟩
  | error e s' => exact absurd (error_of_wp h hx) (hE e s')

/-- A program that cannot stop returns. -/
theorem exists_ok_of_wp {x : EStateM ε σ α} {Q : α → σ → Prop} {s : σ}
    (h : wp x Q (fun _ _ => False) s) : ∃ a s', x s = .ok a s' ∧ Q a s' :=
  returns_of_wp h fun _ _ => id

/-- Weaken both postconditions. -/
theorem wp_mono {x : EStateM ε σ α} {Q Q' : α → σ → Prop} {E E' : ε → σ → Prop} {s : σ}
    (h : wp x Q E s) (hQ : ∀ a s', Q a s' → Q' a s') (hE : ∀ e s', E e s' → E' e s') :
    wp x Q' E' s := by
  cases hx : x s with
  | ok a s' => exact wp_of_ok hx (hQ a s' (ok_of_wp h hx))
  | error e s' => exact wp_of_error hx (hE e s' (error_of_wp h hx))

/-- Partial correctness asks nothing of a program that stops. -/
theorem wp_partial {x : EStateM ε σ α} {Q : α → σ → Prop} {s : σ} :
    wp x Q (fun _ _ => True) s ↔ ∀ a s', x s = .ok a s' → Q a s' := by
  cases hx : x s <;> simp [wp, hx]

theorem wp_and {x : EStateM ε σ α} {Q Q' : α → σ → Prop} {E : ε → σ → Prop} {s : σ}
    (h : wp x Q E s) (h' : wp x Q' E s) : wp x (fun a s' => Q a s' ∧ Q' a s') E s := by
  cases hx : x s with
  | ok a s' => exact wp_of_ok hx ⟨ok_of_wp h hx, ok_of_wp h' hx⟩
  | error e s' => exact wp_of_error hx (error_of_wp h hx)

/-- Two facts about one run. -/
theorem wp_both {x : EStateM ε σ α} {Q Q' : α → σ → Prop} {E E' : ε → σ → Prop} {s : σ}
    (h : wp x Q E s) (h' : wp x Q' E' s) :
    wp x (fun a s' => Q a s' ∧ Q' a s') (fun e s' => E e s' ∧ E' e s') s := by
  cases hx : x s with
  | ok a s' => exact wp_of_ok hx ⟨ok_of_wp h hx, ok_of_wp h' hx⟩
  | error e s' => exact wp_of_error hx ⟨error_of_wp h hx, error_of_wp h' hx⟩

/-- A program that returns, and that returns well whenever it does, returns well. -/
theorem wp_total {x : EStateM ε σ α} {Q Q' : α → σ → Prop} {E : ε → σ → Prop} {s : σ}
    (h : wp x Q (fun _ _ => False) s) (h' : wp x Q' (fun _ _ => True) s) :
    wp x (fun a s => Q a s ∧ Q' a s) E s := by
  obtain ⟨a, s', hs, hQ⟩ := exists_ok_of_wp h
  exact wp_of_ok hs ⟨hQ, ok_of_wp h' hs⟩

/-- Programs with the same weakest preconditions in a state run alike there. -/
theorem eq_of_wp {x y : EStateM ε σ α} {s : σ} (h : ∀ Q E, wp y Q E s → wp x Q E s) :
    x s = y s := by
  cases hy : y s with
  | ok a s' =>
      have hx := h (fun a s' => y s = .ok a s') (fun _ _ => False) (wp_of_ok hy hy)
      cases hxs : x s with
      | ok b t => rw [← hy, ← ok_of_wp hx hxs]
      | error e t => exact absurd (error_of_wp hx hxs) id
  | error e s' =>
      have hx := h (fun _ _ => False) (fun e s' => y s = .error e s') (wp_of_error hy hy)
      cases hxs : x s with
      | ok b t => exact absurd (ok_of_wp hx hxs) id
      | error e t => rw [← hy, ← error_of_wp hx hxs]

/-! ## Runs -/

theorem bind_of_ok {x : EStateM ε σ α} {f : α → EStateM ε σ β} {s s' : σ} {a : α}
    (h : x s = .ok a s') : (x >>= f) s = f a s' := by
  change EStateM.bind x f s = _
  simp only [EStateM.bind, h]

theorem bind_of_error {x : EStateM ε σ α} {f : α → EStateM ε σ β} {s s' : σ} {e : ε}
    (h : x s = .error e s') : (x >>= f) s = .error e s' := by
  change EStateM.bind x f s = _
  simp only [EStateM.bind, h]

/-- A program that returns has returned from its first part. -/
theorem ok_of_bind {x : EStateM ε σ α} {f : α → EStateM ε σ β} {s u : σ} {b : β}
    (h : (x >>= f) s = .ok b u) : ∃ a t, x s = .ok a t ∧ f a t = .ok b u := by
  cases hx : x s with
  | ok a t => exact ⟨a, t, rfl, (bind_of_ok hx).symm.trans h⟩
  | error e t =>
      rw [bind_of_error hx] at h
      cases h

/-- The weakest precondition in a state is about the run from it. -/
theorem wp_congr {x y : EStateM ε σ α} {Q : α → σ → Prop} {E : ε → σ → Prop} {s : σ}
    (h : x s = y s) : wp x Q E s ↔ wp y Q E s := by
  rw [wp, wp, h]

theorem wp_iff_of_ok {x : EStateM ε σ α} {Q : α → σ → Prop} {E : ε → σ → Prop} {s s' : σ} {a : α}
    (h : x s = .ok a s') : wp x Q E s ↔ Q a s' := by
  rw [wp, h]

/-! ## One rule for each way of building a program -/

section rules
variable {Q : α → σ → Prop} {E : ε → σ → Prop} {s : σ}

@[simp] theorem wp_pure (a : α) : wp (pure a : EStateM ε σ α) Q E s ↔ Q a s := Iff.rfl

@[simp] theorem wp_throw (e : ε) : wp (throw e : EStateM ε σ α) Q E s ↔ E e s := Iff.rfl

@[simp] theorem wp_get {Q : σ → σ → Prop} : wp (get : EStateM ε σ σ) Q E s ↔ Q s s := Iff.rfl

@[simp] theorem wp_set {Q : PUnit → σ → Prop} (t : σ) :
    wp (set t : EStateM ε σ PUnit) Q E s ↔ Q ⟨⟩ t := Iff.rfl

@[simp] theorem wp_modify {Q : PUnit → σ → Prop} (f : σ → σ) :
    wp (modify f : EStateM ε σ PUnit) Q E s ↔ Q ⟨⟩ (f s) := Iff.rfl

/-- Sequencing: the second program starts where the first returned. -/
@[simp] theorem wp_bind {Q : β → σ → Prop} (x : EStateM ε σ α) (f : α → EStateM ε σ β) :
    wp (x >>= f) Q E s ↔ wp x (fun a s' => wp (f a) Q E s') E s := by
  change (match EStateM.bind x f s with | .ok a s' => Q a s' | .error e s' => E e s') ↔ _
  unfold EStateM.bind
  cases hx : x s <;> simp [wp, hx]

/-- What follows does not depend on the first program. -/
theorem wp_bind_of_forall {Q : β → σ → Prop} {x : EStateM ε σ α} {f : α → EStateM ε σ β}
    (h : ∀ a s', wp (f a) Q (fun _ _ => True) s') : wp (x >>= f) Q (fun _ _ => True) s := by
  rw [wp_bind, wp]
  split
  · exact h _ _
  · trivial

@[simp] theorem wp_ite {c : Prop} [Decidable c] (x y : EStateM ε σ α) :
    wp (if c then x else y) Q E s ↔ (c → wp x Q E s) ∧ (¬ c → wp y Q E s) := by
  by_cases h : c <;> simp [h]

end rules

/-! ## A part of the state -/

/-- A part `τ` of a state `σ`, as a getter and a setter that agree. -/
structure Lens (σ τ : Type) where
  /-- Read the part. -/
  get : σ → τ
  /-- Replace the part. -/
  set : τ → σ → σ
  get_set : ∀ t s, get (set t s) = t
  set_get : ∀ s, set (get s) s = s
  set_set : ∀ t u s, set t (set u s) = set t s

attribute [simp] Lens.get_set Lens.set_get Lens.set_set

/-- Run a program on a part of the state; the rest is left as it is. -/
def zoom (l : Lens σ τ) (x : EStateM ε τ α) : EStateM ε σ α := fun s =>
  match x (l.get s) with
  | .ok a t => .ok a (l.set t s)
  | .error e t => .error e (l.set t s)

theorem zoom_of_ok {l : Lens σ τ} {x : EStateM ε τ α} {s : σ} {t : τ} {a : α}
    (h : x (l.get s) = .ok a t) : zoom l x s = .ok a (l.set t s) := by
  simp only [zoom, h]

@[simp] theorem wp_zoom (l : Lens σ τ) (x : EStateM ε τ α) {Q : α → σ → Prop}
    {E : ε → σ → Prop} {s : σ} :
    wp (zoom l x) Q E s ↔
      wp x (fun a t => Q a (l.set t s)) (fun e t => E e (l.set t s)) (l.get s) := by
  cases hx : x (l.get s) <;> simp [wp, zoom, hx]

/-! ## Iteration

A `while` loop takes a fuel argument that bounds the number of rounds.  The rule
`wp_whileLoop` asks for a measure below the fuel that every round decreases, so
what it proves is about the loop leaving through its own condition. -/

/-- `while (cond b) b = body b`, for at most `fuel` rounds. -/
def whileLoop (cond : β → Bool) (body : β → EStateM ε σ β) : ℕ → β → EStateM ε σ β
  | 0, b => pure b
  | fuel + 1, b => if cond b then body b >>= whileLoop cond body fuel else pure b

/-- **The invariant rule.**  `I` is kept by every round and `μ` decreases, so the
loop ends with `I` and a false condition. -/
theorem wp_whileLoop {cond : β → Bool} {body : β → EStateM ε σ β} {Q : β → σ → Prop}
    {E : ε → σ → Prop} (I : β → σ → Prop) (μ : β → ℕ)
    (hbody : ∀ b s, cond b = true → I b s →
      wp (body b) (fun b' s' => I b' s' ∧ μ b' < μ b) E s)
    (hexit : ∀ b s, cond b = false → I b s → Q b s) :
    ∀ (fuel : ℕ) (b : β) (s : σ), μ b < fuel → I b s →
      wp (whileLoop cond body fuel b) Q E s := by
  intro fuel
  induction fuel with
  | zero => intro b s hμ _; exact absurd hμ (Nat.not_lt_zero _)
  | succ fuel ih =>
      intro b s hμ hI
      cases hc : cond b with
      | false => simpa [whileLoop, hc] using hexit b s hc hI
      | true =>
          simp only [whileLoop, hc, if_true, wp_bind]
          refine wp_mono (hbody b s hc hI) ?_ (fun _ _ h => h)
          rintro b' s' ⟨hI', hlt⟩
          exact ih b' s' (by omega) hI'

/-- `for (p = start; p < bound; p += step) body p`, returning the last `p`. -/
def forRange (step start bound : ℕ) (body : ℕ → EStateM ε σ Unit) : EStateM ε σ ℕ :=
  whileLoop (fun p => decide (p < bound)) (fun p => do body p; pure (p + step))
    (bound - start + 1) start

/-- **The invariant rule for counting loops.**  The invariant speaks of the
number of rounds done. -/
theorem wp_forRange {step start bound : ℕ} {body : ℕ → EStateM ε σ Unit} {Q : ℕ → σ → Prop}
    {E : ε → σ → Prop} {s : σ} (I : ℕ → σ → Prop) (hstep : 0 < step)
    (hbody : ∀ k s, start + k * step < bound → I k s →
      wp (body (start + k * step)) (fun _ s' => I (k + 1) s') E s)
    (hinit : I 0 s)
    (hexit : ∀ k s, k = (bound - start + (step - 1)) / step → I k s → Q (start + k * step) s) :
    wp (forRange step start bound body) Q E s := by
  refine wp_whileLoop
    (fun p s => ∃ k, p = start + k * step ∧ (k = 0 ∨ start + (k - 1) * step < bound) ∧ I k s)
    (fun p => bound - p) ?_ ?_ (bound - start + 1) start s (by omega)
    ⟨0, by omega, Or.inl rfl, hinit⟩
  · rintro p s hp ⟨k, hpk, _, hI⟩
    subst hpk
    have hlt : start + k * step < bound := by simpa using hp
    simp only [wp_bind, wp_pure]
    refine wp_mono (hbody k s hlt hI) ?_ (fun _ _ h => h)
    intro _ s' hI'
    have hmul : (k + 1) * step = k * step + step := by ring
    exact ⟨⟨k + 1, by omega, Or.inr (by simpa using hlt), hI'⟩, by omega⟩
  · rintro p s hp ⟨k, hpk, hk, hI⟩
    subst hpk
    have hge : bound ≤ start + k * step := by simpa using hp
    refine hexit k s ?_ hI
    by_cases hpos : k = 0
    · have : bound - start + (step - 1) < step := by rw [hpos] at hge; omega
      rw [hpos, Nat.div_eq_of_lt this]
    · have hlt : start + (k - 1) * step < bound := by omega
      have hmul : k * step = (k - 1) * step + step := by
        obtain ⟨j, rfl⟩ := Nat.exists_eq_succ_of_ne_zero hpos
        simp only [Nat.succ_eq_add_one, Nat.add_sub_cancel]
        ring
      symm
      apply Nat.div_eq_of_lt_le
      · omega
      · have : (k + 1) * step = k * step + step := by ring
        omega

/-- A counting loop of one round. -/
theorem wp_forRange_once {step start bound : ℕ} {body : ℕ → EStateM ε σ Unit} {Q : ℕ → σ → Prop}
    {E : ε → σ → Prop} {s : σ} (hlt : start < bound) (hle : bound ≤ start + step) :
    wp (forRange step start bound body) Q E s ↔
      wp (body start) (fun _ s' => Q (start + step) s') E s := by
  obtain ⟨fuel, hfuel⟩ : ∃ fuel, bound - start + 1 = fuel + 1 + 1 := ⟨bound - start - 1, by omega⟩
  have hdone : ¬ start + step < bound := by omega
  rw [forRange, hfuel]
  simp only [whileLoop, hlt, hdone, decide_true, decide_false, if_true,
    Bool.false_eq_true, if_false, wp_bind, wp_pure]

/-- A loop that goes through known states. -/
theorem whileLoop_runs {n : ℕ} {cond : β → Bool} {body : β → EStateM ε σ β} {B : ℕ → β}
    {S : ℕ → σ} (hcond : ∀ k < n, cond (B k) = true) (hend : cond (B n) = false)
    (hbody : ∀ k < n, body (B k) (S k) = .ok (B (k + 1)) (S (k + 1))) :
    whileLoop cond body (n + 1) (B 0) (S 0) = .ok (B n) (S n) := by
  have hrest : ∀ j k, k + j = n →
      whileLoop cond body (j + 1) (B k) (S k) = .ok (B n) (S n) := by
    intro j
    induction j with
    | zero =>
        intro k hk
        obtain rfl : k = n := hk
        rw [whileLoop, hend]
        rfl
    | succ j ih =>
        intro k hk
        rw [whileLoop, hcond k (by omega), if_pos rfl, bind_of_ok (hbody k (by omega))]
        exact ih (k + 1) (by omega)
  exact hrest n 0 (Nat.zero_add n)

/-- A counting loop that goes through known states. -/
theorem forRange_runs {n : ℕ} {body : ℕ → EStateM ε σ Unit} {S : ℕ → σ}
    (h : ∀ k < n, body k (S k) = .ok () (S (k + 1))) : forRange 1 0 n body (S 0) = .ok n (S n) := by
  refine whileLoop_runs (B := fun k => k) (fun k hk => decide_eq_true hk) (by simp) ?_
  intro k hk
  rw [bind_of_ok (h k hk)]
  rfl

end Prog
