import Xhyper.Lib.Prog

/-!
# What a program does not see

`Oblivious f x` says that `x` does the same whether or not `f` was applied to the state before, and
carries the change along.  `Overwrites f x` says that after `x` has returned the change is gone.
Both follow from the way a program is built.

## Main definitions

* `Oblivious` — a program that a change of the state makes no difference to.
* `Overwrites` — a program after which the change does not show.
-/

namespace Prog

variable {ε σ α β : Type} {f : σ → σ}

/-- The outcome, with its state changed. -/
def mapState (f : σ → σ) : EStateM.Result ε σ α → EStateM.Result ε σ α
  | .ok a s => .ok a (f s)
  | .error e s => .error e (f s)

/-- `x` does the same after `f`. -/
def Oblivious (f : σ → σ) (x : EStateM ε σ α) : Prop := ∀ s, x (f s) = mapState f (x s)

/-- When `x` returns, nothing is left of `f`. -/
def Overwrites (f : σ → σ) (x : EStateM ε σ α) : Prop :=
  ∀ s a t, x (f s) = .ok a t ↔ x s = .ok a t

namespace Oblivious

protected theorem pure (a : α) : Oblivious f (pure a : EStateM ε σ α) := fun _ => rfl

protected theorem throw (e : ε) : Oblivious f (throw e : EStateM ε σ α) := fun _ => rfl

protected theorem modify {g : σ → σ} (h : ∀ s, g (f s) = f (g s)) :
    Oblivious f (modify g : EStateM ε σ PUnit) := fun s => congrArg (EStateM.Result.ok PUnit.unit) (h s)

/-- A program on a part of the state that `f` leaves alone. -/
protected theorem zoom {τ : Type} {l : Lens σ τ} (x : EStateM ε τ α)
    (hget : ∀ s, l.get (f s) = l.get s) (hset : ∀ t s, l.set t (f s) = f (l.set t s)) :
    Oblivious f (zoom l x) := by
  intro s
  simp only [Prog.zoom, hget]
  cases x (l.get s) with
  | ok a t => exact congrArg (EStateM.Result.ok a) (hset t s)
  | error e t => exact congrArg (EStateM.Result.error e) (hset t s)

protected theorem bind {x : EStateM ε σ α} {g : α → EStateM ε σ β} (hx : Oblivious f x)
    (hg : ∀ a, Oblivious f (g a)) : Oblivious f (x >>= g) := by
  intro s
  cases hrun : x s with
  | ok a t =>
      have hchanged : x (f s) = .ok a (f t) := by rw [hx s, hrun, mapState]
      rw [bind_of_ok hchanged, bind_of_ok hrun]
      exact hg a t
  | error e t =>
      have hchanged : x (f s) = .error e (f t) := by rw [hx s, hrun, mapState]
      rw [bind_of_error hchanged, bind_of_error hrun, mapState]

/-- A program may read of the state what `f` does not change. -/
theorem get_bind {g : σ → EStateM ε σ α} (hread : ∀ s, g (f s) = g s)
    (hg : ∀ s, Oblivious f (g s)) : Oblivious f (get >>= g) := by
  intro s
  have hchanged : (get >>= g : EStateM ε σ α) (f s) = g (f s) (f s) := rfl
  rw [hchanged, hread, hg s s]
  rfl

protected theorem ite {c : Prop} [Decidable c] {x y : EStateM ε σ α} (hx : Oblivious f x)
    (hy : Oblivious f y) : Oblivious f (if c then x else y) := by
  split
  · exact hx
  · exact hy

/-- What `x` ensures after `f` is what it ensures before, said of the changed states. -/
theorem wp_iff {x : EStateM ε σ α} (hx : Oblivious f x) {Q : α → σ → Prop} {E : ε → σ → Prop}
    {s : σ} : wp x Q E (f s) ↔ wp x (fun a t => Q a (f t)) (fun e t => E e (f t)) s := by
  rw [wp, wp, hx s]
  cases x s with
  | ok a t => rfl
  | error e t => rfl

/-- A program is oblivious when its weakest preconditions are. -/
theorem of_wp {x : EStateM ε σ α} (h : ∀ (s : σ) (Q : α → σ → Prop) (E : ε → σ → Prop),
    wp x (fun a t => Q a (f t)) (fun e t => E e (f t)) s → wp x Q E (f s)) : Oblivious f x := by
  intro s
  have hrun := h s (fun a t => mapState f (x s) = .ok a t) (fun e t => mapState f (x s) = .error e t)
  cases hx : x s with
  | ok a t =>
      rw [hx] at hrun
      have hwp := hrun (wp_of_ok hx rfl)
      cases hfx : x (f s) with
      | ok b u => exact (ok_of_wp hwp hfx).symm
      | error e u => exact (error_of_wp hwp hfx).symm
  | error e t =>
      rw [hx] at hrun
      have hwp := hrun (wp_of_error hx rfl)
      cases hfx : x (f s) with
      | ok b u => exact (ok_of_wp hwp hfx).symm
      | error e u => exact (error_of_wp hwp hfx).symm

theorem whileLoop {cond : β → Bool} {body : β → EStateM ε σ β} (h : ∀ b, Oblivious f (body b)) :
    ∀ (fuel : ℕ) (b : β), Oblivious f (whileLoop cond body fuel b) := by
  intro fuel
  induction fuel with
  | zero => exact fun b => .pure b
  | succ fuel ih => exact fun b => .ite ((h b).bind ih) (.pure b)

end Oblivious

namespace Overwrites

protected theorem throw (e : ε) : Overwrites f (throw e : EStateM ε σ α) := by
  intro s a t
  constructor
  · intro h
    cases h
  · intro h
    cases h

/-- What comes first does not see the change. -/
theorem after {x : EStateM ε σ α} {g : α → EStateM ε σ β} (hx : Oblivious f x)
    (hg : ∀ a, Overwrites f (g a)) : Overwrites f (x >>= g) := by
  intro s b u
  cases hrun : x s with
  | ok a t =>
      have hchanged : x (f s) = .ok a (f t) := by rw [hx s, hrun, mapState]
      rw [bind_of_ok hchanged, bind_of_ok hrun]
      exact hg a t b u
  | error e t =>
      have hchanged : x (f s) = .error e (f t) := by rw [hx s, hrun, mapState]
      rw [bind_of_error hchanged, bind_of_error hrun]
      constructor
      · intro h
        cases h
      · intro h
        cases h

/-- A program may read of the state what `f` does not change. -/
theorem get_bind {g : σ → EStateM ε σ α} (hread : ∀ s, g (f s) = g s)
    (hg : ∀ s, Overwrites f (g s)) : Overwrites f (get >>= g) := by
  intro s a t
  have hchanged : (get >>= g : EStateM ε σ α) (f s) = g (f s) (f s) := rfl
  rw [hchanged, hread]
  exact hg s s a t

/-- What comes later does not see it any more. -/
theorem before {x : EStateM ε σ α} (hx : Overwrites f x) (g : α → EStateM ε σ β) :
    Overwrites f (x >>= g) := by
  intro s b u
  constructor
  · intro h
    obtain ⟨a, t, hrun, hrest⟩ := ok_of_bind h
    exact (bind_of_ok ((hx s a t).mp hrun)).trans hrest
  · intro h
    obtain ⟨a, t, hrun, hrest⟩ := ok_of_bind h
    exact (bind_of_ok ((hx s a t).mpr hrun)).trans hrest

protected theorem ite {c : Prop} [Decidable c] {x y : EStateM ε σ α} (hx : c → Overwrites f x)
    (hy : ¬ c → Overwrites f y) : Overwrites f (if c then x else y) := by
  split
  · exact hx ‹c›
  · exact hy ‹¬ c›

/-- Two changes that are overwritten lead to the same outcome. -/
theorem eq {x : EStateM ε σ α} {f' : σ → σ} {s t t' : σ} {a a' : α} (hx : Overwrites f x)
    (hx' : Overwrites f' x) (h : x (f s) = .ok a t) (h' : x (f' s) = .ok a' t') : t = t' := by
  have hrun := (hx s a t).mp h
  rw [(hx' s a' t').mp h'] at hrun
  cases hrun
  rfl

end Overwrites

end Prog
