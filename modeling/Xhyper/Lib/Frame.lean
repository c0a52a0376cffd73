import Xhyper.Lib.Prog

/-!
# What a program leaves alone

`Keeps f x` says that `x` leaves what `f` reads of the state as it was, whether it returns or
stops.  It follows from the way the program is built, one rule for each way.

## Main definitions

* `Keeps` — a program that leaves a part of the state alone.
-/

namespace Prog

variable {ε σ τ ρ α β : Type}

/-- Whether it returns or stops, `x` leaves what `f` reads as it was. -/
def Keeps (f : σ → ρ) (x : EStateM ε σ α) : Prop :=
  ∀ s, wp x (fun _ s' => f s' = f s) (fun _ s' => f s' = f s) s

namespace Keeps

variable {f : σ → ρ} {x : EStateM ε σ α} {s s' : σ}

theorem of_ok {a : α} (h : Keeps f x) (hx : x s = .ok a s') : f s' = f s := by
  have hs := h s
  simpa only [wp, hx] using hs

protected theorem pure (a : α) : Keeps f (pure a : EStateM ε σ α) := fun _ => rfl

protected theorem throw (e : ε) : Keeps f (throw e : EStateM ε σ α) := fun _ => rfl

protected theorem get : Keeps f (get : EStateM ε σ σ) := fun _ => rfl

protected theorem modify {g : σ → σ} (h : ∀ s, f (g s) = f s) :
    Keeps f (modify g : EStateM ε σ PUnit) := h

protected theorem bind {g : α → EStateM ε σ β} (hx : Keeps f x) (hg : ∀ a, Keeps f (g a)) :
    Keeps f (x >>= g) := by
  intro s
  rw [wp_bind]
  refine wp_mono (hx s) (fun a s' hs => ?_) fun _ _ hs => hs
  exact wp_mono (hg a s') (fun _ _ h => h.trans hs) fun _ _ h => h.trans hs

/-- A program that reads the state first may use what it read. -/
theorem get_bind {g : σ → EStateM ε σ β} (h : ∀ s, wp (g s) (fun _ s' => f s' = f s)
    (fun _ s' => f s' = f s) s) : Keeps f (get >>= g) := by
  intro s
  rw [wp_bind, wp_get]
  exact h s

protected theorem ite {c : Prop} [Decidable c] {y : EStateM ε σ α} (hx : Keeps f x)
    (hy : Keeps f y) : Keeps f (if c then x else y) := by
  split
  · exact hx
  · exact hy

/-- A program on a part of the state that `f` does not read. -/
protected theorem zoom {l : Lens σ τ} (y : EStateM ε τ α) (h : ∀ t s, f (l.set t s) = f s) :
    Keeps f (zoom l y) := by
  intro s
  rw [wp_zoom]
  cases hy : y (l.get s) with
  | ok a t => exact wp_of_ok hy (h t s)
  | error e t => exact wp_of_error hy (h t s)

theorem whileLoop {cond : β → Bool} {body : β → EStateM ε σ β} (h : ∀ b, Keeps f (body b)) :
    ∀ (fuel : ℕ) (b : β), Keeps f (whileLoop cond body fuel b) := by
  intro fuel
  induction fuel with
  | zero => exact fun b => .pure b
  | succ fuel ih => exact fun b => .ite ((h b).bind ih) (.pure b)

theorem forRange {step start bound : ℕ} {body : ℕ → EStateM ε σ Unit}
    (h : ∀ p, Keeps f (body p)) : Keeps f (forRange step start bound body) :=
  whileLoop (fun p => (h p).bind fun _ => .pure _) _ _

end Keeps

end Prog
