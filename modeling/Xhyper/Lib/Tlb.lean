import Mathlib.Data.Set.Basic
import Mathlib.Logic.Function.Basic

/-!
# Buffers of what was found

A system has a number of buffers, and each holds what a walk found at some time.  A buffer takes
what a walk finds, and loses what it has, at any moment; it does not notice when a step of the
system changes what a walk finds.  A step flushes some of the buffers.

A buffer that is in use holds only what a walk would find now, when every step either flushes it or
finds it in use before and changes nothing that is found.

## Main definitions

* `Buffers`, `Coherent` — the buffers, and that what one holds is found.
* `Step`, `Run` — steps of the system and of the buffers.
* `Run.coherent` — the invariant rule.
-/

namespace Tlb

variable {σ ι κ ν : Type} [DecidableEq ι] [DecidableEq κ]

/-- What each of the buffers has for a key. -/
abbrev Buffers (ι κ ν : Type) := ι → κ → Option ν

/-- What the buffer `i` has is found in the state `s`. -/
def Coherent (walk : σ → ι → κ → ν → Prop) (s : σ) (t : Buffers ι κ ν) (i : ι) : Prop :=
  ∀ k v, t i k = some v → walk s i k v

/-- A step of the system, which may depend on the buffers and flushes those of `flushed`, or one of
a buffer. -/
inductive Step (walk : σ → ι → κ → ν → Prop) (step : Buffers ι κ ν → σ → Set ι → σ → Prop) :
    σ → Buffers ι κ ν → σ → Buffers ι κ ν → Prop
  | system {s s' : σ} {t t' : Buffers ι κ ν} {flushed : Set ι} : step t s flushed s' →
      (∀ i ∈ flushed, ∀ k, t' i k = none) → (∀ i, i ∉ flushed → t' i = t i) →
      Step walk step s t s' t'
  | fill {s : σ} {t : Buffers ι κ ν} {i : ι} {k : κ} {v : ν} : walk s i k v →
      Step walk step s t s (Function.update t i (Function.update (t i) k (some v)))
  | lose {s : σ} {t : Buffers ι κ ν} {i : ι} {entries : κ → Option ν} :
      (∀ k v, entries k = some v → t i k = some v) →
      Step walk step s t s (Function.update t i entries)

/-- The steps from `s₀` with the buffers `t₀`. -/
inductive Run (walk : σ → ι → κ → ν → Prop) (step : Buffers ι κ ν → σ → Set ι → σ → Prop) (s₀ : σ)
    (t₀ : Buffers ι κ ν) : σ → Buffers ι κ ν → Prop
  | start : Run walk step s₀ t₀ s₀ t₀
  | step {s s' : σ} {t t' : Buffers ι κ ν} : Run walk step s₀ t₀ s t → Step walk step s t s' t' →
      Run walk step s₀ t₀ s' t'

section coherent
variable {walk : σ → ι → κ → ν → Prop} {step : Buffers ι κ ν → σ → Set ι → σ → Prop} {s s₀ : σ}
  {t t₀ : Buffers ι κ ν} {i : ι} {k : κ}

omit [DecidableEq ι] [DecidableEq κ] in
theorem Coherent.empty (h : ∀ k, t i k = none) : Coherent walk s t i := by
  intro k v hk
  rw [h k] at hk
  cases hk

omit [DecidableEq ι] [DecidableEq κ] in
/-- What is found is found still. -/
theorem Coherent.mono {s' : σ} {t' : Buffers ι κ ν} (h : Coherent walk s t i) (ht : t' i = t i)
    (hwalk : ∀ k v, walk s i k v → walk s' i k v) : Coherent walk s' t' i := fun k v hk =>
  hwalk k v (h k v (ht ▸ hk))

omit [DecidableEq κ] in
/-- A change in one buffer: what it has then, it had before or a walk finds it. -/
theorem Coherent.update {j : ι} {entries : κ → Option ν} (h : Coherent walk s t j)
    (hnew : ∀ k v, entries k = some v → t i k = some v ∨ walk s i k v) :
    Coherent walk s (Function.update t i entries) j := by
  intro k v hk
  by_cases hj : j = i
  · subst hj
    rw [Function.update_self] at hk
    rcases hnew k v hk with hold | hwalk
    · exact h k v hold
    · exact hwalk
  · rw [Function.update_of_ne hj] at hk
    exact h k v hk

/-- **The invariant rule.**  `I` is an invariant of the system as long as the buffers in use are
coherent, and then they stay so. -/
theorem Run.coherent {I : σ → Prop} {used : σ → ι → Prop} (hinit : I s₀)
    (hunused : ∀ i, ¬ used s₀ i)
    (hstep : ∀ s t flushed s', I s → (∀ i, used s i → Coherent walk s t i) →
      step t s flushed s' → I s' ∧ ∀ i, used s' i → i ∉ flushed →
        used s i ∧ ∀ k v, walk s i k v → walk s' i k v)
    (hrun : Run walk step s₀ t₀ s t) : I s ∧ ∀ i, used s i → Coherent walk s t i := by
  induction hrun with
  | start => exact ⟨hinit, fun i hi => absurd hi (hunused i)⟩
  | step _ hnext ih =>
      obtain ⟨hI, hcoherent⟩ := ih
      cases hnext with
      | @system _ _ _ flushed hs hflushed hkept =>
          obtain ⟨hI', hsame⟩ := hstep _ _ flushed _ hI hcoherent hs
          refine ⟨hI', fun i hi => ?_⟩
          by_cases hin : i ∈ flushed
          · exact .empty (hflushed i hin)
          · obtain ⟨hused, hwalk⟩ := hsame i hi hin
            exact (hcoherent i hused).mono (hkept i hin) hwalk
      | @fill _ i k w hwalk =>
          refine ⟨hI, fun j hj => (hcoherent j hj).update fun k' v hv => ?_⟩
          by_cases hkey : k' = k
          · subst hkey
            rw [Function.update_self] at hv
            cases hv
            exact Or.inr hwalk
          · rw [Function.update_of_ne hkey] at hv
            exact Or.inl hv
      | lose hless =>
          exact ⟨hI, fun j hj => (hcoherent j hj).update fun k v hv => Or.inl (hless k v hv)⟩

end coherent

end Tlb
