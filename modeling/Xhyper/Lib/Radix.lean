import Mathlib.Data.Nat.Notation
import Mathlib.Data.List.Induction

/-!
# Radix trees held in a store

A multi-level table is a graph: every node has, at each index, perhaps a child.
`child n i` is what the store says; `follow child r p` walks the indices `p` from
the node `r`.  Nothing is said of what a node is, so a node may be a page address
and `child` a read of the memory.

The store can change under the tree in three ways that matter.  A change that
keeps the children of the nodes a walk visits keeps the walk (`follow_congr`).
Hanging a childless new node at a free index adds exactly one walk
(`follow_grow`).  Both need that the walks of the tree reach distinct nodes
(`Distinct`), since otherwise one write would be seen at two places.

Walks are limited in length by `d`, the number of levels: below the last level a
node's entries mean something else.

## Main definitions

* `follow` — the node a path of indices leads to.
* `Distinct` — different paths of at most `d` indices lead to different nodes.
* `follow_congr`, `follow_grow`, `Distinct.grow` — the effect of a store change.
-/

namespace Radix

variable {ν ι : Type} {child child' : ν → ι → Option ν} {r : ν}

/-- The node that the path `p` of indices leads to from `r`. -/
def follow (child : ν → ι → Option ν) (r : ν) (p : List ι) : Option ν :=
  p.foldlM child r

@[simp] theorem follow_nil : follow child r [] = some r := rfl

theorem follow_cons (i : ι) (p : List ι) :
    follow child r (i :: p) = (child r i).bind fun t => follow child t p := rfl

theorem follow_append (p q : List ι) :
    follow child r (p ++ q) = (follow child r p).bind fun t => follow child t q := by
  simp only [follow, List.foldlM_append]
  rfl

/-- The last step of a walk. -/
theorem follow_snoc (p : List ι) (i : ι) :
    follow child r (p ++ [i]) = (follow child r p).bind fun t => child t i := by
  rw [follow_append]
  congr 1
  funext t
  rw [follow_cons]
  cases child t i <;> rfl

theorem follow_snoc_eq_some {p : List ι} {i : ι} {t : ν} :
    follow child r (p ++ [i]) = some t ↔
      ∃ u, follow child r p = some u ∧ child u i = some t := by
  rw [follow_snoc, Option.bind_eq_some_iff]

/-- A walk sees the children of the nodes before its end only. -/
theorem follow_congr {p : List ι}
    (h : ∀ q i s t, p = q ++ i :: s → follow child r q = some t → child' t i = child t i) :
    follow child' r p = follow child r p := by
  induction p using List.reverseRecOn with
  | nil => rfl
  | append_singleton p i ih =>
      have hp : follow child' r p = follow child r p := by
        refine ih fun q j s t hq ht => h q j (s ++ [i]) t ?_ ht
        simp [hq]
      rw [follow_snoc, follow_snoc, hp]
      cases ht : follow child r p with
      | none => rfl
      | some t => exact h p i [] t rfl ht

/-- Different paths of at most `d` indices satisfying `ok` lead to different
nodes. -/
def Distinct (child : ν → ι → Option ν) (r : ν) (ok : ι → Prop) (d : ℕ) : Prop :=
  ∀ p q t, p.length ≤ d → q.length ≤ d → (∀ i ∈ p, ok i) → (∀ i ∈ q, ok i) →
    follow child r p = some t → follow child r q = some t → p = q

/-! ## Hanging a new node -/

/-- The store changed in one place: index `i₀` of the node at the path `p₀`, which
was free, now leads to `n`, a node no walk reached, and `n` has no children. -/
structure Grown (child child' : ν → ι → Option ν) (r : ν) (ok : ι → Prop) (d : ℕ)
    (p₀ : List ι) (i₀ : ι) (n : ν) : Prop where
  /-- The node the new one hangs from. -/
  parent : ∃ t₀, follow child r p₀ = some t₀ ∧ child t₀ i₀ = none ∧ child' t₀ i₀ = some n
  path_ok : ∀ i ∈ p₀, ok i
  index_ok : ok i₀
  depth : p₀.length < d
  fresh : ∀ p t, p.length ≤ d → (∀ i ∈ p, ok i) → follow child r p = some t → t ≠ n
  childless : ∀ i, ok i → child' n i = none
  /-- Nothing else changed at the nodes of the tree. -/
  same : ∀ p t i, p.length < d → (∀ j ∈ p, ok j) → ok i → follow child r p = some t →
    (p ≠ p₀ ∨ i ≠ i₀) → child' t i = child t i

variable {ok : ι → Prop} {d : ℕ} {p₀ : List ι} {i₀ : ι} {n : ν}

/-- **Hanging a new node adds exactly one walk.** -/
theorem follow_grow (G : Grown child child' r ok d p₀ i₀ n) (p : List ι) :
    p.length ≤ d → (∀ i ∈ p, ok i) → ∀ t,
      (follow child' r p = some t ↔
        follow child r p = some t ∨ (p = p₀ ++ [i₀] ∧ t = n)) := by
  obtain ⟨t₀, hp₀, hfree, hnew⟩ := G.parent
  induction p using List.reverseRecOn with
  | nil =>
      intro _ _ t
      simp
  | append_singleton p i ih =>
      intro hlen hok t
      have hlt : p.length < d := by simpa [Nat.succ_le_iff] using hlen
      have hpok : ∀ j ∈ p, ok j := fun j hj => hok j (List.mem_append_left _ hj)
      have hiok : ok i := hok i (by simp)
      have hp := ih (Nat.le_of_lt hlt) hpok
      rw [follow_snoc_eq_some, follow_snoc_eq_some]
      constructor
      · rintro ⟨u, hu, hut⟩
        rcases (hp u).mp hu with hold | ⟨-, rfl⟩
        · by_cases hpi : p = p₀ ∧ i = i₀
          · obtain ⟨rfl, rfl⟩ := hpi
            rw [hp₀, Option.some_inj] at hold
            subst hold
            rw [hnew, Option.some_inj] at hut
            exact Or.inr ⟨rfl, hut.symm⟩
          · rw [G.same p u i hlt hpok hiok hold (not_and_or.mp hpi)] at hut
            exact Or.inl ⟨u, hold, hut⟩
        · rw [G.childless i hiok] at hut
          cases hut
      · rintro (⟨u, hold, hut⟩ | ⟨hpi, rfl⟩)
        · refine ⟨u, (hp u).mpr (Or.inl hold), ?_⟩
          by_cases hpi : p = p₀ ∧ i = i₀
          · obtain ⟨rfl, rfl⟩ := hpi
            rw [hp₀, Option.some_inj] at hold
            subst hold
            rw [hfree] at hut
            cases hut
          · rw [G.same p u i hlt hpok hiok hold (not_and_or.mp hpi)]
            exact hut
        · obtain ⟨rfl, rfl⟩ := List.append_singleton_inj.mp hpi
          exact ⟨t₀, (hp t₀).mpr (Or.inl hp₀), hnew⟩

/-- Distinctness is kept when a fresh node is hung. -/
theorem Distinct.grow (D : Distinct child r ok d) (G : Grown child child' r ok d p₀ i₀ n) :
    Distinct child' r ok d := by
  intro p q t hp hq hpok hqok hpt hqt
  rcases (follow_grow G p hp hpok t).mp hpt with hpt | ⟨rfl, rfl⟩
  · rcases (follow_grow G q hq hqok t).mp hqt with hqt | ⟨-, rfl⟩
    · exact D p q t hp hq hpok hqok hpt hqt
    · exact absurd rfl (G.fresh p t hp hpok hpt)
  · rcases (follow_grow G q hq hqok t).mp hqt with hqt | ⟨rfl, -⟩
    · exact absurd rfl (G.fresh q t hq hqok hqt)
    · rfl

end Radix
