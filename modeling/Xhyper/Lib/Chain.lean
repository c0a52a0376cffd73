import Mathlib.Data.Nat.Notation
import Mathlib.Data.List.Nodup
import Mathlib.Data.List.Perm.Subperm

/-!
# Linked lists threaded through a store

A free list keeps its links inside the cells it lists.  `Chain next h l` says
that starting at `h` and following `next` visits exactly the addresses of `l` in
order and then reaches the null address `0`.  The store enters only through
`next`, so pushing and popping are lemmas about `next`, and a store change that
leaves the listed cells' links alone leaves the chain alone.

A chain determines its list, and hence has no repetition: an address visited
twice would have to be followed by two lists of different lengths.

## Main definitions

* `Chain next h l` — following `next` from `h` visits `l`.
* `Chain.pop`, `Chain.push` — the two ends of a free list's life.
* `Chain.nodup`, `Chain.length_lt` — a chain is acyclic, hence not too long.
-/

/-- Following `next` from `h` visits exactly `l` and then reaches `0`. -/
def Chain (next : ℕ → ℕ) : ℕ → List ℕ → Prop
  | h, [] => h = 0
  | h, p :: l => h = p ∧ p ≠ 0 ∧ Chain next (next p) l

namespace Chain

variable {next next' : ℕ → ℕ} {h p : ℕ} {l l' : List ℕ}

@[simp] theorem nil_iff : Chain next h [] ↔ h = 0 := Iff.rfl

@[simp] theorem cons_iff :
    Chain next h (p :: l) ↔ h = p ∧ p ≠ 0 ∧ Chain next (next p) l := Iff.rfl

/-- An empty chain starts at null, and only that one does. -/
theorem eq_nil_iff (H : Chain next h l) : l = [] ↔ h = 0 := by
  cases l with
  | nil => simpa using H
  | cons p l =>
      obtain ⟨rfl, hne, -⟩ := H
      simp [hne]

/-- A nonempty chain starts with its head, and the rest follows. -/
theorem pop (H : Chain next h l) (hh : h ≠ 0) :
    ∃ l', l = h :: l' ∧ Chain next (next h) l' := by
  cases l with
  | nil => exact absurd H hh
  | cons p l =>
      obtain ⟨rfl, -, hl⟩ := H
      exact ⟨l, rfl, hl⟩

/-- Only the links of the listed cells matter. -/
theorem congr (H : Chain next h l) (heq : ∀ p ∈ l, next' p = next p) : Chain next' h l := by
  induction l generalizing h with
  | nil => exact H
  | cons p l ih =>
      obtain ⟨rfl, hne, hl⟩ := H
      refine ⟨rfl, hne, ?_⟩
      rw [heq h List.mem_cons_self]
      exact ih hl fun q hq => heq q (List.mem_cons_of_mem _ hq)

/-- Put a cell in front: it links to the old head, and the old links stand. -/
theorem push (H : Chain next h l) (hp : p ≠ 0) (hlink : next' p = h)
    (heq : ∀ q ∈ l, next' q = next q) : Chain next' p (p :: l) :=
  ⟨rfl, hp, by rw [hlink]; exact H.congr heq⟩

theorem ne_zero (H : Chain next h l) : ∀ q ∈ l, q ≠ 0 := by
  induction l generalizing h with
  | nil => intro q hq; cases hq
  | cons p l ih =>
      obtain ⟨rfl, hne, hl⟩ := H
      intro q hq
      rcases List.mem_cons.mp hq with rfl | hq
      · exact hne
      · exact ih hl q hq

/-- A head determines its list. -/
theorem unique (H : Chain next h l) (H' : Chain next h l') : l = l' := by
  induction l generalizing h l' with
  | nil => exact ((eq_nil_iff H').mpr H).symm
  | cons p l ih =>
      obtain ⟨rfl, hne, hl⟩ := H
      obtain ⟨l₂, rfl, hl₂⟩ := pop H' hne
      rw [ih hl hl₂]

/-- Any listed address starts a chain of its own, no longer than the whole. -/
theorem suffix (H : Chain next h l) {q : ℕ} (hq : q ∈ l) :
    ∃ l', l'.length ≤ l.length ∧ Chain next q l' := by
  induction l generalizing h with
  | nil => cases hq
  | cons p l ih =>
      rcases List.mem_cons.mp hq with rfl | hq
      · exact ⟨q :: l, Nat.le_refl _, rfl, H.2.1, H.2.2⟩
      · obtain ⟨l', hlen, hl'⟩ := ih H.2.2 hq
        exact ⟨l', by simp only [List.length_cons]; omega, hl'⟩

/-- **A chain is acyclic.** -/
theorem nodup (H : Chain next h l) : l.Nodup := by
  induction l generalizing h with
  | nil => exact List.nodup_nil
  | cons p l ih =>
      obtain ⟨rfl, hne, hl⟩ := H
      refine List.nodup_cons.mpr ⟨fun hmem => ?_, ih hl⟩
      obtain ⟨l', hlen, hl'⟩ := suffix hl hmem
      have heq : l' = h :: l := unique hl' ⟨rfl, hne, hl⟩
      simp only [heq, List.length_cons] at hlen
      omega

/-- A chain has fewer cells than there are addresses. -/
theorem length_lt {N : ℕ} (H : Chain next h l) (hlt : ∀ p ∈ l, p < N) (hN : 0 < N) :
    l.length < N := by
  have hsub : l ⊆ List.range' 1 (N - 1) := by
    intro p hp
    have hne := H.ne_zero p hp
    have hp' := hlt p hp
    rw [List.mem_range'_1]
    omega
  have hle := (H.nodup.subperm hsub).length_le
  rw [List.length_range'] at hle
  omega

end Chain
