import Mathlib.Data.BitVec
import Mathlib.Data.Nat.Notation

/-!
# Fields packed in a word

A word of `w` bits holds fields of `n` bits side by side: field `k` has the bits from `k * n` on.
One field is set by clearing its bits and putting the new ones there (`put`).  Clearing the
others instead (`keep`) drops them and leaves the old bits of the field under the new ones.

## Main definitions

* `field`, `mask`, `place` — a field, its bits in the word, and a value put there.
* `put`, `keep` — the two ways of writing.
* `field_put`, `field_keep` — what they do to each field.
-/

namespace Fields

variable {w n : ℕ} {k j : ℕ}

/-- Field `k` of a word. -/
def field (n : ℕ) (v : BitVec w) (k : ℕ) : BitVec n := (v >>> (k * n)).setWidth n

/-- The bits of field `k`. -/
def mask (w n k : ℕ) : BitVec w := (BitVec.allOnes n).setWidth w <<< (k * n)

/-- The value `x` at the bits of field `k`. -/
def place (w : ℕ) (x : BitVec n) (k : ℕ) : BitVec w := x.setWidth w <<< (k * n)

/-- Set field `k`. -/
def put (v : BitVec w) (k : ℕ) (x : BitVec n) : BitVec w := v &&& ~~~mask w n k ||| place w x k

/-- Clear the fields other than `k`, and add bits to that one. -/
def keep (v : BitVec w) (k : ℕ) (x : BitVec n) : BitVec w := v &&& mask w n k ||| place w x k

theorem getLsbD_field (v : BitVec w) (k i : ℕ) :
    (field n v k).getLsbD i = (decide (i < n) && v.getLsbD (k * n + i)) := by
  simp [field]

/-- A bit is in the mask of its own field only. -/
theorem getLsbD_mask {i : ℕ} (hi : i < n) (hj : (j + 1) * n ≤ w) :
    (mask w n k).getLsbD (j * n + i) = decide (j = k) := by
  have hw : j * n + i < w := by
    rw [Nat.succ_mul] at hj
    omega
  rw [mask, BitVec.getLsbD_shiftLeft, BitVec.getLsbD_setWidth, BitVec.getLsbD_allOnes]
  rcases Nat.lt_trichotomy j k with hlt | heq | hlt
  · have hmul := Nat.mul_le_mul_right n (Nat.succ_le_of_lt hlt)
    rw [Nat.succ_mul] at hmul
    have hbelow : j * n + i < k * n := by omega
    simp [hbelow, Nat.ne_of_lt hlt]
  · subst heq
    have hsub : j * n + i - j * n = i := by omega
    simp only [hsub]
    simp [hw, hi]
    omega
  · have hmul := Nat.mul_le_mul_right n (Nat.succ_le_of_lt hlt)
    rw [Nat.succ_mul] at hmul
    have habove : ¬ j * n + i - k * n < n := by omega
    simp [habove, Nat.ne_of_gt hlt]

/-- The value that was put at a field is there. -/
theorem getLsbD_place_self {i : ℕ} (x : BitVec n) (hi : i < n) (hk : (k + 1) * n ≤ w) :
    (place w x k).getLsbD (k * n + i) = x.getLsbD i := by
  have hw : k * n + i < w := by
    rw [Nat.succ_mul] at hk
    omega
  have hsub : k * n + i - k * n = i := by omega
  have hle : ¬ k * n + i < k * n := by omega
  have hiw : i < w := by omega
  rw [place, BitVec.getLsbD_shiftLeft, BitVec.getLsbD_setWidth, hsub]
  simp only [hw, hle, hiw, decide_true, decide_false, Bool.not_false, Bool.true_and]

/-- The other fields of it are zero. -/
theorem getLsbD_place_of_ne {i : ℕ} (x : BitVec n) (hi : i < n) (hne : j ≠ k) :
    (place w x k).getLsbD (j * n + i) = false := by
  rw [place, BitVec.getLsbD_shiftLeft, BitVec.getLsbD_setWidth]
  rcases Nat.lt_or_gt_of_ne hne with hlt | hlt
  · have hmul := Nat.mul_le_mul_right n (Nat.succ_le_of_lt hlt)
    rw [Nat.succ_mul] at hmul
    have hbelow : j * n + i < k * n := by omega
    simp [hbelow]
  · have hmul := Nat.mul_le_mul_right n (Nat.succ_le_of_lt hlt)
    rw [Nat.succ_mul] at hmul
    have habove : n ≤ j * n + i - k * n := by omega
    simp [BitVec.getLsbD_of_ge x _ habove]

/-- **Setting a field** sets it and leaves the others. -/
theorem field_put (v : BitVec w) (x : BitVec n) (hj : (j + 1) * n ≤ w) :
    field n (put v k x) j = if j = k then x else field n v j := by
  apply BitVec.eq_of_getLsbD_eq
  intro i hi
  rw [getLsbD_field, put, BitVec.getLsbD_or, BitVec.getLsbD_and, BitVec.getLsbD_not,
    getLsbD_mask hi hj]
  by_cases hjk : j = k
  · subst hjk
    rw [getLsbD_place_self x hi hj, if_pos rfl]
    simp only [hi, decide_true, Bool.not_true, Bool.and_false, Bool.false_or, Bool.true_and]
  · have hw : j * n + i < w := by
      rw [Nat.succ_mul] at hj
      omega
    rw [getLsbD_place_of_ne x hi hjk, if_neg hjk, getLsbD_field]
    simp only [hjk, hw, decide_true, decide_false, Bool.not_false, Bool.and_true, Bool.or_false]

/-- **Keeping a field** adds to it and clears the others. -/
theorem field_keep (v : BitVec w) (x : BitVec n) (hj : (j + 1) * n ≤ w) :
    field n (keep v k x) j = if j = k then field n v j ||| x else 0#n := by
  apply BitVec.eq_of_getLsbD_eq
  intro i hi
  rw [getLsbD_field, keep, BitVec.getLsbD_or, BitVec.getLsbD_and, getLsbD_mask hi hj]
  by_cases hjk : j = k
  · subst hjk
    rw [getLsbD_place_self x hi hj, if_pos rfl, BitVec.getLsbD_or, getLsbD_field]
    simp only [hi, decide_true, Bool.and_true, Bool.true_and]
  · rw [getLsbD_place_of_ne x hi hjk, if_neg hjk]
    simp only [hjk, decide_false, Bool.and_false, Bool.or_false, BitVec.getLsbD_zero]

end Fields
