import Xhyper.Lib.Memory
import Mathlib.Data.Nat.Digits.Lemmas

/-!
# Numerals

How a number is written in a base of at most sixteen, most significant digit
first.  `Spells b n ds` says what a string of digits must be to be the numeral of
`n`: digits of the base only, at least one of them, no zero in front unless it is
the whole string, and the value `n`.  `digits b n` is such a string, and the
division by the base takes its last digit off.

A numeral in a field is the numeral between spaces.  The sign of the width says on
which side the spaces stand.

## Main definitions

* `digitChar`, `digitVal` — a digit and its character.
* `Spells` — a string of digits is the numeral of a number.
* `digits` — the numeral.
* `numeral` — the numeral of an integer, with a sign and perhaps the prefix.
* `padded` — a string in a field.
-/

namespace Numeral

open Memory

/-! ## Characters -/

/-- The byte of an ASCII character. -/
def ch (c : Char) : Byte := BitVec.ofNat 8 c.toNat

/-- The character of a digit below sixteen. -/
def digitChar (d : ℕ) : Byte := BitVec.ofNat 8 (if d < 10 then 0x30 + d else 0x57 + d)

/-- The digit that a character stands for. -/
def digitVal (c : Byte) : ℕ := if c.toNat < 0x3a then c.toNat - 0x30 else c.toNat - 0x57

theorem digitVal_digitChar {d : ℕ} (h : d < 16) : digitVal (digitChar d) = d := by
  revert d
  decide

/-- A digit's character is that of zero for zero only. -/
theorem digitChar_eq_zero_iff {d : ℕ} (h : d < 16) : digitChar d = digitChar 0 ↔ d = 0 := by
  revert d
  decide

theorem digitChar_ne_zero {d : ℕ} (h : d < 16) : digitChar d ≠ 0#8 := by
  revert d
  decide

/-! ## Strings of digits -/

/-- The string `ds` is the numeral of `n` in base `b`. -/
structure Spells (b n : ℕ) (ds : List Byte) : Prop where
  ne_nil : ds ≠ []
  digit : ∀ c ∈ ds, ∃ d < b, c = digitChar d
  value : Nat.ofDigits b (ds.reverse.map digitVal) = n
  lead : ds.head? = some (digitChar 0) → ds.length = 1

/-- The numeral of `n` in base `b`. -/
def digits (b n : ℕ) : List Byte :=
  if n = 0 then [digitChar 0] else (b.digits n).reverse.map digitChar

section digits
variable {b n : ℕ}

theorem digits_of_lt (h : n < b) : digits b n = [digitChar n] := by
  by_cases hn : n = 0
  · simp [digits, hn]
  · simp [digits, hn, Nat.digits_of_lt b n hn h]

/-- The last digit is the remainder by the base. -/
theorem digits_of_le (hb : 1 < b) (h : b ≤ n) :
    digits b n = digits b (n / b) ++ [digitChar (n % b)] := by
  have hn : n ≠ 0 := by omega
  have hq : n / b ≠ 0 := (Nat.div_pos h (by omega)).ne'
  simp [digits, hn, hq, Nat.digits_eq_cons_digits_div hb hn]

theorem digits_ne_nil (b n : ℕ) : digits b n ≠ [] := by
  by_cases hn : n = 0
  · simp [digits, hn]
  · simpa [digits, hn] using Nat.digits_ne_nil_iff_ne_zero.mpr hn

theorem length_digits_le {k : ℕ} (hb : 1 < b) (hk : 0 < k) (h : n < b ^ k) :
    (digits b n).length ≤ k := by
  by_cases hn : n = 0
  · simpa [digits, hn] using Nat.succ_le_of_lt hk
  · simpa [digits, hn] using (Nat.digits_length_le_iff hb n).mpr h

/-- Every character is a digit of the base. -/
theorem mem_digits (hb : 1 < b) {c : Byte} (hc : c ∈ digits b n) : ∃ d < b, c = digitChar d := by
  by_cases hn : n = 0
  · simp only [digits, hn, if_true, List.mem_singleton] at hc
    exact ⟨0, by omega, hc⟩
  · simp only [digits, hn, if_false, List.mem_map, List.mem_reverse] at hc
    obtain ⟨d, hd, rfl⟩ := hc
    exact ⟨d, Nat.digits_lt_base hb hd, rfl⟩

/-- **The numeral spells the number.** -/
theorem spells_digits (hb : 1 < b) (hb' : b ≤ 16) (n : ℕ) : Spells b n (digits b n) := by
  refine ⟨digits_ne_nil b n, fun c hc => mem_digits hb hc, ?_, ?_⟩
  · by_cases hn : n = 0
    · simp [digits, hn, digitVal_digitChar]
    · have hval : (b.digits n).map (digitVal ∘ digitChar) = b.digits n :=
        (List.map_congr_left fun d hd => digitVal_digitChar
          ((Nat.digits_lt_base hb hd).trans_le hb')).trans (List.map_id _)
      simp [digits, hn, hval, Nat.ofDigits_digits]
  · intro hlead
    by_cases hn : n = 0
    · simp [digits, hn]
    · -- the first character is that of the last digit, which is not zero
      have hne : b.digits n ≠ [] := Nat.digits_ne_nil_iff_ne_zero.mpr hn
      simp only [digits, hn, if_false, List.head?_map, List.head?_reverse,
        List.getLast?_eq_some_getLast hne, Option.map_some, Option.some_inj] at hlead
      have hlt := (Nat.digits_lt_base hb (List.getLast_mem hne)).trans_le hb'
      exact absurd ((digitChar_eq_zero_iff hlt).mp hlead) (Nat.getLast_digit_ne_zero b hn)

end digits

/-! ## Signs and fields -/

/-- The numeral of an integer: the sign, the prefix if `pre`, and the digits. -/
def numeral (b : ℕ) (pre : Bool) (z : ℤ) : List Byte :=
  (if z < 0 then [ch '-'] else []) ++ (if pre then [ch '0', ch 'x'] else []) ++ digits b z.natAbs

/-- The string `ns` in a field of width `w`: spaces to the left if `w` is positive
and to the right if it is negative. -/
def padded (w : ℤ) (ns : List Byte) : List Byte :=
  List.replicate (w.toNat - ns.length) (ch ' ') ++ ns ++
    List.replicate ((-w).toNat - ns.length) (ch ' ')

theorem length_padded (w : ℤ) (ns : List Byte) :
    (padded w ns).length = max w.natAbs ns.length := by
  simp only [padded, List.length_append, List.length_replicate]
  omega

theorem numeral_ne_nil (b : ℕ) (pre : Bool) (z : ℤ) : numeral b pre z ≠ [] := by
  simp [numeral, digits_ne_nil]

/-- No character of a numeral ends a string. -/
theorem zero_notMem_numeral {b : ℕ} (hb : 1 < b) (hb' : b ≤ 16) (pre : Bool) (z : ℤ) :
    0#8 ∉ numeral b pre z := by
  have hdigits : 0#8 ∉ digits b z.natAbs := by
    intro h
    obtain ⟨d, hd, hzero⟩ := mem_digits hb h
    exact digitChar_ne_zero (hd.trans_le hb') hzero.symm
  have hsign : 0#8 ∉ (if z < 0 then [ch '-'] else []) := by split <;> decide
  have hpre : 0#8 ∉ (if pre then [ch '0', ch 'x'] else []) := by split <;> decide
  simp only [numeral, List.mem_append, not_or]
  exact ⟨⟨hsign, hpre⟩, hdigits⟩

end Numeral
