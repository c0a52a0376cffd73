import Xhyper.Base
import Xhyper.Lib.Numeral

/-!
# `print64`

A number is written into a buffer of 65 bytes from its end: the last digit first,
then the prefix, then the sign.  The buffer starts out zero and its last byte stays
zero, so the digits written are a C string from the cursor on.  The spaces of the
field go to the device before the string and after it.

The UART is the sequence of bytes written to its data register; it is taken to
drain its FIFO, so that the wait for room in `pl011_putc` ends.  A character pointer
is the bytes from where it points to the end of the object it points into, and a
read past that end is a stop.  An `int` is an integer kept in 32 bits: the sources
are built without optimisation, where a signed operation that overflows wraps.

## Main definitions

* `Console` — the device, and the arguments a function with `...` has left.
* `NumBuf` — the buffer and its cursor.
* `print64` — the number printer.
* `print64_runs` — what it prints.
-/

namespace Xhyper

open Memory Prog Numeral

/-- The value an `int` has after an operation whose exact result is `x`. -/
def int32 (x : ℤ) : ℤ := x.bmod (2 ^ 32)

theorem int32_of_bounds {x : ℤ} (h : -2 ^ 31 ≤ x) (h' : x < 2 ^ 31) : int32 x = x :=
  Int.bmod_eq_of_le (by omega) (by omega)

/-! ## The device -/

/-- An argument of a function with `...`: a value of 32 or 64 bits, or a pointer to
characters. -/
inductive VaArg
  | w32 (v : BitVec 32)
  | w64 (v : BitVec 64)
  | ptr (addr : BitVec 64) (bytes : List Byte)
  deriving DecidableEq

/-- What printing works on. -/
structure Console where
  /-- The bytes written to `PL011DR`, first to last. -/
  out : List Byte
  /-- The arguments `va_arg` has not taken. -/
  ap : List VaArg
  deriving DecidableEq

/-- The console after more bytes were sent. -/
def Console.print (s : Console) (bs : List Byte) : Console := { s with out := s.out ++ bs }

@[simp] theorem Console.out_print (s : Console) (bs : List Byte) :
    (s.print bs).out = s.out ++ bs := rfl

@[simp] theorem Console.ap_print (s : Console) (bs : List Byte) : (s.print bs).ap = s.ap := rfl

@[simp] theorem Console.print_nil (s : Console) : s.print [] = s := by simp [print]

@[simp] theorem Console.print_print (s : Console) (bs bs' : List Byte) :
    (s.print bs).print bs' = s.print (bs ++ bs') := by simp [print]

/-- `pl011_putc`. -/
def pl011Putc (c : Byte) : Exec Console Unit := modify fun s => s.print [c]

/-- `pl011_puts`. -/
def pl011Puts : List Byte → Exec Console Unit
  | [] => throw .outOfBounds
  | c :: s => if c = 0#8 then pure () else do
      pl011Putc c
      pl011Puts s

/-- `strlen`. -/
def strlen : List Byte → Exec Console ℕ
  | [] => throw .outOfBounds
  | c :: s => if c = 0#8 then pure 0 else do
      let len ← strlen s
      pure (len + 1)

section device
variable {Q : Unit → Console → Prop} {E : Fault → Console → Prop} {s : Console}

@[simp] theorem wp_pl011Putc (c : Byte) : wp (pl011Putc c) Q E s ↔ Q () (s.print [c]) := by
  simp [pl011Putc]

/-- A C string is sent up to its end. -/
theorem wp_pl011Puts {cs : List Byte} (h : 0#8 ∉ cs) (rest : List Byte) :
    wp (pl011Puts (cs ++ 0#8 :: rest)) Q E s ↔ Q () (s.print cs) := by
  induction cs generalizing s with
  | nil => simp [pl011Puts]
  | cons c cs ih =>
      obtain ⟨hc, hcs⟩ := List.ne_and_not_mem_of_not_mem_cons h
      simp [pl011Puts, Ne.symm hc, ih hcs]

theorem wp_strlen {Q : ℕ → Console → Prop} {cs : List Byte} (h : 0#8 ∉ cs) (rest : List Byte) :
    wp (strlen (cs ++ 0#8 :: rest)) Q E s ↔ Q cs.length s := by
  induction cs generalizing Q with
  | nil => simp [strlen]
  | cons c cs ih =>
      obtain ⟨hc, hcs⟩ := List.ne_and_not_mem_of_not_mem_cons h
      simp only [List.cons_append, strlen, Ne.symm hc, if_false, wp_bind, ih hcs, wp_pure,
        List.length_cons]

end device

/-! ## The buffer -/

/-- `buf` and `cur` of `print64`: a cursor into 65 bytes. -/
structure NumBuf where
  buf : Vector Byte 65
  cur : Fin 65

namespace NumBuf

/-- The zeroed buffer with the cursor at its last byte. -/
def empty : NumBuf := ⟨Vector.replicate 65 0#8, 64⟩

/-- `*--cur = c`, if the cursor is not at the start. -/
def push (b : NumBuf) (c : Byte) : Option NumBuf :=
  match b.cur with
  | ⟨0, _⟩ => none
  | ⟨i + 1, h⟩ => some ⟨b.buf.set i c (by omega), ⟨i, by omega⟩⟩

/-- The pointer `cur`. -/
def str (b : NumBuf) : List Byte := b.buf.toList.drop b.cur

theorem str_empty : empty.str = [0#8] := rfl

theorem length_str (b : NumBuf) : b.str.length = 65 - b.cur := by simp [str]

/-- With room before the cursor a push puts the character in front of the string. -/
theorem push_eq {b : NumBuf} (h : 0 < b.cur.val) (c : Byte) :
    ∃ b', b.push c = some b' ∧ b'.str = c :: b.str ∧ b'.cur.val + 1 = b.cur.val := by
  obtain ⟨buf, cur, hcur⟩ := b
  cases cur with
  | zero => exact absurd h (Nat.lt_irrefl 0)
  | succ i =>
      refine ⟨_, rfl, ?_, rfl⟩
      have hi : i < buf.toList.length := by simp; omega
      simp only [str, Vector.toList_set, List.drop_set, Nat.lt_irrefl, if_false, Nat.sub_self,
        List.drop_eq_getElem_cons hi, List.set_cons_zero]

theorem push_cur {b b' : NumBuf} {c : Byte} (h : b.push c = some b') :
    b'.cur.val < b.cur.val := by
  by_cases hb : 0 < b.cur.val
  · obtain ⟨b₁, hb₁, -, hcur⟩ := push_eq hb c
    rw [h, Option.some_inj] at hb₁
    rw [hb₁]
    omega
  · obtain ⟨buf, cur, hcur⟩ := b
    cases cur with
    | zero => cases h
    | succ i => exact absurd (Nat.succ_pos i) hb

end NumBuf

/-- The string the digits are taken from. -/
def hexDigits : List Byte :=
  ['0', '1', '2', '3', '4', '5', '6', '7', '8', '9', 'a', 'b', 'c', 'd', 'e', 'f'].map ch ++ [0#8]

theorem hexDigits_eq {d : ℕ} (h : d < 16) : hexDigits[d]? = some (digitChar d) := by
  revert d
  decide

/-- The division loop. -/
def putDigits (base : BitVec 64) (b : NumBuf) (unum : BitVec 64) : Option NumBuf := do
  let c ← hexDigits[(unum % base).toNat]?
  match _h : b.push c with
  | none => none
  | some b' =>
      if unum / base ≠ 0 then putDigits base b' (unum / base) else some b'
termination_by b.cur.val
decreasing_by exact NumBuf.push_cur _h

/-- One round of the loop. -/
theorem putDigits_round {base unum : BitVec 64} {b b' : NumBuf} {c : Byte}
    (hc : hexDigits[(unum % base).toNat]? = some c) (hpush : b.push c = some b') :
    putDigits base b unum =
      if unum / base ≠ 0 then putDigits base b' (unum / base) else some b' := by
  rw [putDigits]
  simp only [hc, Option.bind_eq_bind, Option.bind_some]
  split
  · rename_i hnone
    rw [hpush] at hnone
    cases hnone
  · rename_i b₁ hsome
    rw [hpush, Option.some_inj] at hsome
    rw [hsome]

/-- **The division loop writes the numeral**, if it has room for it. -/
theorem putDigits_eq {base : BitVec 64} (hb : 1 < base.toNat) (hb' : base.toNat ≤ 16) (n : ℕ) :
    ∀ (b : NumBuf) (unum : BitVec 64), (digits base.toNat unum.toNat).length = n →
      n ≤ b.cur.val → ∃ b', putDigits base b unum = some b' ∧
        b'.str = digits base.toNat unum.toNat ++ b.str ∧ b'.cur.val + n = b.cur.val := by
  induction n with
  | zero =>
      intro b unum h
      exact absurd (List.eq_nil_of_length_eq_zero h) (digits_ne_nil _ _)
  | succ n ih =>
      intro b unum h hroom
      have hc := hexDigits_eq ((Nat.mod_lt unum.toNat (Nat.zero_lt_of_lt hb)).trans_le hb')
      obtain ⟨b₁, hpush, hstr, hcur⟩ :=
        NumBuf.push_eq (b := b) (by omega) (digitChar (unum.toNat % base.toNat))
      rw [← BitVec.toNat_umod] at hc
      rw [putDigits_round hc (by simpa only [BitVec.toNat_umod] using hpush)]
      by_cases hlt : unum.toNat < base.toNat
      · have hzero : unum / base = 0 := by
          apply BitVec.eq_of_toNat_eq
          simp [Nat.div_eq_of_lt hlt]
        have hn : n = 0 := by simpa [digits_of_lt hlt] using h.symm
        refine ⟨b₁, by simp [hzero], ?_, by omega⟩
        rw [hstr, digits_of_lt hlt, Nat.mod_eq_of_lt hlt]
        rfl
      · have hdigits := digits_of_le hb (Nat.le_of_not_lt hlt)
        have hne : unum / base ≠ 0 := by
          intro hzero
          have hdiv := congrArg BitVec.toNat hzero
          rw [BitVec.toNat_udiv] at hdiv
          exact absurd hdiv (Nat.div_pos (Nat.le_of_not_lt hlt) (by omega)).ne'
        have hlen : (digits base.toNat (unum / base).toNat).length = n := by
          rw [hdigits, List.length_append] at h
          simpa using h
        obtain ⟨b', hrun, hstr', hcur'⟩ := ih b₁ (unum / base) hlen (by omega)
        refine ⟨b', by rw [if_pos hne, hrun], ?_, by omega⟩
        rw [hstr', hstr, hdigits, BitVec.toNat_udiv, List.append_assoc]
        rfl

/-! ## The number printer -/

/-- `PRINT_0X`. -/
def print0x : ℕ := 1 <<< 0

/-- The first part of `print64`, up to `strlen`: the string in the buffer, unless the
cursor has left it. -/
def putNum (num : BitVec 64) (base : ℤ) (sign : Bool) (opt : ℕ) : Option NumBuf := do
  let neg := sign && num.slt 0
  let unum := if neg then -(num + 1) + 1 else num
  let b ← putDigits (BitVec.ofInt 64 base) .empty unum
  let b ← if opt &&& print0x ≠ 0 then do
      let b ← b.push (ch 'x')
      b.push (ch '0')
    else some b
  if neg then b.push (ch '-') else some b

/-- `while (digit-- > len) pl011_putc(' ')`, and `digit` after it.  While `digit` is
above `len` the decrement does not wrap. -/
def padTo (len digit : ℤ) : Exec Console ℤ :=
  if len < digit then do
    pl011Putc (ch ' ')
    padTo len (digit - 1)
  else pure (int32 (digit - 1))
termination_by (digit - len).toNat

/-- `print64`. -/
def print64 (num : BitVec 64) (base : ℤ) (sign : Bool) (digit : ℤ) (opt : ℕ) :
    Exec Console Unit := do
  match putNum num base sign opt with
  | none => throw .outOfBounds
  | some b => do
      let len := int32 (← strlen b.str)
      let digit ← if 0 < digit then padTo len digit else pure digit
      pl011Puts b.str
      if digit < 0 then do
        let _ ← padTo len (int32 (-digit))

/-- The integer that `num` stands for. -/
def numVal (sign : Bool) (num : BitVec 64) : ℤ := if sign then num.toInt else num.toNat

theorem neg_eq (sign : Bool) (num : BitVec 64) :
    (sign && num.slt 0) = decide (numVal sign num < 0) := by
  cases sign
  · simp [numVal]
  · simp [numVal, BitVec.slt_eq_decide]

/-- The negation is right, the least number included. -/
theorem unum_eq (sign : Bool) (num : BitVec 64) :
    (if (sign && num.slt 0) = true then -(num + 1) + 1 else num).toNat =
      (numVal sign num).natAbs := by
  have hneg : -(num + 1) + 1 = -num := by bv_omega
  rw [neg_eq, hneg]
  have hint := BitVec.toInt_eq_toNat_cond num
  have hlt := num.isLt
  cases sign
  · simp only [numVal, Bool.false_eq_true, if_false, decide_eq_true_eq]
    rw [if_neg (by omega)]
    rfl
  · simp only [numVal, if_true, decide_eq_true_eq]
    by_cases h : num.toInt < 0
    · rw [if_pos h, BitVec.toNat_neg]
      omega
    · rw [if_neg h]
      omega

/-- **The buffer holds the numeral.** -/
theorem putNum_eq {base : ℤ} (hb : base = 10 ∨ base = 16) (num : BitVec 64) (sign : Bool)
    (opt : ℕ) : ∃ b, putNum num base sign opt = some b ∧
      b.str = numeral base.toNat (opt &&& print0x ≠ 0) (numVal sign num) ++ [0#8] := by
  have hbase : (BitVec.ofInt 64 base).toNat = base.toNat ∧ 10 ≤ base.toNat ∧
      base.toNat ≤ 16 := by
    rcases hb with rfl | rfl <;> decide
  obtain ⟨hof, h10, h16⟩ := hbase
  have hval := unum_eq sign num
  have hneg := neg_eq sign num
  have hlen : (digits base.toNat (numVal sign num).natAbs).length ≤ 20 := by
    refine length_digits_le (by omega) (by decide) ?_
    rw [← hval]
    exact (BitVec.isLt _).trans_le (le_trans (by decide) (Nat.pow_le_pow_left h10 20))
  rw [← hof, ← hval] at hlen
  obtain ⟨b₁, hb₁, hstr₁, hcur₁⟩ :=
    putDigits_eq (by omega) (by omega) _ NumBuf.empty _ rfl (hlen.trans (by decide))
  rw [hof, hval] at hstr₁
  have hroom : 44 ≤ b₁.cur.val := by
    have hcur : NumBuf.empty.cur.val = 64 := rfl
    omega
  have hsign : ∀ b₂ : NumBuf, 0 < b₂.cur.val → ∃ b,
      (if (sign && num.slt 0) = true then b₂.push (ch '-') else some b₂) = some b ∧
      b.str = (if numVal sign num < 0 then [ch '-'] else []) ++ b₂.str := by
    intro b₂ hcur
    rw [hneg]
    by_cases hz : numVal sign num < 0
    · obtain ⟨b, hpush, hstr, -⟩ := NumBuf.push_eq hcur (ch '-')
      exact ⟨b, by simp [hz, hpush], by simp [hz, hstr]⟩
    · exact ⟨b₂, by simp [hz], by simp [hz]⟩
  rw [putNum]
  simp only [hb₁, Option.bind_eq_bind, Option.bind_some]
  by_cases hopt : opt &&& print0x ≠ 0
  · obtain ⟨b₂, hpush₂, hstr₂, hcur₂⟩ := NumBuf.push_eq (b := b₁) (by omega) (ch 'x')
    obtain ⟨b₃, hpush₃, hstr₃, hcur₃⟩ := NumBuf.push_eq (b := b₂) (by omega) (ch '0')
    obtain ⟨b, hb, hstr⟩ := hsign b₃ (by omega)
    refine ⟨b, by rw [if_pos hopt, hpush₂, Option.bind_some, hpush₃, Option.bind_some, hb], ?_⟩
    simp [hstr, hstr₃, hstr₂, hstr₁, numeral, hopt, NumBuf.str_empty]
  · obtain ⟨b, hb, hstr⟩ := hsign b₁ (by omega)
    refine ⟨b, by rw [if_neg hopt, hb], ?_⟩
    simp [hstr, hstr₁, numeral, hopt, NumBuf.str_empty]

/-- The loop prints the spaces that are missing. -/
theorem wp_padTo {Q : ℤ → Console → Prop} {E : Fault → Console → Prop} {s : Console}
    (len digit : ℤ) : wp (padTo len digit) Q E s ↔
      Q (int32 (min digit len - 1)) (s.print (List.replicate (digit - len).toNat (ch ' '))) := by
  induction hn : (digit - len).toNat generalizing digit s with
  | zero =>
      have hle : ¬ len < digit := by omega
      rw [padTo, if_neg hle, min_eq_left (Int.not_lt.mp hle)]
      simp
  | succ n ih =>
      have hlt : len < digit := by omega
      rw [padTo, if_pos hlt, wp_bind, wp_pl011Putc, ih (digit - 1) (by omega),
        min_eq_right hlt.le, min_eq_right (by omega), Console.print_print]
      rfl

/-- The width of the field.  The least `int` is its own negation and asks for no
space on either side. -/
def fieldWidth (digit : ℤ) : ℤ := if digit = -2 ^ 31 then 0 else digit

/-- **What `print64` prints.** -/
theorem wp_print64 {Q : Unit → Console → Prop} {E : Fault → Console → Prop} {s : Console}
    {base : ℤ} (hb : base = 10 ∨ base = 16) (num : BitVec 64) (sign : Bool) {digit : ℤ}
    (hd : -2 ^ 31 ≤ digit) (opt : ℕ) :
    wp (print64 num base sign digit opt) Q E s ↔ Q () (s.print (padded (fieldWidth digit)
      (numeral base.toNat (opt &&& print0x ≠ 0) (numVal sign num)))) := by
  obtain ⟨b, hput, hstr⟩ := putNum_eq hb num sign opt
  have hbase : 1 < base.toNat ∧ base.toNat ≤ 16 := by rcases hb with rfl | rfl <;> decide
  have hnul := zero_notMem_numeral hbase.1 hbase.2 (opt &&& print0x ≠ 0) (numVal sign num)
  have hne := numeral_ne_nil base.toNat (opt &&& print0x ≠ 0) (numVal sign num)
  generalize numeral base.toNat (opt &&& print0x ≠ 0) (numVal sign num) = ns at hstr hnul hne ⊢
  have hpos := List.length_pos_of_ne_nil hne
  have hns : ns.length < 65 := by
    have hlen := b.length_str
    rw [hstr, List.length_append, List.length_singleton] at hlen
    omega
  have hint : int32 ns.length = ns.length := int32_of_bounds (by omega) (by omega)
  simp only [print64, hput, hstr, wp_bind, wp_strlen hnul, hint, wp_ite, wp_padTo, wp_pure,
    wp_pl011Puts hnul, Console.print_print]
  rcases lt_trichotomy digit 0 with hlt | rfl | hlt
  · -- the spaces follow
    have hfield : padded (fieldWidth digit) ns =
        ns ++ List.replicate (int32 (-digit) - ns.length).toNat (ch ' ') := by
      by_cases hmin : digit = -2 ^ 31
      · subst hmin
        simp [fieldWidth, padded, int32]
      · have hwrap : int32 (-digit) = -digit := int32_of_bounds (by omega) (by omega)
        have hleft : digit.toNat - ns.length = 0 := by omega
        have hright : (-digit).toNat - ns.length = (-digit - ns.length).toNat := by omega
        simp only [fieldWidth, hmin, if_false, padded, hwrap, hleft, hright, List.replicate_zero,
          List.nil_append]
    simp [hlt, hlt.le, not_lt.mpr, hfield]
  · simp [fieldWidth, padded]
  · -- the spaces come first, and the counter ends at zero or above
    have hmin : ¬ int32 (min digit ns.length - 1) < 0 := by
      rw [int32_of_bounds (by omega) (by omega)]
      omega
    have hfield : padded (fieldWidth digit) ns =
        List.replicate (digit - ns.length).toNat (ch ' ') ++ ns := by
      have hne : digit ≠ -2 ^ 31 := by omega
      have hleft : digit.toNat - ns.length = (digit - ns.length).toNat := by omega
      have hright : (-digit).toNat - ns.length = 0 := by omega
      simp only [fieldWidth, hne, if_false, padded, hleft, hright, List.replicate_zero,
        List.append_nil]
    simp [hlt, hmin, hfield]

/-- **`print64` prints the number it is given.**  It returns, so that the cursor has
stayed in the buffer, and what it sends is the numeral of the number between spaces:
as many as fill the field, to the left if the width is positive and to the right if
it is negative. -/
theorem print64_runs (num : BitVec 64) {base : ℤ} (hb : base = 10 ∨ base = 16) (sign : Bool)
    (opt : ℕ) {digit : ℤ} (hd : |digit| ≤ 2 ^ 31 - 1) (s : Console) :
    ∃ ns ds left right,
      print64 num base sign digit opt s = .ok () (s.print
        (List.replicate left (ch ' ') ++ ns ++ List.replicate right (ch ' '))) ∧
      ns = (if numVal sign num < 0 then [ch '-'] else []) ++
        (if opt &&& print0x ≠ 0 then [ch '0', ch 'x'] else []) ++ ds ∧
      Spells base.toNat (numVal sign num).natAbs ds ∧
      left + ns.length + right = max digit.natAbs ns.length ∧
      (digit ≤ 0 → left = 0) ∧ (0 ≤ digit → right = 0) := by
  have hbounds := abs_le.mp hd
  have hbase : 1 < base.toNat ∧ base.toNat ≤ 16 := by rcases hb with rfl | rfl <;> decide
  have hwidth : fieldWidth digit = digit := if_neg (by omega)
  let ns := numeral base.toNat (opt &&& print0x ≠ 0) (numVal sign num)
  have hwp : wp (print64 num base sign digit opt) (fun _ s' => s' = s.print (padded digit ns))
      (fun _ _ => False) s := by
    rw [wp_print64 hb num sign (by omega), hwidth]
  obtain ⟨_, s', hrun, hs⟩ := exists_ok_of_wp hwp
  have hlen := length_padded digit ns
  simp only [padded, List.length_append, List.length_replicate] at hlen
  refine ⟨ns, digits base.toNat (numVal sign num).natAbs, digit.toNat - ns.length,
    (-digit).toNat - ns.length, hs ▸ hrun, by simp [ns, numeral], spells_digits hbase.1 hbase.2 _,
    hlen, ?_, ?_⟩
  · omega
  · omega

/-- The least number, in a field that ends after it. -/
theorem print64_runs_least : ∃ ds right,
    print64 (BitVec.intMin 64) 10 true (-24) 0 ⟨[], []⟩ =
      .ok () ⟨ch '-' :: ds ++ List.replicate right (ch ' '), []⟩ ∧
    Spells 10 (2 ^ 63) ds := by
  obtain ⟨ns, ds, left, right, hrun, hns, hspells, -, hleft, -⟩ :=
    @print64_runs (BitVec.intMin 64) 10 (Or.inl rfl) true 0 (-24) (by decide) ⟨[], []⟩
  subst hns
  rw [hleft (by decide)] at hrun
  exact ⟨ds, right, hrun, hspells⟩

end Xhyper
