import Xhyper.Printf
import Mathlib.Data.List.TakeWhile

/-!
# `vprintf` and the end of the format

A format is read as items, each a literal character or a directive: `%`, a width,
and one character more that says what to print.  Every string without a NUL is a
sequence of items and, at its end, perhaps a directive whose last character is
missing (`reads_total`), in one way only (`Reads.unique`).

Where no directive is cut off, `vprintf` reads the format up to its NUL and prints
item by item (`wp_vprintf_items`).  Where one is, the NUL is taken for the character
of the directive: it is printed, the loop steps over it, and goes on reading behind
the string (`vprintf_dangling`).

## Main definitions

* `fetchDigit`, `vprintf` — the scanners.
* `Item`, `Reads` — the items of a format.
* `outputs` — what the items print.
* `vprintf_inside_iff` — when `vprintf` stays inside the format.
-/

namespace Xhyper

open Memory Prog Numeral

/-! ## The scanners -/

/-- `isdigit`. -/
def isdigit (c : Byte) : Bool := ch '0' ≤ c && c ≤ ch '9'

/-- The loop of `fetch_digit`: the pointer and `n` after it, unless the pointer has
left its object. -/
def scanDigits : List Byte → ℤ → Option (List Byte × ℤ)
  | [], _ => none
  | c :: fmt, n =>
      if isdigit c then scanDigits fmt (int32 (n * 10 + c.toNat - (ch '0').toNat))
      else some (c :: fmt, n)

/-- `fetch_digit`: the pointer behind the width, and the width. -/
def fetchDigit : List Byte → Option (List Byte × ℤ)
  | [] => none
  | c :: fmt =>
      if c = ch '-' then (scanDigits fmt 0).map fun (fmt, n) => (fmt, int32 (-n))
      else scanDigits (c :: fmt) 0

theorem scanDigits_length {fmt fmt' : List Byte} {n m : ℤ}
    (h : scanDigits fmt n = some (fmt', m)) : fmt'.length ≤ fmt.length := by
  induction fmt generalizing n with
  | nil => cases h
  | cons c fmt ih =>
      rw [scanDigits] at h
      split at h
      · exact (ih h).trans (Nat.le_succ _)
      · cases h
        rfl

theorem fetchDigit_length {fmt fmt' : List Byte} {n : ℤ}
    (h : fetchDigit fmt = some (fmt', n)) : fmt'.length ≤ fmt.length := by
  cases fmt with
  | nil => cases h
  | cons c fmt =>
      rw [fetchDigit] at h
      split at h
      · rw [Option.map_eq_some_iff] at h
        obtain ⟨⟨_, m⟩, hscan, heq⟩ := h
        cases heq
        exact (scanDigits_length hscan).trans (Nat.le_succ _)
      · exact scanDigits_length h

/-! ## Conversions -/

/-- The conversions that take an argument. -/
inductive Conv
  | d | u | x | p | c | s
  deriving DecidableEq

/-- The `case` labels of the conversions. -/
def Conv.ofChar (c : Byte) : Option Conv :=
  if c = ch 'd' then some .d
  else if c = ch 'u' then some .u
  else if c = ch 'x' then some .x
  else if c = ch 'p' then some .p
  else if c = ch 'c' then some .c
  else if c = ch 's' then some .s
  else none

/-- An argument of 32 bits. -/
def VaArg.w32? : VaArg → Option (BitVec 32)
  | .w32 v => some v
  | _ => none

/-- An argument of 64 bits. -/
def VaArg.w64? : VaArg → Option (BitVec 64)
  | .w64 v => some v
  | _ => none

/-- A pointer argument. -/
def VaArg.ptr? : VaArg → Option (BitVec 64 × List Byte)
  | .ptr addr bytes => some (addr, bytes)
  | _ => none

/-- `va_arg(ap, type)`.  An argument of another type, or none, has no meaning. -/
def vaArg {α : Type} (type : VaArg → Option α) : Exec Console α := do
  match (← get).ap with
  | [] => throw .outOfBounds
  | a :: ap =>
      match type a with
      | none => throw .outOfBounds
      | some v => do
          modify fun s => { s with ap := ap }
          pure v

/-- `"(null)"`. -/
def nullStr : List Byte := ['(', 'n', 'u', 'l', 'l', ')'].map ch

/-- The `switch` of `vprintf`. -/
def convert (c : Byte) (digit : ℤ) : Exec Console Unit :=
  match Conv.ofChar c with
  | some .d => do
      let v ← vaArg VaArg.w32?
      print64 (v.signExtend 64) 10 true digit 0
  | some .u => do
      let v ← vaArg VaArg.w32?
      print64 (v.setWidth 64) 10 false digit 0
  | some .x => do
      let v ← vaArg VaArg.w64?
      print64 v 16 false digit 0
  | some .p => do
      let p ← vaArg VaArg.ptr?
      print64 p.1 16 false digit print0x
  | some .c => do
      let v ← vaArg VaArg.w32?
      pl011Putc (v.setWidth 8)
  | some .s => do
      let s ← vaArg VaArg.ptr?
      pl011Puts (if s.1 = 0 then nullStr ++ [0#8] else s.2)
  | none =>
      if c = ch '%' then pl011Putc (ch '%')
      else do
        pl011Putc (ch '%')
        pl011Putc c

/-- `vprintf`, with the format as the bytes from `fmt` to the end of its object. -/
def vprintf : List Byte → Exec Console Unit
  | [] => throw .outOfBounds
  | c :: fmt =>
      if c = 0#8 then pure ()
      else if c = ch '%' then
        match _h : fetchDigit fmt with
        | some (c :: fmt', digit) => do
            convert c digit
            vprintf fmt'
        | _ => throw .outOfBounds
      else do
        pl011Putc c
        vprintf fmt
termination_by fmt => fmt.length
decreasing_by
  · have hlen := fetchDigit_length _h
    simp only [List.length_cons] at hlen ⊢
    omega
  · simp

/-! ## The items of a format -/

/-- A piece of a format: a literal character, or a directive with its width and the
character that ends it. -/
inductive Item
  | lit (c : Byte)
  | dir (minus : Bool) (width : List Byte) (c : Byte)
  deriving DecidableEq

/-- The sign of a width. -/
def sgn (minus : Bool) : List Byte := if minus then [ch '-'] else []

/-- The characters of a piece. -/
def Item.text : Item → List Byte
  | .lit c => [c]
  | .dir minus width c => ch '%' :: (sgn minus ++ width ++ [c])

/-- Characters of a width, and behind them one that is not. -/
structure IsWidth (minus : Bool) (width : List Byte) (c : Byte) : Prop where
  digit : ∀ d ∈ width, isdigit d = true
  stop : isdigit c = false
  minus : minus = false → width = [] → c ≠ ch '-'

/-- Pieces as they stand in a format. -/
def Item.WF : Item → Prop
  | .lit c => c ≠ 0#8 ∧ c ≠ ch '%'
  | .dir minus width c => IsWidth minus width c ∧ c ≠ 0#8

/-- What the end of a format leaves over: nothing, or a directive without the
character that ends it. -/
def Cut (tail : List Byte) : Prop :=
  tail = [] ∨ ∃ minus width, (∀ d ∈ width, isdigit d = true) ∧ tail = ch '%' :: (sgn minus ++ width)

/-- The format `fmt` is the pieces `items` and then `tail`. -/
structure Reads (fmt : List Byte) (items : List Item) (tail : List Byte) : Prop where
  text : fmt = items.flatMap Item.text ++ tail
  wf : ∀ it ∈ items, it.WF
  cut : Cut tail

/-- A format whose directives all have the character that ends them. -/
def Complete (fmt : List Byte) : Prop := ∃ items, Reads fmt items []

/-- The number that the characters of a width spell. -/
def decimal (width : List Byte) : ℤ := width.foldl (fun n d => n * 10 + digitVal d) 0

/-- The width that a directive asks for. -/
def widthOf (minus : Bool) (width : List Byte) : ℤ :=
  int32 (if minus then -decimal width else decimal width)

theorem digitVal_of_isdigit {d : Byte} (h : isdigit d = true) :
    (digitVal d : ℤ) = d.toNat - (ch '0').toNat := by
  have hlow : (ch '0').toNat = 48 := rfl
  have hhigh : (ch '9').toNat = 57 := rfl
  simp only [isdigit, Bool.and_eq_true, decide_eq_true_eq, BitVec.le_def, hlow, hhigh] at h
  rw [digitVal, if_pos (by omega), hlow]
  omega

theorem isdigit_minus : isdigit (ch '-') = false := by decide

/-- A digit read onto a wrapped number. -/
theorem int32_mul_add (n k : ℤ) : int32 (int32 n * 10 + k) = int32 (n * 10 + k) := by
  simp only [int32, Int.bmod_def]
  omega

theorem scanDigits_eq {width : List Byte} {c : Byte} (rest : List Byte)
    (hw : ∀ d ∈ width, isdigit d = true) (hc : isdigit c = false) (n : ℤ) :
    scanDigits (width ++ c :: rest) (int32 n) =
      some (c :: rest, int32 (width.foldl (fun n d => n * 10 + digitVal d) n)) := by
  induction width generalizing n with
  | nil => simp [scanDigits, hc]
  | cons d width ih =>
      obtain ⟨hd, hwidth⟩ := List.forall_mem_cons.mp hw
      rw [List.cons_append, scanDigits, if_pos hd, add_sub_assoc, ← digitVal_of_isdigit hd,
        int32_mul_add, ih hwidth]
      rfl

/-- **The scanner of the width** stops at the character behind it. -/
theorem fetchDigit_eq {minus : Bool} {width : List Byte} {c : Byte} (W : IsWidth minus width c)
    (rest : List Byte) :
    fetchDigit (sgn minus ++ width ++ c :: rest) = some (c :: rest, widthOf minus width) := by
  have hscan : scanDigits (width ++ c :: rest) 0 = some (c :: rest, int32 (decimal width)) :=
    scanDigits_eq rest W.digit W.stop 0
  cases minus with
  | true =>
      have hneg : int32 (-int32 (decimal width)) = int32 (-decimal width) := Int.bmod_neg_bmod
      simp [sgn, fetchDigit, hscan, hneg, widthOf]
  | false =>
      have hhead : ∀ e fmt, width ++ c :: rest = e :: fmt → e ≠ ch '-' := by
        intro e fmt heq hminus
        cases width with
        | nil =>
            rw [List.nil_append, List.cons.injEq] at heq
            exact W.minus rfl rfl (heq.1.trans hminus)
        | cons d width =>
            rw [List.cons_append, List.cons.injEq] at heq
            have hd := W.digit d List.mem_cons_self
            rw [heq.1, hminus, isdigit_minus] at hd
            cases hd
      cases hfmt : width ++ c :: rest with
      | nil => simp at hfmt
      | cons e fmt =>
          rw [hfmt] at hscan
          simp [sgn, hfmt, fetchDigit, hhead e fmt hfmt, hscan, widthOf]

/-! ## One reading for each format -/

/-- The `NUL` stands behind the width of a directive that is cut off. -/
theorem isWidth_cut (minus : Bool) {width : List Byte}
    (hw : ∀ d ∈ width, isdigit d = true) : IsWidth minus width 0#8 :=
  ⟨hw, by decide, fun _ _ => by decide⟩

theorem sgn_append_inj {minus minus' : Bool} {width width' : List Byte}
    (hw : ∀ d ∈ width, isdigit d = true) (hw' : ∀ d ∈ width', isdigit d = true)
    (heq : sgn minus ++ width = sgn minus' ++ width') : minus = minus' ∧ width = width' := by
  have hno : ∀ {ws vs : List Byte}, (∀ d ∈ ws, isdigit d = true) → ws ≠ ch '-' :: vs := by
    intro ws vs hws hcons
    have hd := hws (ch '-') (hcons ▸ List.mem_cons_self)
    rw [isdigit_minus] at hd
    cases hd
  cases minus <;> cases minus'
  · exact ⟨rfl, heq⟩
  · exact absurd heq (hno hw)
  · exact absurd heq.symm (hno hw')
  · exact ⟨rfl, List.cons_injective heq⟩

/-- Two strings that start with a piece start with the same one. -/
theorem text_append_inj {it it' : Item} {rest rest' : List Byte} (h : it.WF) (h' : it'.WF)
    (heq : it.text ++ rest = it'.text ++ rest') : it = it' ∧ rest = rest' := by
  cases it with
  | lit c =>
      cases it' with
      | lit c' => simpa [Item.text] using heq
      | dir minus' width' c' => exact absurd (List.cons.inj heq).1 h.2
  | dir minus width c =>
      cases it' with
      | lit c' => exact absurd (List.cons.inj heq).1.symm h'.2
      | dir minus' width' c' =>
          have htext : sgn minus ++ width ++ c :: rest = sgn minus' ++ width' ++ c' :: rest' := by
            simpa [Item.text] using heq
          have hscan := fetchDigit_eq h.1 rest
          rw [htext, fetchDigit_eq h'.1 rest', Option.some_inj, Prod.mk.injEq] at hscan
          obtain ⟨rfl, rfl⟩ := List.cons.inj hscan.1
          obtain ⟨rfl, rfl⟩ := sgn_append_inj h.1.digit h'.1.digit (List.append_cancel_right htext)
          exact ⟨rfl, rfl⟩

/-- What is cut off does not start with a piece. -/
theorem text_append_ne {it : Item} {rest tail : List Byte} (h : it.WF) (hcut : Cut tail) :
    it.text ++ rest ≠ tail := by
  intro heq
  rcases hcut with rfl | ⟨minus', width', hw', rfl⟩
  · cases it <;> cases heq
  · cases it with
    | lit c => exact absurd (List.cons.inj heq).1 h.2
    | dir minus width c =>
        have htext : sgn minus ++ width ++ c :: (rest ++ [0#8]) = sgn minus' ++ width' ++ [0#8] := by
          have htail : sgn minus ++ width ++ [c] ++ rest = sgn minus' ++ width' :=
            (List.cons.inj heq).2
          simp [← htail]
        have hscan := fetchDigit_eq h.1 (rest ++ [0#8])
        rw [htext, fetchDigit_eq (isWidth_cut minus' hw') [], Option.some_inj, Prod.mk.injEq] at hscan
        simp at hscan

/-- **A format is read in one way.** -/
theorem Reads.unique {fmt tail tail' : List Byte} {items items' : List Item}
    (R : Reads fmt items tail) (R' : Reads fmt items' tail') : items = items' ∧ tail = tail' := by
  induction items generalizing fmt items' with
  | nil =>
      cases items' with
      | nil => exact ⟨rfl, R.text.symm.trans R'.text⟩
      | cons it' items' =>
          have heq := R'.text.symm.trans R.text
          simp only [List.flatMap_cons, List.append_assoc, List.flatMap_nil, List.nil_append] at heq
          exact absurd heq (text_append_ne (R'.wf it' List.mem_cons_self) R.cut)
  | cons it items ih =>
      cases items' with
      | nil =>
          have heq := R.text.symm.trans R'.text
          simp only [List.flatMap_cons, List.append_assoc, List.flatMap_nil, List.nil_append] at heq
          exact absurd heq (text_append_ne (R.wf it List.mem_cons_self) R'.cut)
      | cons it' items' =>
          have heq := R.text.symm.trans R'.text
          simp only [List.flatMap_cons, List.append_assoc] at heq
          obtain ⟨hit, hrest⟩ := text_append_inj (R.wf it List.mem_cons_self)
            (R'.wf it' List.mem_cons_self) heq
          obtain ⟨hitems, htail⟩ := ih ⟨rfl, fun j hj => R.wf j (List.mem_cons_of_mem _ hj), R.cut⟩
            ⟨hrest, fun j hj => R'.wf j (List.mem_cons_of_mem _ hj), R'.cut⟩
          exact ⟨by rw [hit, hitems], htail⟩

/-- The width at the start of a string. -/
theorem exists_width (fmt : List Byte) : ∃ minus width rest, fmt = sgn minus ++ width ++ rest ∧
    (∀ d ∈ width, isdigit d = true) ∧ ∀ c rest', rest = c :: rest' → IsWidth minus width c := by
  have hsplit : ∀ fmt : List Byte, ∃ width rest, fmt = width ++ rest ∧
      (∀ d ∈ width, isdigit d = true) ∧ ∀ c rest', rest = c :: rest' → isdigit c = false := by
    intro fmt
    refine ⟨_, _, List.takeWhile_append_dropWhile.symm, fun d => List.mem_takeWhile_imp,
      fun c rest' hrest => ?_⟩
    have hhead := List.head?_dropWhile_not isdigit fmt
    simpa [hrest] using hhead
  by_cases hminus : ∃ fmt', fmt = ch '-' :: fmt'
  · obtain ⟨fmt', rfl⟩ := hminus
    obtain ⟨width, rest, hfmt, hw, hstop⟩ := hsplit fmt'
    exact ⟨true, width, rest, by rw [hfmt]; rfl, hw, fun c rest' h =>
      ⟨hw, hstop c rest' h, fun hfalse => nomatch hfalse⟩⟩
  · obtain ⟨width, rest, hfmt, hw, hstop⟩ := hsplit fmt
    refine ⟨false, width, rest, hfmt, hw, fun c rest' h => ⟨hw, hstop c rest' h, ?_⟩⟩
    rintro - rfl rfl
    exact hminus ⟨rest', hfmt.trans h⟩

/-- **Every format is read.** -/
theorem reads_total (fmt : List Byte) (h : 0#8 ∉ fmt) : ∃ items tail, Reads fmt items tail := by
  induction hn : fmt.length using Nat.strong_induction_on generalizing fmt with
  | _ n ih =>
    cases fmt with
    | nil => exact ⟨[], [], rfl, by simp, Or.inl rfl⟩
    | cons c fmt =>
        obtain ⟨hc, hfmt⟩ := List.ne_and_not_mem_of_not_mem_cons h
        by_cases hpercent : c = ch '%'
        · obtain ⟨minus, width, rest, rfl, hw, hstop⟩ := exists_width fmt
          subst hpercent
          cases rest with
          | nil => exact ⟨[], _, rfl, by simp, Or.inr ⟨minus, width, hw, by simp⟩⟩
          | cons e rest =>
              have hrest : 0#8 ∉ e :: rest := fun h => hfmt (List.mem_append_right _ h)
              obtain ⟨he, hrest⟩ := List.ne_and_not_mem_of_not_mem_cons hrest
              obtain ⟨items, tail, R⟩ := ih rest.length (by simp [← hn]; omega) rest hrest rfl
              refine ⟨.dir minus width e :: items, tail, ?_, ?_, R.cut⟩
              · simp [R.text, Item.text]
              · exact List.forall_mem_cons.mpr ⟨⟨hstop e rest rfl, Ne.symm he⟩, R.wf⟩
        · obtain ⟨items, tail, R⟩ := ih fmt.length (by simp [← hn]) fmt hfmt rfl
          refine ⟨.lit c :: items, tail, ?_, ?_, R.cut⟩
          · simp [R.text, Item.text]
          · exact List.forall_mem_cons.mpr ⟨⟨Ne.symm hc, hpercent⟩, R.wf⟩

/-! ## What the items print -/

/-- What a conversion prints for an argument, if the argument matches. -/
def Conv.output (width : ℤ) : Conv → VaArg → Option (List Byte)
  | .d, .w32 v => some (padded (fieldWidth width) (numeral 10 false v.toInt))
  | .u, .w32 v => some (padded (fieldWidth width) (numeral 10 false v.toNat))
  | .x, .w64 v => some (padded (fieldWidth width) (numeral 16 false v.toNat))
  | .p, .ptr addr _ => some (padded (fieldWidth width) (numeral 16 true addr.toNat))
  | .c, .w32 v => some [v.setWidth 8]
  | .s, .ptr addr bytes =>
      if addr = 0 then some nullStr
      else if 0#8 ∈ bytes then some (bytes.takeWhile (· ≠ 0#8))
      else none
  | _, _ => none

/-- The conversion of a piece. -/
def Item.conv? : Item → Option Conv
  | .lit _ => none
  | .dir _ _ c => Conv.ofChar c

/-- The width of a piece. -/
def Item.width : Item → ℤ
  | .lit _ => 0
  | .dir minus width _ => widthOf minus width

/-- What a piece prints that converts no argument: itself, or what its directive
stands for. -/
def Item.plain : Item → List Byte
  | .lit c => [c]
  | .dir _ _ c => if c = ch '%' then [ch '%'] else [ch '%', c]

/-- What the items print one by one, each conversion on the next argument, if the
arguments match. -/
def outputs : List Item → List VaArg → Option (List (List Byte))
  | [], _ => some []
  | it :: items, ap =>
      match it.conv?, ap with
      | none, _ => (outputs items ap).map (it.plain :: ·)
      | some _, [] => none
      | some conv, a :: ap => do
          let o ← conv.output it.width a
          let os ← outputs items ap
          pure (o :: os)

/-- The number of arguments the items take. -/
def conversions (items : List Item) : ℕ := items.countP fun it => it.conv?.isSome

/-! ## The run -/

section run
variable {Q : Unit → Console → Prop} {E : Fault → Console → Prop} {s : Console}

theorem vprintf_lit {c : Byte} (h : c ≠ 0#8) (h' : c ≠ ch '%') (rest : List Byte) :
    vprintf (c :: rest) = (do pl011Putc c; vprintf rest) := by
  rw [vprintf, if_neg h, if_neg h']

/-- A directive is scanned and converted. -/
theorem vprintf_percent {fmt fmt' : List Byte} {c : Byte} {digit : ℤ}
    (h : fetchDigit fmt = some (c :: fmt', digit)) :
    vprintf (ch '%' :: fmt) = (do convert c digit; vprintf fmt') := by
  have hne : ch '%' ≠ 0#8 := by decide
  rw [vprintf, if_neg hne, if_pos rfl]
  split
  · rename_i hsome
    rw [h, Option.some_inj, Prod.mk.injEq, List.cons.injEq] at hsome
    obtain ⟨⟨rfl, rfl⟩, rfl⟩ := hsome
    rfl
  · rename_i hnone
    exact absurd h (hnone _ _ _)

theorem wp_vaArg_cons {α : Type} {type : VaArg → Option α} {Q : α → Console → Prop} {a : VaArg}
    {ap : List VaArg} {v : α} (hap : s.ap = a :: ap) (h : type a = some v) :
    wp (vaArg type) Q E s ↔ Q v { s with ap := ap } := by
  simp only [vaArg, wp_bind, wp_get, hap, h, wp_modify, wp_pure]

theorem le_int32 (x : ℤ) : -2 ^ 31 ≤ int32 x := by
  simp only [int32, Int.bmod_def]
  omega

/-- A C string ends at its first NUL. -/
theorem exists_nul {bytes : List Byte} (h : 0#8 ∈ bytes) :
    ∃ rest, bytes = bytes.takeWhile (· ≠ 0#8) ++ 0#8 :: rest := by
  cases hdrop : bytes.dropWhile (· ≠ 0#8) with
  | nil =>
      rw [List.dropWhile_eq_nil_iff] at hdrop
      simpa using hdrop 0#8 h
  | cons e rest =>
      have hhead := List.head?_dropWhile_not (· ≠ 0#8) bytes
      have heq : bytes.takeWhile (· ≠ 0#8) ++ bytes.dropWhile (· ≠ 0#8) = bytes :=
        List.takeWhile_append_dropWhile
      rw [hdrop] at hhead heq
      have he : e = 0#8 := by simpa using hhead
      exact ⟨rest, he ▸ heq.symm⟩

/-- A conversion takes its argument and prints it. -/
theorem wp_convert {c : Byte} {conv : Conv} {digit : ℤ} {a : VaArg} {ap : List VaArg}
    {o : List Byte} (hd : -2 ^ 31 ≤ digit) (hc : Conv.ofChar c = some conv)
    (hap : s.ap = a :: ap) (ho : conv.output digit a = some o) :
    wp (convert c digit) Q E s ↔ Q () ⟨s.out ++ o, ap⟩ := by
  have h0 : (0 &&& print0x ≠ 0 : Bool) = false := rfl
  have h1 : (print0x &&& print0x ≠ 0 : Bool) = true := rfl
  rw [convert, hc]
  cases conv <;> cases a <;> simp only [Conv.output, reduceCtorEq, Option.some_inj] at ho
  case d.w32 v =>
    have hval : numVal true (v.signExtend 64) = v.toInt :=
      BitVec.toInt_signExtend_of_le (by decide)
    rw [wp_bind, wp_vaArg_cons hap (rfl : VaArg.w32? (.w32 v) = some v),
      wp_print64 (Or.inl rfl) _ _ hd, h0, hval, ← ho]
    rfl
  case u.w32 v =>
    have hval : numVal false (v.setWidth 64) = v.toNat := by
      have hlt := v.isLt
      simp only [numVal, Bool.false_eq_true, if_false, BitVec.toNat_setWidth]
      omega
    rw [wp_bind, wp_vaArg_cons hap (rfl : VaArg.w32? (.w32 v) = some v),
      wp_print64 (Or.inl rfl) _ _ hd, h0, hval, ← ho]
    rfl
  case x.w64 v =>
    rw [wp_bind, wp_vaArg_cons hap (rfl : VaArg.w64? (.w64 v) = some v),
      wp_print64 (Or.inr rfl) _ _ hd, h0, ← ho]
    rfl
  case p.ptr addr bytes =>
    rw [wp_bind, wp_vaArg_cons hap (rfl : VaArg.ptr? (.ptr addr bytes) = some (addr, bytes)),
      wp_print64 (Or.inr rfl) _ _ hd, h1, ← ho]
    rfl
  case c.w32 v =>
    rw [wp_bind, wp_vaArg_cons hap (rfl : VaArg.w32? (.w32 v) = some v), wp_pl011Putc, ← ho]
    rfl
  case s.ptr addr bytes =>
    rw [wp_bind, wp_vaArg_cons hap (rfl : VaArg.ptr? (.ptr addr bytes) = some (addr, bytes))]
    by_cases haddr : addr = 0
    · rw [if_pos haddr, Option.some_inj] at ho
      rw [if_pos haddr, wp_pl011Puts (by decide), ← ho]
      rfl
    · rw [if_neg haddr] at ho
      split at ho
      · rename_i hmem
        obtain ⟨rest, hbytes⟩ := exists_nul hmem
        have hnul : 0#8 ∉ bytes.takeWhile (· ≠ 0#8) := fun h => by
          simpa using List.mem_takeWhile_imp h
        rw [Option.some_inj] at ho
        rw [if_neg haddr, hbytes, wp_pl011Puts hnul, ← ho]
        rfl
      · cases ho

/-- Any other character is printed, behind `%` unless it is `%` itself. -/
theorem wp_convert_plain {c : Byte} (hc : Conv.ofChar c = none) (digit : ℤ) :
    wp (convert c digit) Q E s ↔
      Q () (s.print (if c = ch '%' then [ch '%'] else [ch '%', c])) := by
  rw [convert, hc]
  by_cases h : c = ch '%'
  · simp [h]
  · simp [h]

/-- **The items are printed in order**, each conversion on the next argument. -/
theorem wp_vprintf_items {items : List Item} {os : List (List Byte)} (rest : List Byte)
    (hwf : ∀ it ∈ items, it.WF) (h : outputs items s.ap = some os) :
    wp (vprintf (items.flatMap Item.text ++ rest)) Q E s ↔
      wp (vprintf rest) Q E ⟨s.out ++ os.flatten, s.ap.drop (conversions items)⟩ := by
  induction items generalizing s os with
  | nil =>
      cases h
      simp [conversions]
  | cons it items ih =>
      obtain ⟨hit, hitems⟩ := List.forall_mem_cons.mp hwf
      rw [List.flatMap_cons, List.append_assoc]
      cases it with
      | lit c =>
          obtain ⟨os', hos', rfl⟩ := Option.map_eq_some_iff.mp h
          have hrest := ih (s := s.print [c]) hitems hos'
          simp only [Item.text, List.cons_append, List.nil_append, vprintf_lit hit.1 hit.2, wp_bind,
            wp_pl011Putc, hrest]
          simp [conversions, Item.conv?, Item.plain]
      | dir minus width c =>
          have htext : (Item.dir minus width c).text ++ (items.flatMap Item.text ++ rest) =
              ch '%' :: (sgn minus ++ width ++ c :: (items.flatMap Item.text ++ rest)) := by
            simp [Item.text]
          rw [htext, vprintf_percent (fetchDigit_eq hit.1 _), wp_bind]
          cases hconv : Conv.ofChar c with
          | none =>
              simp only [outputs, Item.conv?, hconv] at h
              obtain ⟨os', hos', rfl⟩ := Option.map_eq_some_iff.mp h
              have hrest := ih (s := s.print (Item.dir minus width c).plain) hitems hos'
              rw [wp_convert_plain hconv]
              refine hrest.trans ?_
              simp [conversions, Item.conv?, hconv, Item.plain]
          | some conv =>
              cases hap : s.ap with
              | nil => simp [outputs, Item.conv?, hconv, hap] at h
              | cons a ap =>
                  simp only [outputs, Item.conv?, hconv, hap, Option.bind_eq_bind,
                    Option.bind_eq_some_iff, Option.pure_def, Option.some_inj] at h
                  obtain ⟨o, ho, os', hos', rfl⟩ := h
                  have hrest := ih (s := ⟨s.out ++ o, ap⟩) hitems hos'
                  have hd : -2 ^ 31 ≤ widthOf minus width := le_int32 _
                  rw [wp_convert hd hconv hap ho, hrest]
                  simp [conversions, Item.conv?, hconv]

/-- The `NUL` behind a directive that is cut off is printed as its character, and the
loop goes on behind it. -/
theorem wp_vprintf_cut {minus : Bool} {width : List Byte}
    (hw : ∀ d ∈ width, isdigit d = true) :
    wp (vprintf (ch '%' :: (sgn minus ++ width) ++ [0#8])) Q E s ↔
      E .outOfBounds (s.print [ch '%', 0#8]) := by
  have hscan := fetchDigit_eq (isWidth_cut minus hw) []
  have hconv : Conv.ofChar 0#8 = none := by decide
  have hne : (0#8 : Byte) ≠ ch '%' := by decide
  rw [List.cons_append, vprintf_percent hscan, wp_bind, wp_convert_plain hconv, if_neg hne, vprintf,
    wp_throw]

end run

/-! ## Staying inside the format -/

/-- `vprintf` returns, having read nothing behind the NUL; it has printed the items
in order and taken one argument for each conversion. -/
def StaysInside (fmt : List Byte) (items : List Item) (os : List (List Byte)) (s : Console) : Prop :=
  vprintf (fmt ++ [0#8]) s = .ok () ⟨s.out ++ os.flatten, s.ap.drop (conversions items)⟩

theorem staysInside_of_reads {fmt : List Byte} {items : List Item} {os : List (List Byte)}
    {s : Console} (R : Reads fmt items []) (h : outputs items s.ap = some os) : StaysInside fmt items os s := by
  have hwp : wp (vprintf (fmt ++ [0#8])) (fun _ s' =>
      s' = ⟨s.out ++ os.flatten, s.ap.drop (conversions items)⟩) (fun _ _ => False) s := by
    rw [R.text, List.append_nil, wp_vprintf_items [0#8] R.wf h, vprintf, if_pos rfl, wp_pure]
  obtain ⟨_, s', hrun, hs⟩ := exists_ok_of_wp hwp
  rw [StaysInside, hrun, hs]

/-- **Where a directive is cut off the loop leaves the string.** -/
theorem vprintf_dangling {fmt : List Byte} {items : List Item} {os : List (List Byte)}
    {s : Console} {minus : Bool} {width : List Byte}
    (R : Reads fmt items (ch '%' :: (sgn minus ++ width))) (hw : ∀ d ∈ width, isdigit d = true)
    (h : outputs items s.ap = some os) :
    ∃ s', vprintf (fmt ++ [0#8]) s = .error .outOfBounds s' := by
  have hwp : wp (vprintf (fmt ++ [0#8])) (fun _ _ => False) (fun e _ => e = .outOfBounds) s := by
    rw [R.text, List.append_assoc, wp_vprintf_items _ R.wf h, wp_vprintf_cut hw]
  cases hrun : vprintf (fmt ++ [0#8]) s with
  | ok _ s' => exact absurd (ok_of_wp hwp hrun) id
  | error e s' => exact ⟨s', by rw [error_of_wp hwp hrun]⟩

/-- **`vprintf` stays inside the format exactly when no directive is cut off.**  Every
format without a NUL is read as items and perhaps a directive without its last
character.  With arguments that match the items, `vprintf` returns at the NUL with
the items printed in order and one argument taken for each conversion, if and only
if the items are all of the format; otherwise it reads on behind the NUL. -/
theorem vprintf_inside_iff (fmt : List Byte) (hfmt : 0#8 ∉ fmt) :
    (∃ items tail, Reads fmt items tail) ∧
    ∀ items tail s os, Reads fmt items tail → outputs items s.ap = some os →
      (StaysInside fmt items os s ↔ Complete fmt) ∧
      (¬ Complete fmt → ∃ s', vprintf (fmt ++ [0#8]) s = .error .outOfBounds s') := by
  refine ⟨reads_total fmt hfmt, fun items tail s os R h => ?_⟩
  rcases R.cut with rfl | ⟨minus, width, hw, rfl⟩
  · have hcomplete : Complete fmt := ⟨items, R⟩
    exact ⟨iff_of_true (staysInside_of_reads R h) hcomplete, fun hno => absurd hcomplete hno⟩
  · have hcomplete : ¬ Complete fmt := by
      intro ⟨items', R'⟩
      cases (R.unique R').2
    obtain ⟨s', hrun⟩ := vprintf_dangling R hw h
    refine ⟨iff_of_false (fun hinside => ?_) hcomplete, fun _ => ⟨s', hrun⟩⟩
    rw [StaysInside, hrun] at hinside
    cases hinside

/-- `"%5d %s"` with a number and a null pointer. -/
theorem vprintf_inside_number :
    StaysInside (['%', '5', 'd', ' ', '%', 's'].map ch)
      [.dir false [ch '5'] (ch 'd'), .lit (ch ' '), .dir false [] (ch 's')]
      [padded 5 (numeral 10 false (-12)), [ch ' '], nullStr] ⟨[], [.w32 (-12), .ptr 0 []]⟩ := by
  have R : Reads (['%', '5', 'd', ' ', '%', 's'].map ch)
      [.dir false [ch '5'] (ch 'd'), .lit (ch ' '), .dir false [] (ch 's')] [] := by
    refine ⟨rfl, ?_, Or.inl rfl⟩
    simp only [List.forall_mem_cons]
    refine ⟨⟨⟨by decide, by decide, by decide⟩, by decide⟩, ⟨by decide, by decide⟩,
      ⟨⟨by decide, by decide, by decide⟩, by decide⟩, by simp⟩
  have hout : outputs [.dir false [ch '5'] (ch 'd'), .lit (ch ' '), .dir false [] (ch 's')]
      [.w32 (-12), .ptr 0 []] = some [padded 5 (numeral 10 false (-12)), [ch ' '], nullStr] := by
    have hd : Conv.ofChar (ch 'd') = some .d := by decide
    have hs : Conv.ofChar (ch 's') = some .s := by decide
    have hwidth : fieldWidth (widthOf false [ch '5']) = 5 := by decide
    have hval : (-12 : BitVec 32).toInt = -12 := by decide
    simp only [outputs, Item.conv?, hd, hs, Conv.output, Item.width, hwidth, hval]
    rfl
  exact ((vprintf_inside_iff _ (by decide)).2 _ _ _ _ R hout).1.mpr ⟨_, R⟩

/-- The format `"%"`: no argument is asked for, and the loop reads behind the NUL. -/
theorem vprintf_leaves : Reads [ch '%'] [] [ch '%'] ∧ outputs [] [] = some [] ∧
    vprintf [ch '%', 0#8] ⟨[], []⟩ = .error .outOfBounds ⟨[ch '%', 0#8], []⟩ ∧
    ¬ StaysInside [ch '%'] [] [] ⟨[], []⟩ := by
  have hrun : vprintf [ch '%', 0#8] ⟨[], []⟩ = .error .outOfBounds ⟨[ch '%', 0#8], []⟩ := by
    have hwp : wp (vprintf [ch '%', 0#8]) (fun _ _ => False)
        (fun e s' => e = .outOfBounds ∧ s' = ⟨[ch '%', 0#8], []⟩) ⟨[], []⟩ :=
      (@wp_vprintf_cut _ _ _ false [] (by simp)).mpr ⟨rfl, rfl⟩
    cases h : vprintf [ch '%', 0#8] ⟨[], []⟩ with
    | ok _ s' => exact absurd (ok_of_wp hwp h) id
    | error e s' =>
        obtain ⟨he, hs⟩ := error_of_wp hwp h
        rw [he, hs]
  refine ⟨⟨rfl, by simp, Or.inr ⟨false, [], by simp, rfl⟩⟩, rfl, hrun, fun hinside => ?_⟩
  rw [StaysInside] at hinside
  exact nomatch hrun.symm.trans hinside

end Xhyper
