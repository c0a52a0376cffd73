import Xhyper.Kalloc
import Xhyper.Lib.Radix
import Mathlib.Data.Nat.Bitwise

/-!
# Stage-2 tables and `page_walk`

A stage-2 table is a page of 512 entries.  `pageWalk` goes from the root through
three levels to the last-level entry of an address, and when asked to, hangs a
fresh page wherever a level is missing.

The tables of a root are read off the memory as a radix tree: `child m t i` is the
table that entry `i` of table `t` names, and `TableAt m r p t` says that the path
`p` of at most three indices leads to `t`.  `Table m r` is what makes it a tree:
different paths lead to different pages.  `Stage2 s r l` adds that no table and no
mapped page is free.

## Main definitions

* `pindex`, `ptePa` — the fields of an address and of an entry.
* `pageWalk` — the walk.
* `pteAt`, `translate` — the entry an address has, and what it means.
* `Table`, `Stage2` — the invariants.
-/

namespace Xhyper

open Memory Prog Radix

/-! ## Addresses and entries -/

/-- `PINDEX(level, ipa)`. -/
def pindex (level ipa : ℕ) : ℕ := (ipa >>> (39 - level * 9)) &&& 0x1ff

/-- `PTE_VALID`. -/
abbrev pteValid : ℕ := 0x1

/-- `PTE_TABLE`. -/
abbrev pteTable : ℕ := 0x2

/-- `PTE_V`. -/
abbrev pteV : ℕ := 0x3

/-- `PTE_AF`. -/
abbrev pteAf : ℕ := 1 <<< 10

/-- The address field, bits `[47:12]`. -/
abbrev paMask : ℕ := 0xFFFFFFFFF000

/-- `PTE_PA(pte)`. -/
def ptePa (pte : ℕ) : ℕ := pte &&& paMask

/-- What the walk takes for a pointer to a next table. -/
def IsTableEntry (e : ℕ) : Prop := e &&& pteValid ≠ 0 ∧ e &&& pteTable ≠ 0

instance (e : ℕ) : Decidable (IsTableEntry e) := inferInstanceAs (Decidable (_ ∧ _))

theorem pindex_eq {level : ℕ} (ipa : ℕ) :
    pindex level ipa = ipa / 2 ^ (39 - level * 9) % 512 := by
  rw [pindex, Nat.shiftRight_eq_div_pow, show (0x1ff : ℕ) = 2 ^ 9 - 1 by norm_num,
    Nat.and_two_pow_sub_one_eq_mod]

theorem pindex_lt (level ipa : ℕ) : pindex level ipa < 512 := by
  rw [pindex_eq]
  exact Nat.mod_lt _ (by norm_num)

/-- The address field as arithmetic. -/
theorem ptePa_eq (e : ℕ) : ptePa e = e % 2 ^ 48 / 2 ^ 12 * 2 ^ 12 := by
  have hmask : paMask = (2 ^ 36 - 1) <<< 12 := rfl
  have hshift : e &&& (2 ^ 36 - 1) <<< 12 = (e >>> 12 &&& (2 ^ 36 - 1)) <<< 12 := by
    apply Nat.eq_of_testBit_eq
    intro i
    by_cases hi : 12 ≤ i
    · simp only [Nat.testBit_and, Nat.testBit_shiftLeft, Nat.testBit_shiftRight, hi, decide_true,
        Bool.true_and, show 12 + (i - 12) = i by omega]
    · simp only [Nat.testBit_and, Nat.testBit_shiftLeft, hi, decide_false, Bool.false_and,
        Bool.and_false]
  rw [ptePa, hmask, hshift, Nat.and_two_pow_sub_one_eq_mod, Nat.shiftLeft_eq,
    Nat.shiftRight_eq_div_pow]
  omega

theorem ptePa_isPage (e : ℕ) : IsPage (ptePa e) := by
  constructor
  · rw [ptePa_eq, pageSize]
    omega
  · rw [ptePa_eq]
    omega

theorem ptePa_of_isPage {p : ℕ} (hp : IsPage p) : ptePa p = p := by
  have ha := hp.aligned
  have hb := hp.bound
  simp only [pageSize] at ha
  rw [ptePa_eq]
  omega

theorem ptePa_or (a b : ℕ) : ptePa (a ||| b) = ptePa a ||| ptePa b :=
  Nat.and_or_distrib_right a b paMask

/-- The entry that points to table `n`. -/
def tableEntry (n : ℕ) : ℕ := ptePa n ||| pteTable ||| pteValid

theorem ptePa_tableEntry {n : ℕ} (hn : IsPage n) : ptePa (tableEntry n) = n := by
  have htable : ptePa pteTable = 0 := rfl
  have hvalid : ptePa pteValid = 0 := rfl
  simp only [tableEntry, ptePa_or, ptePa_of_isPage hn, htable, hvalid, Nat.or_zero]

theorem isTableEntry_tableEntry (n : ℕ) : IsTableEntry (tableEntry n) := by
  constructor
  · rw [tableEntry, Nat.and_or_distrib_right]
    simp
  · rw [tableEntry, Nat.and_or_distrib_right, Nat.and_or_distrib_right]
    simp

theorem ptePa_lt (e : ℕ) : ptePa e < 2 ^ 64 := by
  have := (ptePa_isPage e).bound
  omega

theorem tableEntry_lt (n : ℕ) : tableEntry n < 2 ^ 64 :=
  Nat.or_lt_two_pow (Nat.or_lt_two_pow (ptePa_lt n) (by norm_num)) (by norm_num)

theorem not_isTableEntry_zero : ¬ IsTableEntry 0 := by simp [IsTableEntry]

/-! ## The walk -/

/-- The levels of `page_walk`'s loop that are still to do, from table `pgt`. -/
def pageWalkFrom (va : ℕ) (alloc : Bool) : List ℕ → ℕ → Exec Ram (Option ℕ)
  | [], pgt => pure (some pgt)
  | level :: levels, pgt => do
      let pte := pgt + 8 * pindex level va
      let e ← load64 pte
      if IsTableEntry e then
        pageWalkFrom va alloc levels (ptePa e)
      else if alloc then do
        match ← allocOnePage with
        | none => abort "Unable to alloc one page for page_walk"
        | some page => do
            store64 pte (ptePa page ||| pteTable ||| pteValid)
            pageWalkFrom va alloc levels page
      else
        pure none

/-- `page_walk`: the address of the last-level entry of `va`, or null. -/
def pageWalk (pgt va : ℕ) (alloc : Bool) : Exec Ram (Option ℕ) := do
  match ← pageWalkFrom va alloc [0, 1, 2] pgt with
  | none => pure none
  | some t => pure (some (t + 8 * pindex 3 va))

/-- The table that entry `i` of table `t` points to. -/
def child (m : Mem) (t i : ℕ) : Option ℕ :=
  if IsTableEntry (read64 m (t + 8 * i)) then some (ptePa (read64 m (t + 8 * i))) else none

/-- The indices the walk uses on the way to the last-level table. -/
def tablePath (va : ℕ) : List ℕ := [pindex 0 va, pindex 1 va, pindex 2 va]

/-- The last-level entry of `va`, if its table is there. -/
def pteAt (m : Mem) (pgt va : ℕ) : Option ℕ :=
  (follow (child m) pgt (tablePath va)).map fun t => t + 8 * pindex 3 va

theorem wp_pageWalkFrom_false {Q : Option ℕ → Ram → Prop} {E : Fault → Ram → Prop} {s : Ram}
    (va : ℕ) (levels : List ℕ) (t : ℕ) :
    wp (pageWalkFrom va false levels t) Q E s ↔
      Q (follow (child s.mem) t (levels.map fun level => pindex level va)) s := by
  induction levels generalizing t with
  | nil => simp [pageWalkFrom]
  | cons level levels ih =>
      simp only [pageWalkFrom, wp_bind, wp_load64, List.map_cons, follow_cons, child]
      by_cases h : IsTableEntry (read64 s.mem (t + 8 * pindex level va))
      · simp [h, ih]
      · simp [h]

/-- **A walk that does not allocate reads the tree.** -/
@[simp] theorem wp_pageWalk_false {Q : Option ℕ → Ram → Prop} {E : Fault → Ram → Prop} {s : Ram}
    (pgt va : ℕ) : wp (pageWalk pgt va false) Q E s ↔ Q (pteAt s.mem pgt va) s := by
  simp only [pageWalk, wp_bind, wp_pageWalkFrom_false, pteAt, tablePath, List.map_cons,
    List.map_nil]
  cases follow (child s.mem) pgt [pindex 0 va, pindex 1 va, pindex 2 va] <;> simp

/-! ## The tree in memory -/

/-- The path `p` of at most three indices leads from the root `r` to table `t`. -/
structure TableAt (m : Mem) (r : ℕ) (p : List ℕ) (t : ℕ) : Prop where
  depth : p.length ≤ 3
  index : ∀ i ∈ p, i < 512
  walk : follow (child m) r p = some t

theorem tablePath_index (va : ℕ) : ∀ i ∈ tablePath va, i < 512 := by
  intro i hi
  simp only [tablePath, List.mem_cons, List.not_mem_nil, or_false] at hi
  rcases hi with rfl | rfl | rfl <;> exact pindex_lt _ _

/-- What a filled last-level entry looks like. -/
def IsLeaf (e : ℕ) : Prop := e &&& pteV = pteV ∧ e &&& pteAf ≠ 0

/-- The tables of the root `r` form a tree of distinct pages, whose entries are
zero or filled. -/
structure Table (m : Mem) (r : ℕ) : Prop where
  root : IsPage r
  ne_zero : ∀ p t, TableAt m r p t → t ≠ 0
  distinct : Distinct (child m) r (· < 512) 3
  inner : ∀ p t i, TableAt m r p t → p.length < 3 → i < 512 →
    child m t i = none → read64 m (t + 8 * i) = 0
  leaf : ∀ p t i, TableAt m r p t → p.length = 3 → i < 512 →
    read64 m (t + 8 * i) = 0 ∨ IsLeaf (read64 m (t + 8 * i))

/-- The bits of an entry beside its address. -/
def pteAttr (e : ℕ) : ℕ := e &&& 0xFFFF000000000FFF

/-- The page an entry maps to, with its attributes. -/
def decodeLeaf (e : ℕ) : Option (ℕ × ℕ) :=
  if e &&& pteV = pteV then some (ptePa e, pteAttr e) else none

/-- The last-level entry of `ipa`; zero where its table is missing. -/
def leafEntry (m : Mem) (r ipa : ℕ) : ℕ :=
  match pteAt m r ipa with
  | some a => read64 m a
  | none => 0

/-- What the tables of `r` make of the page of `ipa`: an output page and its
attributes. -/
def translate (m : Mem) (r ipa : ℕ) : Option (ℕ × ℕ) := decodeLeaf (leafEntry m r ipa)

@[simp] theorem decodeLeaf_zero : decodeLeaf 0 = none := rfl

/-- A well-formed table next to the free list `l`: no table and no mapped page is
free, and no mapped page is a table. -/
structure Stage2 (s : Ram) (r : ℕ) (l : List ℕ) : Prop where
  pool : s.Pool l
  table : Table s.mem r
  table_used : ∀ p t, TableAt s.mem r p t → t ∉ l
  out_used : ∀ ipa out a, translate s.mem r ipa = some (out, a) → out ∉ l
  out_apart : ∀ ipa out a p t, translate s.mem r ipa = some (out, a) →
    TableAt s.mem r p t → t ≠ out

namespace Table

variable {m : Mem} {r : ℕ}

/-- Every table is a page. -/
theorem isPage (T : Table m r) {p : List ℕ} {t : ℕ} (h : TableAt m r p t) : IsPage t := by
  induction p using List.reverseRecOn with
  | nil =>
      have hrt : r = t := by simpa using h.walk
      exact hrt ▸ T.root
  | append_singleton p i _ =>
      obtain ⟨u, -, hut⟩ := follow_snoc_eq_some.mp h.walk
      by_cases he : IsTableEntry (read64 m (u + 8 * i))
      · simp only [child, he, if_true, Option.some_inj] at hut
        exact hut ▸ ptePa_isPage _
      · simp [child, he] at hut

/-- Two tables at one address have one path. -/
theorem path_eq (T : Table m r) {p q : List ℕ} {t : ℕ} (hp : TableAt m r p t)
    (hq : TableAt m r q t) : p = q :=
  T.distinct p q t hp.depth hq.depth hp.index hq.index hp.walk hq.walk

theorem root_at (m : Mem) (r : ℕ) : TableAt m r [] r :=
  ⟨by simp, by simp, follow_nil⟩

end Table

/-- Different entries share no byte. -/
theorem entry_disjoint {t t' i i' : ℕ} (ht : t % pageSize = 0) (ht' : t' % pageSize = 0)
    (hi : i < 512) (hi' : i' < 512) (hne : t ≠ t' ∨ i ≠ i') :
    t + 8 * i + 8 ≤ t' + 8 * i' ∨ t' + 8 * i' + 8 ≤ t + 8 * i := by
  simp only [pageSize] at ht ht'
  omega

/-- An entry lies in its table's page. -/
theorem entry_block {t i : ℕ} (hi : i < 512) : block (t + 8 * i) 8 ⊆ block t pageSize := by
  intro x hx
  simp only [mem_block, pageSize] at hx ⊢
  omega

theorem child_congr {m m' : Mem} {t i : ℕ}
    (h : read64 m' (t + 8 * i) = read64 m (t + 8 * i)) : child m' t i = child m t i := by
  simp only [child, h]

/-! ## A fresh root -/

section fresh
variable {m : Mem} {r : ℕ}

/-- A zeroed root has no table below it. -/
theorem tableAt_fresh (h0 : ∀ i < 512, read64 m (r + 8 * i) = 0) {p : List ℕ} {t : ℕ} :
    TableAt m r p t ↔ p = [] ∧ t = r := by
  constructor
  · intro ht
    cases p with
    | nil =>
        have hrt : r = t := by simpa using ht.walk
        exact ⟨rfl, hrt.symm⟩
    | cons i p =>
        have hi : i < 512 := ht.index i List.mem_cons_self
        have hw := ht.walk
        simp [follow_cons, child, h0 i hi, not_isTableEntry_zero] at hw
  · rintro ⟨hp, ht⟩
    rw [hp, ht]
    exact Table.root_at m r

theorem translate_fresh (h0 : ∀ i < 512, read64 m (r + 8 * i) = 0) (ipa : ℕ) :
    translate m r ipa = none := by
  have hi := h0 _ (pindex_lt 0 ipa)
  simp [translate, leafEntry, pteAt, tablePath, follow_cons, child, hi, not_isTableEntry_zero]

/-- **A zeroed page is an empty table.** -/
theorem Table.fresh (hr : IsPage r) (hne : r ≠ 0)
    (h0 : ∀ i < 512, read64 m (r + 8 * i) = 0) : Table m r where
  root := hr
  ne_zero p t ht := by
    rw [((tableAt_fresh h0).mp ht).2]
    exact hne
  distinct p q t hp hq hip hiq htp htq := by
    rw [((tableAt_fresh h0).mp ⟨hp, hip, htp⟩).1, ((tableAt_fresh h0).mp ⟨hq, hiq, htq⟩).1]
  inner p t i ht _ hi _ := by
    rw [((tableAt_fresh h0).mp ht).2]
    exact h0 i hi
  leaf p t i ht hp hi := by
    rw [((tableAt_fresh h0).mp ht).1] at hp
    exact absurd hp (by simp)

/-- An empty table next to a pool that it is not in. -/
theorem Stage2.fresh {s : Ram} {l : List ℕ} (H : s.Pool l) (hr : IsPage r) (hne : r ≠ 0)
    (hfree : r ∉ l) (h0 : ∀ i < 512, read64 s.mem (r + 8 * i) = 0) : Stage2 s r l where
  pool := H
  table := Table.fresh hr hne h0
  table_used p t ht := by
    rw [((tableAt_fresh h0).mp ht).2]
    exact hfree
  out_used ipa out a h := by
    rw [translate_fresh h0] at h
    cases h
  out_apart ipa out a p t h _ := by
    rw [translate_fresh h0] at h
    cases h

end fresh

end Xhyper
