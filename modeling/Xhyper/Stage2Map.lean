import Xhyper.Mapping
import Mathlib.Data.Set.Finite.Lattice

/-!
# The stage-2 table as a finite map

What the four-level table is for: an address space is a partial map from the
number of an IPA page to an output page with its attributes.  Mapping a range sets
the pages of the range, unmapping it removes them, and nothing else moves.

`absMap` reads this map off the memory.  `stage2_refines` says that any sequence of
calls allowed by `Admissible` takes a well-formed table to a well-formed table and
the map to what the abstract operations make of it, and says how a further call
ends.  What a caller owes is in `Admissible`: aligned ranges below `2 ^ 48`,
attributes outside the address field, pages to map that are not in use as tables
and not free, RAM pages mapped at one address only, and unmapping only of mapped
RAM pages.

## Main definitions

* `AddrMap`, `AddrMap.step` — the abstract map and its operations.
* `absMap` — the map a table stands for.
* `WellFormed` — the table and the allocator, together.
* `Stage2Op`, `Admissible`, `Stage2Run` — sequences of calls.
* `stage2_refines` — the refinement.
-/

namespace Xhyper

open Memory Prog Radix

/-! ## The abstract map -/

/-- From the number of an IPA page to an output page and its attributes. -/
abbrev AddrMap := ℕ → Option (ℕ × ℕ)

/-- A call on a table, or of the allocator in between. -/
inductive Stage2Op
  | map (va pa size attr : ℕ)
  | unmap (va size : ℕ)
  | alloc

/-- Page `v` lies in the range of `size` bytes from `va`. -/
def InRange (va size v : ℕ) : Prop := va / pageSize ≤ v ∧ v < va / pageSize + size / pageSize

instance (va size v : ℕ) : Decidable (InRange va size v) := inferInstanceAs (Decidable (_ ∧ _))

/-- What a call does to the map. -/
def AddrMap.step (f : AddrMap) : Stage2Op → AddrMap
  | .map va pa size attr => fun v =>
      if InRange va size v then
        some (pa + (v - va / pageSize) * pageSize, attr ||| pteAf ||| pteV)
      else f v
  | .unmap va size => fun v => if InRange va size v then none else f v
  | .alloc => f

/-- The map that the tables of `r` stand for. -/
def absMap (m : Mem) (r : ℕ) : AddrMap := fun v =>
  if v < 2 ^ 36 then translate m r (v * pageSize) else none

/-- The map is finite. -/
theorem absMap_finite (m : Mem) (r : ℕ) : {v | absMap m r v ≠ none}.Finite := by
  refine (Set.finite_lt_nat (2 ^ 36)).subset fun v hv => ?_
  by_contra hlt
  exact hv (if_neg hlt)

/-- Two addresses of one page translate alike. -/
theorem leafEntry_congr {m : Mem} {r a b : ℕ} (h : vpn a = vpn b) :
    leafEntry m r a = leafEntry m r b := by
  obtain ⟨hpath, hidx⟩ := (indices_eq_iff a b).mpr h
  simp only [leafEntry, pteAt, hpath, hidx]

/-- Below `2 ^ 48` the map says what the table says. -/
theorem translate_eq_absMap (m : Mem) (r : ℕ) {ipa : ℕ} (h : ipa < 2 ^ 48) :
    translate m r ipa = absMap m r (ipa / pageSize) := by
  have hv : vpn ipa = vpn (ipa / pageSize * pageSize) := by
    simp only [vpn, pageSize]
    omega
  have hlt : ipa / pageSize < 2 ^ 36 := by
    simp only [pageSize]
    omega
  simp only [absMap, hlt, if_true, translate, leafEntry_congr hv]

theorem vpn_page {v : ℕ} (h : v < 2 ^ 36) : vpn (v * pageSize) = v := by
  simp only [vpn, pageSize]
  omega

/-! ## Well-formed tables and admissible calls -/

section
variable (r : ℕ) (ram : Set ℕ)

/-- The tables of `r` are well formed next to the free list `l`; free pages are RAM
pages, and a RAM page is mapped at one page only. -/
structure WellFormedAt (s : Ram) (l : List ℕ) : Prop where
  stage2 : Stage2 s r l
  free_ram : ∀ p ∈ l, p ∈ ram
  once : ∀ a b out x y, translate s.mem r a = some (out, x) →
    translate s.mem r b = some (out, y) → out ∈ ram → vpn a = vpn b

/-- The tables of `r` are well formed. -/
def WellFormed (s : Ram) : Prop := ∃ l, WellFormedAt r ram s l

/-- What a caller promises. -/
def Admissible (s : Ram) : Stage2Op → Prop
  | .map va pa size attr =>
      (va % pageSize = 0 ∧ pa % pageSize = 0 ∧ size % pageSize = 0) ∧
      va + size ≤ 2 ^ 48 ∧ pa + size ≤ 2 ^ 48 ∧ IsAttr attr ∧
      ∀ k, k * pageSize < size →
        (∀ l, s.Pool l → pa + k * pageSize ∉ l) ∧
        (∀ p t, TableAt s.mem r p t → t ≠ pa + k * pageSize) ∧
        (pa + k * pageSize ∈ ram → ∀ ipa x, translate s.mem r ipa ≠ some (pa + k * pageSize, x))
  | .unmap va size =>
      (va % pageSize = 0 ∧ size % pageSize = 0) ∧ va + size ≤ 2 ^ 48 ∧
      ∀ k, k * pageSize < size →
        ∃ out x, translate s.mem r (va + k * pageSize) = some (out, x) ∧ out ∈ ram
  | .alloc => ∀ l, s.Pool l → l ≠ []

/-- Run a call. -/
def Stage2Op.exec : Stage2Op → Exec Ram Unit
  | .map va pa size attr => createGuestMapping r va pa size attr
  | .unmap va size => pageUnmap r va size
  | .alloc => do let _ ← allocOnePage

/-- A sequence of admissible calls, each of which returned. -/
inductive Stage2Run : Ram → List Stage2Op → Ram → Prop
  | nil (s : Ram) : Stage2Run s [] s
  | cons {s s' s'' : Ram} {op : Stage2Op} {ops : List Stage2Op} :
      Admissible r ram s op → op.exec r s = .ok () s' → Stage2Run s' ops s'' →
      Stage2Run s (op :: ops) s''

end

/-! ## One call -/

section step
variable {r : ℕ} {ram : Set ℕ} {s : Ram}

/-- Some page of the range is mapped. -/
def MeetsMapped (m : Mem) (r va size : ℕ) : Prop :=
  ∃ k, k * pageSize < size ∧ translate m r (va + k * pageSize) ≠ none

/-- **A mapping call.**  It returns with the range set, or stops on a mapped page of
the range, or stops for want of a free page. -/
theorem map_step {l : List ℕ} (W : WellFormedAt r ram s l) {va pa size attr : ℕ}
    (hadm : Admissible r ram s (.map va pa size attr)) :
    wp (createGuestMapping r va pa size attr) (fun _ s' => WellFormed r ram s' ∧
        absMap s'.mem r = (absMap s.mem r).step (.map va pa size attr) ∧
        ¬ MeetsMapped s.mem r va size)
      (fun e _ => (e = mapUsed ∧ MeetsMapped s.mem r va size) ∨
        (e = walkOom ∧ l.length < 3 * (size / pageSize))) s := by
  obtain ⟨⟨hva, hpa, hsize⟩, hvb, hpb, ha, hpages⟩ := hadm
  have S := W.stage2
  have hmappable : Mappable s r l pa size := fun k hk =>
    ⟨(hpages k hk).1 l S.pool, (hpages k hk).2.1⟩
  refine wp_mono (createGuestMapping_spec S hva hpa hsize hvb hpb ha hmappable) ?_ ?_
  · rintro _ s' ⟨hzero, used, l', hl, _, S', M, _⟩
    have hentry : ∀ ipa, translate s'.mem r ipa = if InRange va size (vpn ipa)
        then some (pa + (vpn ipa - va / pageSize) * pageSize, attr ||| pteAf ||| pteV)
        else translate s.mem r ipa := by
      intro ipa
      have hleaf : leafEntry s'.mem r ipa = if InRange va size (vpn ipa)
          then leafOf (pa + (vpn ipa - va / pageSize) * pageSize) attr
          else leafEntry s.mem r ipa := M.entry ipa
      rw [translate, hleaf]
      by_cases hin : InRange va size (vpn ipa)
      · have hpage : IsPage (pa + (vpn ipa - va / pageSize) * pageSize) := by
          obtain ⟨h1, h2⟩ := hin
          constructor <;> simp only [pageSize] at * <;> omega
        rw [if_pos hin, if_pos hin, decodeLeaf_leafOf hpage ha]
      · rw [if_neg hin, if_neg hin]
        rfl
    refine ⟨⟨l', S', fun p hp => W.free_ram p (hl ▸ List.mem_append_right _ hp), ?_⟩, ?_, ?_⟩
    · intro a b out x y hx hy hram
      rw [hentry] at hx hy
      by_cases hina : InRange va size (vpn a)
      · rw [if_pos hina, Option.some_inj, Prod.mk.injEq] at hx
        by_cases hinb : InRange va size (vpn b)
        · rw [if_pos hinb, Option.some_inj, Prod.mk.injEq] at hy
          obtain ⟨ha1, _⟩ := hina
          obtain ⟨hb1, _⟩ := hinb
          have heq := hx.1.trans hy.1.symm
          simp only [pageSize] at *
          omega
        · rw [if_neg hinb] at hy
          have hk : (vpn a - va / pageSize) * pageSize < size := by
            obtain ⟨h1, h2⟩ := hina
            simp only [pageSize] at *
            omega
          have hno := (hpages _ hk).2.2
          rw [hx.1] at hno
          exact absurd hy (hno hram b y)
      · rw [if_neg hina] at hx
        by_cases hinb : InRange va size (vpn b)
        · rw [if_pos hinb, Option.some_inj, Prod.mk.injEq] at hy
          have hk : (vpn b - va / pageSize) * pageSize < size := by
            obtain ⟨h1, h2⟩ := hinb
            simp only [pageSize] at *
            omega
          have hno := (hpages _ hk).2.2
          rw [hy.1] at hno
          exact absurd hx (hno hram a x)
        · rw [if_neg hinb] at hy
          exact W.once a b out x y hx hy hram
    · funext v
      by_cases hv : v < 2 ^ 36
      · simp only [absMap, hv, if_true, AddrMap.step, hentry, vpn_page hv]
      · have hout : ¬ InRange va size v := by
          simp only [InRange, pageSize] at *
          omega
        simp only [absMap, hv, if_false, AddrMap.step, hout]
    · rintro ⟨k, hk, hne⟩
      exact hne ((S.table.translate_eq_none_iff _).mpr (hzero k hk))
  · intro e s' he
    rcases he with ⟨he, k, hk, hne⟩ | he
    · exact Or.inl ⟨he, k, hk, fun h => hne ((S.table.translate_eq_none_iff _).mp h)⟩
    · exact Or.inr he

/-- **An unmapping call** always returns, with the range removed. -/
theorem unmap_step (h0 : 0 ∉ ram) {l : List ℕ} (W : WellFormedAt r ram s l) {va size : ℕ}
    (hadm : Admissible r ram s (.unmap va size)) :
    wp (pageUnmap r va size) (fun _ s' => WellFormed r ram s' ∧
        absMap s'.mem r = (absMap s.mem r).step (.unmap va size))
      (fun _ _ => False) s := by
  obtain ⟨⟨hva, hsize⟩, hvb, hpages⟩ := hadm
  have S := W.stage2
  have hram : ∀ k, k * pageSize < size →
      leafEntry s.mem r (va + k * pageSize) ≠ 0 ∧
        ptePa (leafEntry s.mem r (va + k * pageSize)) ∈ ram := by
    intro k hk
    obtain ⟨out, x, hout, hmem⟩ := hpages k hk
    have hne : leafEntry s.mem r (va + k * pageSize) ≠ 0 := fun h => by
      rw [(S.table.translate_eq_none_iff _).mpr h] at hout
      cases hout
    rw [S.table.translate_of_ne hne, Option.some_inj, Prod.mk.injEq] at hout
    exact ⟨hne, hout.1 ▸ hmem⟩
  have honce : ∀ k, k * pageSize < size → MappedOnce s.mem r (va + k * pageSize) := by
    intro k hk
    obtain ⟨hne, hmem⟩ := hram k hk
    refine ⟨hne, fun h => h0 (h ▸ hmem), fun ipa a h => ?_⟩
    exact W.once _ _ _ _ _ h (S.table.translate_of_ne hne) hmem
  refine wp_mono (pageUnmap_spec S hva hsize hvb honce) ?_ (fun _ _ h => h)
  rintro _ s' ⟨S', U, _⟩
  have hentry : ∀ ipa, translate s'.mem r ipa =
      if InRange va size (vpn ipa) then none else translate s.mem r ipa := by
    intro ipa
    have hleaf : leafEntry s'.mem r ipa =
        if InRange va size (vpn ipa) then 0 else leafEntry s.mem r ipa := U.entry ipa
    rw [translate, hleaf]
    by_cases hin : InRange va size (vpn ipa)
    · rw [if_pos hin, if_pos hin]
      rfl
    · rw [if_neg hin, if_neg hin]
      rfl
  refine ⟨⟨_, S', ?_, ?_⟩, ?_⟩
  · intro p hp
    rcases List.mem_append.mp hp with hp | hp
    · obtain ⟨k, hk, heq⟩ := mem_outPages.mp (List.mem_reverse.mp hp)
      refine heq ▸ (hram k ?_).2
      simp only [pageSize] at *
      omega
    · exact W.free_ram p hp
  · intro a b out x y hx hy
    rw [hentry] at hx hy
    by_cases hina : InRange va size (vpn a)
    · simp [hina] at hx
    · by_cases hinb : InRange va size (vpn b)
      · simp [hinb] at hy
      · rw [if_neg hina] at hx
        rw [if_neg hinb] at hy
        exact W.once a b out x y hx hy
  · funext v
    by_cases hv : v < 2 ^ 36
    · simp only [absMap, hv, if_true, AddrMap.step, hentry, vpn_page hv]
    · simp only [absMap, hv, if_false, AddrMap.step, ite_self]

/-- Taking a page from the allocator moves no translation. -/
theorem alloc_step {l : List ℕ} (W : WellFormedAt r ram s l) (hadm : Admissible r ram s .alloc) :
    wp allocOnePage (fun _ s' => WellFormed r ram s' ∧ absMap s'.mem r = absMap s.mem r)
      (fun _ _ => False) s := by
  have S := W.stage2
  cases l with
  | nil => exact absurd rfl (hadm [] S.pool)
  | cons n l =>
      refine wp_mono (allocOnePage_cons S.pool) ?_ (fun _ _ h => h)
      rintro _ s' ⟨_, hpool, hmem, _⟩
      have hsame : ∀ p t, TableAt s.mem r p t → Set.EqOn s'.mem s.mem (block t pageSize) :=
        S.eqOn_tables List.mem_cons_self (hmem ▸ eqOn_fill _ _ _ _)
      have htrans : ∀ ipa, translate s'.mem r ipa = translate s.mem r ipa := by
        intro ipa
        rw [translate, translate, leafEntry_frame hsame]
      refine ⟨⟨l, S.frame hpool (fun p hp => List.mem_cons_of_mem _ hp) hsame, ?_, ?_⟩, ?_⟩
      · exact fun p hp => W.free_ram p (List.mem_cons_of_mem _ hp)
      · intro a b out x y hx hy
        exact W.once a b out x y (htrans a ▸ hx) (htrans b ▸ hy)
      · funext v
        simp only [absMap, htrans]

/-- A call that returns is a step of the map. -/
theorem exec_step (h0 : 0 ∉ ram) {op : Stage2Op} {s' : Ram} (W : WellFormed r ram s)
    (hadm : Admissible r ram s op) (hrun : op.exec r s = .ok () s') :
    WellFormed r ram s' ∧ absMap s'.mem r = (absMap s.mem r).step op := by
  obtain ⟨l, W⟩ := W
  cases op with
  | map va pa size attr =>
      obtain ⟨hW, habs, -⟩ := ok_of_wp (map_step W hadm) hrun
      exact ⟨hW, habs⟩
  | unmap va size =>
      have h := ok_of_wp (unmap_step h0 W hadm) hrun
      exact h
  | alloc =>
      have hstep : wp (Stage2Op.alloc.exec r) (fun _ s' => WellFormed r ram s' ∧
          absMap s'.mem r = absMap s.mem r) (fun _ _ => False) s := by
        simp only [Stage2Op.exec, wp_bind, wp_pure]
        exact alloc_step W hadm
      have h := ok_of_wp hstep hrun
      exact h

end step

/-! ## Sequences of calls -/

/-- **The table refines a finite map.**  After any sequence of admissible calls the
table is well formed and stands for what the calls make of the map it stood for.
A further mapping call then returns, setting exactly its range, unless a page of
the range is mapped or a free page is missing for a table; three free pages for
each page of the range are enough.  A further unmapping call returns and removes
exactly its range. -/
theorem stage2_refines {r : ℕ} {ram : Set ℕ} {s s' : Ram} {ops : List Stage2Op} (h0 : 0 ∉ ram)
    (W : WellFormed r ram s) (run : Stage2Run r ram s ops s') :
    WellFormed r ram s' ∧
    absMap s'.mem r = ops.foldl AddrMap.step (absMap s.mem r) ∧
    (∀ va pa size attr, Admissible r ram s' (.map va pa size attr) →
      (∃ t, createGuestMapping r va pa size attr s' = .ok () t ∧ WellFormed r ram t ∧
        absMap t.mem r = (absMap s'.mem r).step (.map va pa size attr) ∧
        ¬ MeetsMapped s'.mem r va size) ∨
      (∃ t, createGuestMapping r va pa size attr s' = .error mapUsed t ∧
        MeetsMapped s'.mem r va size) ∨
      (∃ t, createGuestMapping r va pa size attr s' = .error walkOom t ∧
        ∃ l, s'.Pool l ∧ l.length < 3 * (size / pageSize))) ∧
    (∀ va size, Admissible r ram s' (.unmap va size) →
      ∃ t, pageUnmap r va size s' = .ok () t ∧ WellFormed r ram t ∧
        absMap t.mem r = (absMap s'.mem r).step (.unmap va size)) := by
  have hrun : WellFormed r ram s' ∧ absMap s'.mem r = ops.foldl AddrMap.step (absMap s.mem r) := by
    induction run with
    | nil s => exact ⟨W, rfl⟩
    | cons hadm hexec _ ih =>
        obtain ⟨W', habs⟩ := exec_step h0 W hadm hexec
        rw [List.foldl_cons, ← habs]
        exact ih W'
  obtain ⟨W', habs⟩ := hrun
  obtain ⟨l, Wl⟩ := W'
  refine ⟨⟨l, Wl⟩, habs, ?_, ?_⟩
  · intro va pa size attr hadm
    have hstep := map_step Wl hadm
    cases hx : createGuestMapping r va pa size attr s' with
    | ok a t =>
        have h := ok_of_wp hstep hx
        exact Or.inl ⟨t, rfl, h⟩
    | error e t =>
        rcases error_of_wp hstep hx with ⟨rfl, hmeet⟩ | ⟨rfl, hlen⟩
        · exact Or.inr (Or.inl ⟨t, rfl, hmeet⟩)
        · exact Or.inr (Or.inr ⟨t, rfl, l, Wl.stage2.pool, hlen⟩)
  · intro va size hadm
    obtain ⟨_, t, ht, h⟩ := exists_ok_of_wp (unmap_step h0 Wl hadm)
    exact ⟨t, ht, h⟩

/-- A zeroed root at `0x1000`, with `0x2000`, `0x3000` and `0x4000` on the free list. -/
def threeFree : Ram where
  core := 0
  mem := write64 (write64 (fun _ => 0) 0x2000 0x3000) 0x3000 0x4000
  pages := { lock := .leftBy 0, freelist := 0x2000 }

theorem root_threeFree : ∀ i < 512, read64 threeFree.mem (0x1000 + 8 * i) = 0 := by
  intro i hi
  rw [threeFree, read64_write64_of_disjoint _ (by omega), read64_write64_of_disjoint _ (by omega)]
  exact readLe_eq_zero fun _ _ => rfl

theorem wellFormedAt_threeFree :
    WellFormedAt 0x1000 {0x2000, 0x3000, 0x4000, 0x5000} threeFree [0x2000, 0x3000, 0x4000] := by
  have hzero := root_threeFree
  have hpool : threeFree.Pool [0x2000, 0x3000, 0x4000] := by
    refine ⟨⟨rfl, by decide, ?_⟩, ?_, rfl⟩
    · rw [threeFree, read64_write64_of_disjoint _ (by omega), read64_write64 _ _ (by decide)]
      refine ⟨rfl, by decide, ?_⟩
      rw [read64_write64 _ _ (by decide)]
      refine ⟨rfl, by decide, ?_⟩
      rw [read64_write64_of_disjoint _ (by omega), read64_write64_of_disjoint _ (by omega)]
      exact readLe_eq_zero fun _ _ => rfl
    · intro p hp
      simp only [List.mem_cons, List.not_mem_nil, or_false] at hp
      rcases hp with rfl | rfl | rfl <;> constructor <;> decide
  refine ⟨Stage2.fresh hpool (by constructor <;> decide) (by decide) (by decide) hzero, ?_, ?_⟩
  · intro p hp
    simp only [List.mem_cons, List.not_mem_nil, or_false] at hp
    rcases hp with rfl | rfl | rfl <;> simp
  · intro a b out x y h
    rw [translate_fresh hzero] at h
    cases h

/-- Page `0x5000` mapped at `0x80000000` and unmapped again. -/
theorem stage2_refines_map_unmap : ∃ s', Stage2Run 0x1000 {0x2000, 0x3000, 0x4000, 0x5000}
      threeFree [.map 0x80000000 0x5000 0x1000 0xc4, .unmap 0x80000000 0x1000] s' ∧
    absMap s'.mem 0x1000 = List.foldl AddrMap.step (absMap threeFree.mem 0x1000)
      [.map 0x80000000 0x5000 0x1000 0xc4, .unmap 0x80000000 0x1000] := by
  have W := wellFormedAt_threeFree
  have hzero := root_threeFree
  have hmap : Admissible 0x1000 {0x2000, 0x3000, 0x4000, 0x5000} threeFree
      (.map 0x80000000 0x5000 0x1000 0xc4) := by
    refine ⟨by decide, by decide, by decide, ⟨by decide, by decide⟩, fun k hk => ?_⟩
    have hk0 : k = 0 := by
      simp only [pageSize] at hk
      omega
    subst hk0
    refine ⟨fun l hl => ?_, fun p t ht => ?_, fun _ ipa x => ?_⟩
    · rw [hl.unique W.stage2.pool]
      decide
    · rw [((tableAt_fresh hzero).mp ht).2]
      decide
    · rw [translate_fresh hzero]
      simp
  have hnomeet : ¬ MeetsMapped threeFree.mem 0x1000 0x80000000 0x1000 := by
    rintro ⟨k, _, hne⟩
    exact hne (translate_fresh hzero _)
  obtain ⟨_, t, hexec, W', habs, -⟩ := exists_ok_of_wp (wp_mono (map_step W hmap)
    (fun _ _ h => h) fun _ _ h => h.elim (fun h => hnomeet h.2) fun h => absurd h.2 (by decide))
  have hunmap : Admissible 0x1000 {0x2000, 0x3000, 0x4000, 0x5000} t
      (.unmap 0x80000000 0x1000) := by
    refine ⟨by decide, by decide, fun k hk => ?_⟩
    have hk0 : k = 0 := by
      simp only [pageSize] at hk
      omega
    subst hk0
    refine ⟨0x5000, 0xc4 ||| pteAf ||| pteV, ?_, by simp⟩
    rw [translate_eq_absMap _ _ (by decide), habs]
    rfl
  obtain ⟨l', Wl'⟩ := W'
  obtain ⟨_, t', hexec', -⟩ := exists_ok_of_wp (unmap_step (by simp) Wl' hunmap)
  have run : Stage2Run 0x1000 {0x2000, 0x3000, 0x4000, 0x5000} threeFree
      [.map 0x80000000 0x5000 0x1000 0xc4, .unmap 0x80000000 0x1000] t' :=
    .cons hmap hexec (.cons hunmap hexec' (.nil t'))
  exact ⟨t', run, (stage2_refines (by simp) ⟨_, W⟩ run).2.1⟩

end Xhyper
