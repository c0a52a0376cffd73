import Xhyper.TableWrite

/-!
# Mapping and unmapping

`createGuestMapping` and `pageUnmap` work on a range page by page.  Each round is a
function of its own, `mapPage` and `unmapPage`, with one specification; the two
range specifications are inductions over the rounds.

Mapping stops on a page that is mapped already and for want of free pages, and on
nothing else.  Unmapping frees the page the entry holds, whatever that page is; the
specification of a range asks for pages that are not null, not free and mapped
once, which is what keeps the free list a list of unused pages.

## Main definitions

* `createGuestMapping`, `pageUnmap` — the two operations.
* `leafOf` — the entry a mapping stores.
* `Maps` — the effect of mapping one page.
* `createGuestMapping_spec`, `pageUnmap_spec` — a range.
-/

namespace Xhyper

open Memory Prog Radix

/-! ## The operations -/

/-- The last-level entry for output page `pa` with attributes `attr`. -/
def leafOf (pa attr : ℕ) : ℕ := ptePa pa ||| pteAf ||| attr ||| pteV

/-- One round of `create_guest_mapping`. -/
def mapPage (pgt va pa mattr : ℕ) : Exec Ram Unit := do
  match ← pageWalk pgt va true with
  | none => throw .nullDeref
  | some pte => do
      let e ← load64 pte
      if e &&& pteAf ≠ 0 then
        abort "Page table entry has been used"
      else
        store64 pte (leafOf pa mattr)

/-- `create_guest_mapping`. -/
def createGuestMapping (pgt va pa size mattr : ℕ) : Exec Ram Unit := do
  if va % pageSize ≠ 0 ∨ pa % pageSize ≠ 0 ∨ size % pageSize ≠ 0 then
    abort "Create_guest_mapping with invalid param"
  else do
    let _ ← forRange pageSize 0 size fun p =>
      mapPage pgt ((va + p) % 2 ^ 64) ((pa + p) % 2 ^ 64) mattr

/-- One round of `page_unmap`. -/
def unmapPage (pgt va : ℕ) : Exec Ram Unit := do
  match ← pageWalk pgt va false with
  | none => throw .nullDeref
  | some pte => do
      let e ← load64 pte
      if e = 0 then
        abort "Page already unmapped"
      else do
        freeOnePage (ptePa e)
        store64 pte 0

/-- `page_unmap`. -/
def pageUnmap (pgt va size : ℕ) : Exec Ram Unit := do
  if va % pageSize ≠ 0 ∨ size % pageSize ≠ 0 then
    abort "Page_unmap with invalid param"
  else do
    let _ ← forRange pageSize 0 size fun p => unmapPage pgt ((va + p) % 2 ^ 64)

/-! ## The entry a mapping stores -/

/-- Attributes that leave the address field alone. -/
structure IsAttr (attr : ℕ) : Prop where
  bound : attr < 2 ^ 64
  apart : attr &&& paMask = 0

theorem ptePa_leafOf {pa attr : ℕ} (hpa : IsPage pa) (ha : IsAttr attr) :
    ptePa (leafOf pa attr) = pa := by
  have haf : ptePa pteAf = 0 := rfl
  have hv : ptePa pteV = 0 := rfl
  have hattr : ptePa attr = 0 := ha.apart
  simp only [leafOf, ptePa_or, ptePa_of_isPage hpa, haf, hv, hattr, Nat.or_zero]

theorem leafOf_lt (pa : ℕ) {attr : ℕ} (ha : IsAttr attr) : leafOf pa attr < 2 ^ 64 := by
  have haf : pteAf < 2 ^ 64 := by decide
  have hv : pteV < 2 ^ 64 := by decide
  exact Nat.or_lt_two_pow (Nat.or_lt_two_pow (Nat.or_lt_two_pow (ptePa_lt pa) haf) ha.bound) hv

/-- A number made by setting bits has them. -/
theorem or_and_self (a b : ℕ) : (a ||| b) &&& b = b := by
  apply Nat.eq_of_testBit_eq
  intro i
  simp only [Nat.testBit_and, Nat.testBit_or]
  cases a.testBit i <;> cases b.testBit i <;> rfl

theorem isLeaf_leafOf (pa attr : ℕ) : IsLeaf (leafOf pa attr) := by
  refine ⟨or_and_self _ _, ?_⟩
  rw [leafOf, Nat.or_assoc, Nat.and_or_distrib_right, or_and_self]
  intro h
  have := (Nat.or_eq_zero_iff.mp h).1
  norm_num at this

theorem IsLeaf.ne_zero {e : ℕ} (h : IsLeaf e) : e ≠ 0 := by
  intro he
  rw [he] at h
  exact h.2 rfl

theorem decodeLeaf_of_isLeaf {e : ℕ} (h : IsLeaf e) : decodeLeaf e = some (ptePa e, pteAttr e) :=
  if_pos h.1

/-- The attributes read back are the ones given, with the bits every mapping sets. -/
theorem pteAttr_leafOf {pa attr : ℕ} (ha : IsAttr attr) :
    pteAttr (leafOf pa attr) = attr ||| pteAf ||| pteV := by
  have hor : ∀ a b, pteAttr (a ||| b) = pteAttr a ||| pteAttr b := fun a b =>
    Nat.and_or_distrib_right a b _
  have haf : pteAttr pteAf = pteAf := rfl
  have hv : pteAttr pteV = pteV := rfl
  have hpa : pteAttr (ptePa pa) = 0 := by
    rw [pteAttr, ptePa, Nat.and_assoc]
    exact Nat.and_zero _
  have hattr : pteAttr attr = attr := by
    have hsplit : attr &&& (paMask ||| 0xFFFF000000000FFF) = attr := by
      rw [show paMask ||| 0xFFFF000000000FFF = 2 ^ 64 - 1 by rfl,
        Nat.and_two_pow_sub_one_eq_mod, Nat.mod_eq_of_lt ha.bound]
    rwa [Nat.and_or_distrib_left, ha.apart, Nat.zero_or] at hsplit
  rw [leafOf, hor, hor, hor, hpa, haf, hv, hattr, Nat.zero_or, Nat.or_comm pteAf attr]

/-- **What a mapping's entry means.** -/
theorem decodeLeaf_leafOf {pa attr : ℕ} (hpa : IsPage pa) (ha : IsAttr attr) :
    decodeLeaf (leafOf pa attr) = some (pa, attr ||| pteAf ||| pteV) := by
  rw [decodeLeaf_of_isLeaf (isLeaf_leafOf pa attr), ptePa_leafOf hpa ha, pteAttr_leafOf ha]

/-- In a well-formed table an entry is zero or means something. -/
theorem Table.leafEntry_cases {m : Mem} {r : ℕ} (T : Table m r) (ipa : ℕ) :
    leafEntry m r ipa = 0 ∨ IsLeaf (leafEntry m r ipa) := by
  cases h : follow (child m) r (tablePath ipa) with
  | none => exact Or.inl (leafEntry_of_none h)
  | some t =>
      have ht := (tableAt_tablePath m r ipa t).mpr h
      rw [leafEntry_of_tableAt ht]
      exact T.leaf _ t _ ht (by simp [tablePath]) (pindex_lt 3 ipa)

theorem Table.translate_eq_none_iff {m : Mem} {r : ℕ} (T : Table m r) (ipa : ℕ) :
    translate m r ipa = none ↔ leafEntry m r ipa = 0 := by
  rcases T.leafEntry_cases ipa with h | h
  · simp [translate, h]
  · simp [translate, decodeLeaf_of_isLeaf h, h.ne_zero]

theorem Table.translate_of_ne {m : Mem} {r : ℕ} (T : Table m r) {ipa : ℕ}
    (h : leafEntry m r ipa ≠ 0) :
    translate m r ipa = some (ptePa (leafEntry m r ipa), pteAttr (leafEntry m r ipa)) :=
  decodeLeaf_of_isLeaf ((T.leafEntry_cases ipa).resolve_left h)

/-- An output page is a page. -/
theorem translate_isPage {m : Mem} {r ipa out a : ℕ} (h : translate m r ipa = some (out, a)) :
    IsPage out := by
  simp only [translate, decodeLeaf] at h
  by_cases hv : leafEntry m r ipa &&& pteV = pteV
  · simp only [hv, if_true, Option.some_inj, Prod.mk.injEq] at h
    exact h.1 ▸ ptePa_isPage _
  · simp [hv] at h

/-! ## One page -/

/-- The message of a mapping that meets a mapped page. -/
abbrev mapUsed : Fault := .abort "Page table entry has been used"

/-- What mapping the page of `va` to `pa` does to memory. -/
structure Maps (m m' : Mem) (r va pa attr : ℕ) (used : List ℕ) : Prop where
  old : ∀ p t, TableAt m r p t → TableAt m' r p t
  new : ∀ p t, TableAt m' r p t → TableAt m r p t ∨ (t ∈ used ∧ p <+: tablePath va)
  entry : ∀ ipa, leafEntry m' r ipa =
    if vpn ipa = vpn va then leafOf pa attr else leafEntry m r ipa
  frame : ∀ x, (∀ p t, TableAt m' r p t → x ∉ block t pageSize) → m' x = m x

/-- The page is mapped, and every other page as before. -/
theorem Maps.translate {m m' : Mem} {r va pa attr : ℕ} {used : List ℕ}
    (M : Maps m m' r va pa attr used) (hpa : IsPage pa) (ha : IsAttr attr) (ipa : ℕ) :
    translate m' r ipa =
      if vpn ipa = vpn va then some (pa, attr ||| pteAf ||| pteV) else translate m r ipa := by
  rw [Xhyper.translate, M.entry]
  by_cases hv : vpn ipa = vpn va
  · simp only [hv, if_true, decodeLeaf_leafOf hpa ha]
  · simp only [hv, if_false, Xhyper.translate]

/-- Mapping one page. -/
theorem mapPage_spec {s : Ram} {r va pa attr : ℕ} {l : List ℕ} (S : Stage2 s r l)
    (hpa : IsPage pa) (ha : IsAttr attr) (hfree : pa ∉ l)
    (htab : ∀ p t, TableAt s.mem r p t → t ≠ pa) :
    wp (mapPage r va pa attr) (fun _ s' => leafEntry s.mem r va = 0 ∧ ∃ used l',
        l = used ++ l' ∧ used.length ≤ 3 ∧ Stage2 s' r l' ∧
        Maps s.mem s'.mem r va pa attr used ∧ s'.core = s.core)
      (fun e _ => (e = mapUsed ∧ leafEntry s.mem r va ≠ 0) ∨ (e = walkOom ∧ l.length < 3)) s := by
  simp only [mapPage, wp_bind]
  refine wp_mono (pageWalk_alloc S) ?_ fun _ _ h =>
    Or.inr ⟨h.1, h.2.trans_le (missing_le _ _ _ _)⟩
  rintro res s₁ ⟨u, used, l', hres, hl, hlen, S₁, X, hu, hcore⟩
  subst hres
  have hleaf : read64 s₁.mem (u + 8 * pindex 3 va) = leafEntry s.mem r va := by
    rw [← X.entry va, leafEntry_of_tableAt hu]
  simp only [wp_bind, wp_load64, wp_ite, hleaf, wp_abort, wp_store64]
  refine ⟨fun haf => Or.inl ⟨trivial, fun h0 => haf (by rw [h0]; rfl)⟩, fun haf => ?_⟩
  have h0 : leafEntry s.mem r va = 0 :=
    (S.table.leafEntry_cases va).resolve_right fun hlf => haf hlf.2
  have hT := S₁.table.setLeaf hu (leafOf_lt pa ha) (Or.inr (isLeaf_leafOf pa attr))
  have hentry := leafEntry_setLeaf S₁.table hu (leafOf_lt pa ha)
  have htab₂ := tableAt_setLeaf (e := leafOf pa attr) S₁.table hu
  have hframe : ∀ x, x ∉ block u pageSize →
      write64 s₁.mem (u + 8 * pindex 3 va) (leafOf pa attr) x = s₁.mem x :=
    fun x hx => setLeaf_of_notMem hx
  have hul' : u ∉ l' := S₁.table_used _ u hu
  generalize write64 s₁.mem (u + 8 * pindex 3 va) (leafOf pa attr) = m₂ at *
  have htrans : ∀ ipa, translate m₂ r ipa =
      if vpn ipa = vpn va then some (pa, attr ||| pteAf ||| pteV)
      else translate s₁.mem r ipa := by
    intro ipa
    rw [translate, hentry]
    by_cases hv : vpn ipa = vpn va
    · simp only [hv, if_true, decodeLeaf_leafOf hpa ha]
    · simp only [hv, if_false, translate]
  refine ⟨h0, used, l', hl, hlen, ⟨?_, hT, ?_, ?_, ?_⟩, ⟨?_, ?_, ?_, ?_⟩, hcore⟩
  · refine S₁.pool.frame rfl fun q hq x hx => hframe x fun hxu => hul' ?_
    rwa [← page_disjoint (S₁.pool.page q hq).aligned (S₁.table.isPage hu).aligned hx hxu]
  · exact fun p t ht => S₁.table_used p t ((htab₂ p t).mp ht)
  · intro ipa out a hout
    rw [htrans] at hout
    by_cases hv : vpn ipa = vpn va
    · rw [if_pos hv, Option.some_inj, Prod.mk.injEq] at hout
      rw [← hout.1]
      exact fun h => hfree (hl ▸ List.mem_append_right _ h)
    · rw [if_neg hv] at hout
      exact S₁.out_used ipa out a hout
  · intro ipa out a p t hout ht
    have ht₁ := (htab₂ p t).mp ht
    rw [htrans] at hout
    by_cases hv : vpn ipa = vpn va
    · rw [if_pos hv, Option.some_inj, Prod.mk.injEq] at hout
      rw [← hout.1]
      rcases X.new p t ht₁ with hold | ⟨hmem, -⟩
      · exact htab p t hold
      · exact fun heq => hfree (hl ▸ List.mem_append_left _ (heq ▸ hmem))
    · rw [if_neg hv] at hout
      exact S₁.out_apart ipa out a p t hout ht₁
  · exact fun p t ht => (htab₂ p t).mpr (X.old p t ht)
  · exact fun p t ht => X.new p t ((htab₂ p t).mp ht)
  · intro ipa
    rw [hentry ipa, X.entry ipa]
  · intro x hx
    rw [hframe x (hx _ u ((htab₂ _ u).mpr hu))]
    exact X.frame x fun p t ht => hx p t ((htab₂ p t).mpr ht)

/-! ## A range of pages -/

/-- Page `k` after the page of `va`. -/
theorem vpn_add {va k : ℕ} (hva : va % pageSize = 0) (hb : va + k * pageSize < 2 ^ 48) :
    vpn (va + k * pageSize) = va / pageSize + k := by
  simp only [vpn, pageSize] at *
  omega

/-- What mapping `n` pages from `va` to the `n` pages from `pa` does to memory. -/
structure MapsRange (m m' : Mem) (r va pa attr n : ℕ) (used : List ℕ) : Prop where
  old : ∀ p t, TableAt m r p t → TableAt m' r p t
  new : ∀ p t, TableAt m' r p t → TableAt m r p t ∨ t ∈ used
  entry : ∀ ipa, leafEntry m' r ipa =
    if va / pageSize ≤ vpn ipa ∧ vpn ipa < va / pageSize + n
    then leafOf (pa + (vpn ipa - va / pageSize) * pageSize) attr
    else leafEntry m r ipa

section range
variable {s : Ram} {r va pa size attr : ℕ} {l : List ℕ}

/-- Pages that may be mapped: not free and not tables. -/
def Mappable (s : Ram) (r : ℕ) (l : List ℕ) (pa size : ℕ) : Prop :=
  ∀ k, k * pageSize < size →
    pa + k * pageSize ∉ l ∧ ∀ p t, TableAt s.mem r p t → t ≠ pa + k * pageSize

/-- **Mapping a range.**  It stops on a mapped page of the range, or with fewer
than three free pages for each page of the range, and on nothing else. -/
theorem createGuestMapping_spec (S : Stage2 s r l) (hva : va % pageSize = 0)
    (hpa : pa % pageSize = 0) (hsize : size % pageSize = 0) (hvb : va + size ≤ 2 ^ 48)
    (hpb : pa + size ≤ 2 ^ 48) (ha : IsAttr attr) (hm : Mappable s r l pa size) :
    wp (createGuestMapping r va pa size attr) (fun _ s' =>
        (∀ k, k * pageSize < size → leafEntry s.mem r (va + k * pageSize) = 0) ∧
        ∃ used l', l = used ++ l' ∧ used.length ≤ 3 * (size / pageSize) ∧ Stage2 s' r l' ∧
        MapsRange s.mem s'.mem r va pa attr (size / pageSize) used ∧ s'.core = s.core)
      (fun e _ => (e = mapUsed ∧
          ∃ k, k * pageSize < size ∧ leafEntry s.mem r (va + k * pageSize) ≠ 0) ∨
        (e = walkOom ∧ l.length < 3 * (size / pageSize))) s := by
  have hpar : ¬ (va % pageSize ≠ 0 ∨ pa % pageSize ≠ 0 ∨ size % pageSize ≠ 0) := by
    simp [hva, hpa, hsize]
  simp only [createGuestMapping, hpar, if_false, wp_bind]
  refine wp_forRange (fun k s' =>
      (∀ j < k, leafEntry s.mem r (va + j * pageSize) = 0) ∧
      ∃ used l', l = used ++ l' ∧ used.length ≤ 3 * k ∧ Stage2 s' r l' ∧
        MapsRange s.mem s'.mem r va pa attr k used ∧ s'.core = s.core) (by decide) ?_ ?_ ?_
  · rintro k t hk ⟨hzero, used, l', hl, hlen, S', M, hcore⟩
    simp only [Nat.zero_add] at hk ⊢
    have hva64 : (va + k * pageSize) % 2 ^ 64 = va + k * pageSize := by
      simp only [pageSize] at *; omega
    have hpa64 : (pa + k * pageSize) % 2 ^ 64 = pa + k * pageSize := by
      simp only [pageSize] at *; omega
    have hpage : IsPage (pa + k * pageSize) := by
      constructor <;> simp only [pageSize] at * <;> omega
    have hv : vpn (va + k * pageSize) = va / pageSize + k := vpn_add hva (by omega)
    have hold : leafEntry t.mem r (va + k * pageSize) = leafEntry s.mem r (va + k * pageSize) := by
      rw [M.entry, if_neg]
      omega
    have hnotfree : pa + k * pageSize ∉ l' := fun h =>
      (hm k hk).1 (hl ▸ List.mem_append_right _ h)
    have hnottab : ∀ p u, TableAt t.mem r p u → u ≠ pa + k * pageSize := by
      intro p u hu
      rcases M.new p u hu with hu | hu
      · exact (hm k hk).2 p u hu
      · exact fun heq => (hm k hk).1 (hl ▸ List.mem_append_left _ (heq ▸ hu))
    rw [hva64, hpa64]
    refine wp_mono (mapPage_spec S' hpage ha hnotfree hnottab) ?_ ?_
    · rintro _ t' ⟨h0, used', l'', hl', hlen', S'', M', hcore'⟩
      refine ⟨?_, used ++ used', l'', by rw [hl, hl', List.append_assoc], ?_, S'', ?_,
        hcore'.trans hcore⟩
      · intro j hj
        rcases Nat.lt_succ_iff_lt_or_eq.mp hj with hj | rfl
        · exact hzero j hj
        · rw [← hold, h0]
      · simp only [List.length_append]
        omega
      · refine ⟨fun p u hu => M'.old p u (M.old p u hu), ?_, ?_⟩
        · intro p u hu
          rcases M'.new p u hu with hu | ⟨hu, -⟩
          · exact (M.new p u hu).imp_right (List.mem_append_left _)
          · exact Or.inr (List.mem_append_right _ hu)
        · intro ipa
          rw [M'.entry, hv, M.entry]
          by_cases heq : vpn ipa = va / pageSize + k
          · rw [if_pos heq, if_pos (by omega), heq, Nat.add_sub_cancel_left]
          · rw [if_neg heq]
            by_cases hin : va / pageSize ≤ vpn ipa ∧ vpn ipa < va / pageSize + k
            · rw [if_pos hin, if_pos (by omega)]
            · rw [if_neg hin, if_neg (by omega)]
    · intro e t' he
      rcases he with ⟨he, hne⟩ | ⟨he, hlt⟩
      · exact Or.inl ⟨he, k, hk, hold ▸ hne⟩
      · refine Or.inr ⟨he, ?_⟩
        have hlsum := congrArg List.length hl
        simp only [List.length_append, pageSize] at *
        omega
  · refine ⟨fun j hj => absurd hj (Nat.not_lt_zero j), [], l, rfl, by simp, S,
      ⟨fun _ _ h => h, fun _ _ h => Or.inl h, fun ipa => ?_⟩, rfl⟩
    rw [if_neg (by omega)]
  · rintro k t hk ⟨hzero, used, l', hl, hlen, S', M, hcore⟩
    have hkeq : k = size / pageSize := by
      simp only [pageSize] at *
      omega
    subst hkeq
    refine ⟨fun j hj => hzero j ?_, used, l', hl, hlen, S', M, hcore⟩
    simp only [pageSize] at *
    omega

end range

/-! ## Unmapping -/

/-- What clearing the entry of `va` does to memory, whatever becomes of the page
`out` that it held. -/
structure Unmaps (m m' : Mem) (r va out : ℕ) : Prop where
  table : Table m' r
  tables : ∀ p t, TableAt m' r p t ↔ TableAt m r p t
  entry : ∀ ipa, leafEntry m' r ipa = if vpn ipa = vpn va then 0 else leafEntry m r ipa
  frame : ∀ x, (∀ p t, TableAt m r p t → x ∉ block t pageSize) → x ∉ block out pageSize →
    m' x = m x

/-- A page that is mapped has a last-level table. -/
theorem exists_tableAt_of_leafEntry {m : Mem} {r va : ℕ} (h : leafEntry m r va ≠ 0) :
    ∃ u, TableAt m r (tablePath va) u ∧ read64 m (u + 8 * pindex 3 va) = leafEntry m r va := by
  cases hf : follow (child m) r (tablePath va) with
  | none => exact absurd (leafEntry_of_none hf) h
  | some u =>
      have hu := (tableAt_tablePath m r va u).mpr hf
      exact ⟨u, hu, (leafEntry_of_tableAt hu).symm⟩

/-- Unmapping a mapped page frees the page and clears the entry. -/
theorem wp_unmapPage {s : Ram} {r va u : ℕ} {Q : Unit → Ram → Prop} {E : Fault → Ram → Prop}
    (hu : TableAt s.mem r (tablePath va) u) (h : leafEntry s.mem r va ≠ 0) :
    wp (unmapPage r va) Q E s ↔
      wp (freeOnePage (ptePa (leafEntry s.mem r va))) (fun _ s₁ =>
        Q () { s₁ with mem := write64 s₁.mem (u + 8 * pindex 3 va) 0 }) E s := by
  rw [leafEntry_of_tableAt hu] at h ⊢
  simp only [unmapPage, wp_bind, wp_pageWalk_false, pteAt, hu.walk, Option.map_some, wp_load64, h,
    if_false, wp_store64]

/-- Clearing an entry after the page it held was rewritten. -/
theorem unmaps_of_eqOn {m m₁ : Mem} {r va u out : ℕ} (T : Table m r)
    (hu : TableAt m r (tablePath va) u) (hout : IsPage out)
    (hap : ∀ p t, TableAt m r p t → t ≠ out)
    (hm : Set.EqOn m₁ m (block out pageSize)ᶜ) :
    Unmaps m (write64 m₁ (u + 8 * pindex 3 va) 0) r va out := by
  have hsame : ∀ p t, TableAt m r p t → Set.EqOn m₁ m (block t pageSize) := by
    intro p t ht x hx
    exact hm fun hxo => hap p t ht (page_disjoint (T.isPage ht).aligned hout.aligned hx hxo)
  have T₁ := T.frame hsame
  have hu₁ := (tableAt_frame hsame _ u).mpr hu
  refine ⟨T₁.setLeaf hu₁ (by norm_num) (Or.inl rfl), fun p t => ?_, fun ipa => ?_, ?_⟩
  · rw [tableAt_setLeaf T₁ hu₁, tableAt_frame hsame]
  · rw [leafEntry_setLeaf T₁ hu₁ (by norm_num), leafEntry_frame hsame]
  · intro x hx hxo
    rw [setLeaf_of_notMem (hx _ u hu)]
    exact hm hxo

/-- **Unmapping one page** that is mapped there only gives it back to the pool. -/
theorem unmapPage_spec {s : Ram} {r va : ℕ} {l : List ℕ} {E : Fault → Ram → Prop}
    (S : Stage2 s r l) (h : leafEntry s.mem r va ≠ 0)
    (hne : ptePa (leafEntry s.mem r va) ≠ 0)
    (honce : ∀ ipa a, translate s.mem r ipa = some (ptePa (leafEntry s.mem r va), a) →
      vpn ipa = vpn va) :
    wp (unmapPage r va) (fun _ s' => Stage2 s' r (ptePa (leafEntry s.mem r va) :: l) ∧
      Unmaps s.mem s'.mem r va (ptePa (leafEntry s.mem r va)) ∧ s'.core = s.core) E s := by
  obtain ⟨u, hu, -⟩ := exists_tableAt_of_leafEntry h
  have htr := S.table.translate_of_ne h
  generalize hout : ptePa (leafEntry s.mem r va) = out at *
  have hpage : IsPage out := translate_isPage htr
  have hnew : out ∉ l := S.out_used va out _ htr
  have hap : ∀ p t, TableAt s.mem r p t → t ≠ out := fun p t => S.out_apart va out _ p t htr
  rw [wp_unmapPage hu h, hout]
  refine wp_mono (freeOnePage_spec S.pool hpage hne hnew) ?_ (fun _ _ h => h)
  rintro _ s₁ ⟨hpool, hmem, hcore⟩
  have U := unmaps_of_eqOn S.table hu hpage hap hmem
  have hframe : ∀ x, x ∉ block u pageSize →
      write64 s₁.mem (u + 8 * pindex 3 va) 0 x = s₁.mem x := fun x hx => setLeaf_of_notMem hx
  generalize write64 s₁.mem (u + 8 * pindex 3 va) 0 = m₂ at *
  have htrans : ∀ ipa out' a, translate m₂ r ipa = some (out', a) →
      translate s.mem r ipa = some (out', a) ∧ vpn ipa ≠ vpn va := by
    intro ipa out' a h'
    rw [translate, U.entry] at h'
    by_cases hv : vpn ipa = vpn va
    · simp [hv] at h'
    · rw [if_neg hv] at h'
      exact ⟨h', hv⟩
  refine ⟨⟨?_, U.table, ?_, ?_, ?_⟩, U, hcore⟩
  · refine hpool.frame rfl fun q hq x hx => hframe x fun hxu => ?_
    have hqu : q = u :=
      page_disjoint (hpool.page q hq).aligned (S.table.isPage hu).aligned hx hxu
    rcases List.mem_cons.mp hq with heq | hq
    · exact hap _ u hu (hqu ▸ heq)
    · exact S.table_used _ u hu (hqu ▸ hq)
  · intro p t ht hmemb
    have hold := (U.tables p t).mp ht
    rcases List.mem_cons.mp hmemb with heq | hmemb
    · exact hap p t hold heq
    · exact S.table_used p t hold hmemb
  · intro ipa out' a h' hmemb
    obtain ⟨hold, hv⟩ := htrans ipa out' a h'
    rcases List.mem_cons.mp hmemb with heq | hmemb
    · exact hv (honce ipa a (heq ▸ hold))
    · exact S.out_used ipa out' a hold hmemb
  · intro ipa out' a p t h' ht
    exact S.out_apart ipa out' a p t (htrans ipa out' a h').1 ((U.tables p t).mp ht)

/-- The pages that the first `n` pages from `va` are mapped to. -/
def outPages (m : Mem) (r va n : ℕ) : List ℕ :=
  (List.range n).map fun k => ptePa (leafEntry m r (va + k * pageSize))

theorem mem_outPages {m : Mem} {r va n out : ℕ} :
    out ∈ outPages m r va n ↔ ∃ k < n, ptePa (leafEntry m r (va + k * pageSize)) = out := by
  simp [outPages]

/-- What clearing the entries of `n` pages from `va` does to memory. -/
structure UnmapsRange (m m' : Mem) (r va n : ℕ) : Prop where
  tables : ∀ p t, TableAt m' r p t ↔ TableAt m r p t
  entry : ∀ ipa, leafEntry m' r ipa =
    if va / pageSize ≤ vpn ipa ∧ vpn ipa < va / pageSize + n then 0 else leafEntry m r ipa

namespace UnmapsRange

variable {m m' m'' : Mem} {r va k : ℕ}

theorem zero (m : Mem) (r va : ℕ) : UnmapsRange m m r va 0 :=
  ⟨fun _ _ => Iff.rfl, fun ipa => by rw [if_neg (by omega)]⟩

/-- The page behind the range is as it was. -/
theorem entry_next (U : UnmapsRange m m' r va k) (hva : va % pageSize = 0)
    (hb : va + k * pageSize < 2 ^ 48) :
    leafEntry m' r (va + k * pageSize) = leafEntry m r (va + k * pageSize) := by
  rw [U.entry, vpn_add hva hb, if_neg]
  omega

/-- One page more. -/
theorem next {out : ℕ} (U : UnmapsRange m m' r va k) (hva : va % pageSize = 0)
    (hb : va + k * pageSize < 2 ^ 48) (U' : Unmaps m' m'' r (va + k * pageSize) out) :
    UnmapsRange m m'' r va (k + 1) := by
  refine ⟨fun p u => (U'.tables p u).trans (U.tables p u), fun ipa => ?_⟩
  rw [U'.entry, vpn_add hva hb, U.entry]
  by_cases heq : vpn ipa = va / pageSize + k
  · rw [if_pos heq, if_pos (by omega)]
  · rw [if_neg heq]
    by_cases hin : va / pageSize ≤ vpn ipa ∧ vpn ipa < va / pageSize + k
    · rw [if_pos hin, if_pos (by omega)]
    · rw [if_neg hin, if_neg (by omega)]

end UnmapsRange

/-- A mapped page that is not null and is mapped nowhere else. -/
def MappedOnce (m : Mem) (r va : ℕ) : Prop :=
  leafEntry m r va ≠ 0 ∧ ptePa (leafEntry m r va) ≠ 0 ∧
    ∀ ipa a, translate m r ipa = some (ptePa (leafEntry m r va), a) → vpn ipa = vpn va

/-- **Unmapping a range** of pages each mapped once returns them to the pool. -/
theorem pageUnmap_spec {s : Ram} {r va size : ℕ} {l : List ℕ} {E : Fault → Ram → Prop}
    (S : Stage2 s r l) (hva : va % pageSize = 0) (hsize : size % pageSize = 0)
    (hvb : va + size ≤ 2 ^ 48)
    (honce : ∀ k, k * pageSize < size → MappedOnce s.mem r (va + k * pageSize)) :
    wp (pageUnmap r va size) (fun _ s' =>
        Stage2 s' r ((outPages s.mem r va (size / pageSize)).reverse ++ l) ∧
        UnmapsRange s.mem s'.mem r va (size / pageSize) ∧ s'.core = s.core) E s := by
  have hpar : ¬ (va % pageSize ≠ 0 ∨ size % pageSize ≠ 0) := by simp [hva, hsize]
  simp only [pageUnmap, hpar, if_false, wp_bind]
  refine wp_forRange (fun k s' => Stage2 s' r ((outPages s.mem r va k).reverse ++ l) ∧
    UnmapsRange s.mem s'.mem r va k ∧ s'.core = s.core) (by decide) ?_ ?_ ?_
  · rintro k t hk ⟨S', U, hcore⟩
    simp only [Nat.zero_add] at hk ⊢
    have hva64 : (va + k * pageSize) % 2 ^ 64 = va + k * pageSize := by
      simp only [pageSize] at *; omega
    have hb : va + k * pageSize < 2 ^ 48 := by omega
    have hold := U.entry_next hva hb
    obtain ⟨h0, hne, hon⟩ := honce k hk
    rw [hva64]
    refine wp_mono (unmapPage_spec S' (by rw [hold]; exact h0) (by rw [hold]; exact hne) ?_) ?_
      (fun _ _ h => h)
    · intro ipa a h
      rw [hold, translate, U.entry] at h
      by_cases hin : va / pageSize ≤ vpn ipa ∧ vpn ipa < va / pageSize + k
      · simp [hin] at h
      · rw [if_neg hin] at h
        exact hon ipa a h
    · rintro _ t' ⟨S'', U', hcore'⟩
      refine ⟨?_, U.next hva hb U', hcore'.trans hcore⟩
      rw [hold] at S''
      have houts : (outPages s.mem r va (k + 1)).reverse ++ l
          = ptePa (leafEntry s.mem r (va + k * pageSize)) ::
            ((outPages s.mem r va k).reverse ++ l) := by
        simp [outPages, List.range_succ]
      exact houts ▸ S''
  · exact ⟨by simpa [outPages] using S, .zero s.mem r va, rfl⟩
  · intro k t hk h
    have hkeq : k = size / pageSize := by
      simp only [pageSize] at *
      omega
    exact hkeq ▸ h

end Xhyper
