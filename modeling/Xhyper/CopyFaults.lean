import Xhyper.CopyToIpa
import Xhyper.Stage2Map

/-!
# Addresses that are not mapped

`ipa_to_pa` adds the offset of an address in its page to what the last-level entry holds.
Zero is its failure value: the sum is zero when the page's table is missing, and when the
entry is empty and the offset is zero.  Inside an unmapped page whose table is there it is
the offset, which does not look like a failure (`Seen`).

`copy_to_ipa` looks up the first byte of every page it copies to.  From the second page on
these are page addresses, so only the first page of a range can be missed.

## Main definitions

* `WellPlaced` — no mapped page is a table or the null page.
* `Seen` — an address whose lookup tells whether it is mapped.
* `copyToIpa_exact` — a copy to a range that is mapped.
* `translation_failure` — when an unmapped page is noticed.
-/

namespace Xhyper

open Memory Prog Radix

/-! ## Where a table maps to -/

/-- A well-formed table whose mapped pages are neither tables nor the null page. -/
structure WellPlaced (m : Mem) (r : ℕ) : Prop where
  table : Table m r
  tables : ∀ ipa out a p t, translate m r ipa = some (out, a) → TableAt m r p t → t ≠ out
  ne_zero : ∀ ipa out a, translate m r ipa = some (out, a) → out ≠ 0

theorem WellPlaced.frame {m m' : Mem} {r : ℕ} (W : WellPlaced m r)
    (h : ∀ p t, TableAt m r p t → Set.EqOn m' m (block t pageSize)) : WellPlaced m' r := by
  refine ⟨W.table.frame h, fun ipa out a p t hout ht => ?_, fun ipa out a hout => ?_⟩
  · rw [translate, leafEntry_frame h] at hout
    exact W.tables ipa out a p t hout ((tableAt_frame h p t).mp ht)
  · rw [translate, leafEntry_frame h] at hout
    exact W.ne_zero ipa out a hout

/-- A table that maps one page, at `0x80000000`. -/
theorem exists_mappedPage : ∃ (s : Ram) (a : ℕ), WellPlaced s.mem 0x1000 ∧
    ∀ ipa, translate s.mem 0x1000 ipa =
      if vpn ipa = vpn 0x80000000 then some (0x5000, a) else none := by
  have S := wellFormedAt_threeFree.stage2
  have hzero := root_threeFree
  have hpage : IsPage 0x5000 := by constructor <;> decide
  have hattr : IsAttr 0xc4 := by constructor <;> decide
  have hmap := @mapPage_spec _ _ 0x80000000 _ _ _ S hpage hattr (by decide) fun p t ht => by
    rw [((tableAt_fresh hzero).mp ht).2]
    decide
  obtain ⟨_, s, _, h0, used, l', _, _, S', M, _⟩ := returns_of_wp hmap fun e s' h => by
    rcases h with ⟨_, hne⟩ | ⟨_, hlen⟩
    · exact hne ((S.table.translate_eq_none_iff _).mp (translate_fresh hzero _))
    · exact absurd hlen (by decide)
  have htrans : ∀ ipa, translate s.mem 0x1000 ipa =
      if vpn ipa = vpn 0x80000000 then some (0x5000, 0xc4 ||| pteAf ||| pteV) else none := by
    intro ipa
    rw [M.translate hpage hattr, translate_fresh hzero]
  refine ⟨s, _, ⟨S'.table, S'.out_apart, fun ipa out a hout => ?_⟩, htrans⟩
  rw [htrans] at hout
  by_cases hv : vpn ipa = vpn 0x80000000
  · rw [if_pos hv, Option.some_inj, Prod.mk.injEq] at hout
    rw [← hout.1]
    decide
  · rw [if_neg hv] at hout
    cases hout

/-! ## A range that is mapped -/

/-- **A copy is exact.**  It returns, byte `i` of the source is where `dst + i` is mapped, and
every byte of memory that the range does not stand for is unchanged. -/
theorem copyToIpa_exact {s : Ram} {r dst src len : ℕ} (T : Table s.mem r)
    (W : Scattered s.mem r dst src len) :
    ∃ s', copyToIpa r dst src len s = .ok () s' ∧ s' = { s with mem := s'.mem } ∧
      (∀ i < len, ∃ x, ipaPa s'.mem r (dst + i) = some x ∧ s'.mem x = s.mem (src + i)) ∧
      ∀ x, (∀ i < len, ipaPa s.mem r (dst + i) ≠ some x) → s'.mem x = s.mem x := by
  obtain ⟨_, s', hexec, hs', C⟩ := exists_ok_of_wp (copyToIpa_scattered T W)
  refine ⟨s', hexec, hs', fun i hi => ?_, C.frame⟩
  obtain ⟨out, a, hout, _⟩ := W.mapped i hi
  have hpa : ipaPa s.mem r (dst + i) = some (out + (dst + i) % pageSize) :=
    ipaPa_eq_some.mpr ⟨out, a, hout, rfl⟩
  refine ⟨_, ?_, C.byte i hi _ hpa⟩
  rw [← hpa, ipaPa, ipaPa, translate, translate, leafEntry_frame (C.tables W le_rfl T)]

/-- A table that maps two pages that follow each other to pages in the other order. -/
theorem exists_swappedPages : ∃ (s : Ram) (a : ℕ), WellPlaced s.mem 0x1000 ∧
    ∀ ipa, translate s.mem 0x1000 ipa =
      if vpn ipa = vpn 0x80001000 then some (0x5000, a)
      else if vpn ipa = vpn 0x80000000 then some (0x6000, a) else none := by
  -- eight free pages at the end of a memory of zeros
  obtain ⟨s₀, _, hpool, hmem, _⟩ := @kallocInit_returns ⟨0, fun _ => 0, ⟨.leftBy 0, 0⟩⟩ 0x4fff8000
    (by decide) (by decide) (by decide) rfl
  have hfree : ∀ p ∈ initPages 0x4fff8000 ((phyEnd - 0x4fff8000) / pageSize), 0x4fff8000 ≤ p := by
    intro p hp
    obtain ⟨i, _, rfl⟩ := mem_initPages.mp hp
    exact Nat.le_add_right _ _
  have hlen : (initPages 0x4fff8000 ((phyEnd - 0x4fff8000) / pageSize)).length = 8 := by decide
  generalize initPages 0x4fff8000 ((phyEnd - 0x4fff8000) / pageSize) = l at hpool hfree hlen
  have hlow : ∀ p < 0x4fff8000, p ∉ l := fun p hp hin => absurd (hfree p hin) (by omega)
  have hzero : ∀ i < 512, read64 s₀.mem (0x1000 + 8 * i) = 0 := fun i hi =>
    readLe_eq_zero fun x hx => hmem (show x < 0x4fff8000 by simp only [mem_block] at hx; omega)
  have hroot : IsPage 0x1000 := by constructor <;> decide
  have S₀ := Stage2.fresh hpool hroot (by decide) (hlow _ (by decide)) hzero
  have hfirst : IsPage 0x6000 := by constructor <;> decide
  have hsecond : IsPage 0x5000 := by constructor <;> decide
  have hattr : IsAttr 0xc4 := by constructor <;> decide
  -- the first page takes three tables at most
  obtain ⟨_, s₁, _, _, used, l₁, rfl, hused, S₁, M₁, _⟩ :=
    returns_of_wp (@mapPage_spec _ _ 0x80000000 _ _ _ S₀ hfirst hattr (hlow _ (by decide))
      fun p t ht => by rw [((tableAt_fresh hzero).mp ht).2]; decide) fun e s' h => by
    rcases h with ⟨_, hne⟩ | ⟨_, hfew⟩
    · exact hne ((S₀.table.translate_eq_none_iff _).mp (translate_fresh hzero _))
    · omega
  have htrans₁ : ∀ ipa, translate s₁.mem 0x1000 ipa =
      if vpn ipa = vpn 0x80000000 then some (0x6000, 0xc4 ||| pteAf ||| pteV) else none := by
    intro ipa
    rw [M₁.translate hfirst hattr, translate_fresh hzero]
  have htable₁ : ∀ p t, TableAt s₁.mem 0x1000 p t → t ≠ 0x5000 := by
    rintro p t ht rfl
    rcases M₁.new p _ ht with hold | ⟨hnew, _⟩
    · exact absurd ((tableAt_fresh hzero).mp hold).2 (by decide)
    · exact hlow 0x5000 (by decide) (List.mem_append_left _ hnew)
  have hlen₁ : 3 ≤ l₁.length := by
    rw [List.length_append] at hlen
    omega
  obtain ⟨_, s₂, _, _, _, _, _, _, S₂, M₂, _⟩ :=
    returns_of_wp (@mapPage_spec _ _ 0x80001000 _ _ _ S₁ hsecond hattr
      (fun h => hlow 0x5000 (by decide) (List.mem_append_right _ h)) htable₁) fun e s' h => by
    rcases h with ⟨_, hne⟩ | ⟨_, hfew⟩
    · refine hne ((S₁.table.translate_eq_none_iff _).mp ?_)
      rw [htrans₁, if_neg (by decide)]
    · omega
  have htrans₂ : ∀ ipa, translate s₂.mem 0x1000 ipa =
      if vpn ipa = vpn 0x80001000 then some (0x5000, 0xc4 ||| pteAf ||| pteV)
      else if vpn ipa = vpn 0x80000000 then some (0x6000, 0xc4 ||| pteAf ||| pteV) else none := by
    intro ipa
    rw [M₂.translate hsecond hattr, htrans₁]
  refine ⟨s₂, _, ⟨S₂.table, S₂.out_apart, fun ipa out a hout => ?_⟩, htrans₂⟩
  rw [htrans₂] at hout
  split at hout
  · cases hout
    decide
  · split at hout
    · cases hout
      decide
    · cases hout

/-- Sixteen bytes copied across the end of a page: the last one in front of it and the first one
behind it. -/
theorem copyToIpa_exact_sixteen : ∃ (s s' : Ram),
    copyToIpa 0x1000 0x80000ff8 0x9000 16 s = .ok () s' ∧
    (ipaPa s.mem 0x1000 0x80000fff = some 0x6fff ∧ ipaPa s.mem 0x1000 0x80001000 = some 0x5000) ∧
    (∃ x, ipaPa s'.mem 0x1000 0x80000fff = some x ∧ s'.mem x = s.mem 0x9007) ∧
    ∃ x, ipaPa s'.mem 0x1000 0x80001000 = some x ∧ s'.mem x = s.mem 0x9008 := by
  obtain ⟨s, a, W, htrans⟩ := exists_swappedPages
  -- the first eight bytes are in the first page
  have hin : ∀ i < 16, translate s.mem 0x1000 (0x80000ff8 + i) =
      some (if i < 8 then 0x6000 else 0x5000, a) := by
    intro i hi
    rw [htrans]
    by_cases hfirst : i < 8
    · have hv : vpn (0x80000ff8 + i) = 0x80000 := by
        simp only [vpn, pageSize]
        omega
      rw [hv, if_neg (by decide), if_pos (by decide), if_pos hfirst]
    · have hv : vpn (0x80000ff8 + i) = 0x80001 := by
        simp only [vpn, pageSize]
        omega
      rw [hv, if_pos (by decide), if_neg hfirst]
  have hout : ∀ {i out x}, i < 16 → translate s.mem 0x1000 (0x80000ff8 + i) = some (out, x) →
      out = if i < 8 then 0x6000 else 0x5000 := by
    intro i out x hi h
    rw [hin i hi] at h
    cases h
    rfl
  have hscat : Scattered s.mem 0x1000 0x80000ff8 0x9000 16 := by
    refine ⟨by decide, fun i hi => ⟨_, a, hin i hi, by split <;> decide⟩,
      fun i out x p t _ ho ht => W.tables _ out x p t ho ht, fun i j out x hi hj ho => ?_,
      fun i j out out' x x' hi hj ho ho' hne => ?_⟩
    · rw [hout hi ho]
      split <;> simp only [mem_block, pageSize] <;> omega
    · simp only [pageSize] at hne
      rw [hout hi ho, hout hj ho']
      split <;> split <;> omega
  obtain ⟨s', hexec, _, hbyte, _⟩ := copyToIpa_exact W.table hscat
  refine ⟨s, s', hexec, ⟨?_, ?_⟩, hbyte 7 (by decide), hbyte 8 (by decide)⟩
  · exact ipaPa_eq_some.mpr ⟨_, a, hin 7 (by decide), by decide⟩
  · exact ipaPa_eq_some.mpr ⟨_, a, hin 8 (by decide), by decide⟩

/-! ## Looking an address up -/

/-- What `ipa_to_pa` returns. -/
def lookup (m : Mem) (r ipa : ℕ) : ℕ :=
  if pteAt m r ipa = none then 0 else ptePa (leafEntry m r ipa) + ipa % pageSize

theorem wp_ipaToPa_lookup {s : Ram} {r ipa : ℕ} {Q : ℕ → Ram → Prop} {E : Fault → Ram → Prop} :
    wp (ipaToPa r ipa) Q E s ↔ Q (lookup s.mem r ipa) s := by
  simp only [ipaToPa, wp_bind, wp_pageWalk_false, lookup, leafEntry]
  cases pteAt s.mem r ipa with
  | none => simp only [if_true, wp_pure]
  | some pte => simp only [wp_bind, wp_load64, wp_pure, and_page, reduceCtorEq, if_false]

theorem ipaToPa_eq (s : Ram) (r ipa : ℕ) : ipaToPa r ipa s = .ok (lookup s.mem r ipa) s := by
  have hwp : wp (ipaToPa r ipa) (fun v s' => v = lookup s.mem r ipa ∧ s' = s)
      (fun _ _ => False) s := wp_ipaToPa_lookup.mpr ⟨rfl, rfl⟩
  obtain ⟨v, s', hexec, rfl, rfl⟩ := exists_ok_of_wp hwp
  exact hexec

/-- The lookup of `ipa` tells whether its page is mapped: the page is mapped, or its last-level
table is missing, or `ipa` is the page's first address. -/
def Seen (m : Mem) (r ipa : ℕ) : Prop :=
  translate m r ipa ≠ none ∨ pteAt m r ipa = none ∨ ipa % pageSize = 0

section lookup
variable {m : Mem} {r ipa : ℕ}

theorem lookup_of_translate (W : WellPlaced m r) {out a : ℕ}
    (h : translate m r ipa = some (out, a)) :
    lookup m r ipa = out + ipa % pageSize ∧ lookup m r ipa ≠ 0 := by
  have hne : leafEntry m r ipa ≠ 0 := by
    intro h0
    rw [(W.table.translate_eq_none_iff ipa).mpr h0] at h
    cases h
  have hpte : pteAt m r ipa ≠ none := by
    intro hnone
    exact hne (by rw [leafEntry, hnone])
  have hout := W.table.translate_of_ne hne
  rw [h, Option.some_inj, Prod.mk.injEq] at hout
  have hval : lookup m r ipa = out + ipa % pageSize := by
    rw [lookup, if_neg hpte, hout.1]
  have hout0 := W.ne_zero ipa out a h
  exact ⟨hval, by omega⟩

/-- The lookup of an unmapped address. -/
theorem lookup_of_none (T : Table m r) (h : translate m r ipa = none) :
    lookup m r ipa = if pteAt m r ipa = none then 0 else ipa % pageSize := by
  have h0 := (T.translate_eq_none_iff ipa).mp h
  have hpa : ptePa 0 = 0 := rfl
  rw [lookup, h0, hpa, Nat.zero_add]

/-- **A failed lookup tells of an unmapped page, if the page is seen.** -/
theorem lookup_eq_zero_iff (W : WellPlaced m r) :
    (lookup m r ipa = 0 ↔ translate m r ipa = none) ↔ Seen m r ipa := by
  cases h : translate m r ipa with
  | some out =>
      have hne := (lookup_of_translate W h).2
      simp [Seen, h, hne]
  | none =>
      rw [lookup_of_none W.table h]
      by_cases hpte : pteAt m r ipa = none
      · simp [Seen, hpte]
      · simp [Seen, h, hpte]

end lookup

/-! ## Copying to a range that may have unmapped pages -/

/-- Every page of the range is mapped. -/
def RangeMapped (m : Mem) (r dst len : ℕ) : Prop := ∀ i < len, translate m r (dst + i) ≠ none

/-- Only bytes that addresses of the range stand for have changed. -/
def Touches (m m' : Mem) (r dst len : ℕ) : Prop :=
  ∀ x, (∀ i < len, ipaPa m r (dst + i) ≠ some x) → m' x = m x

/-- The message of a copy that meets an unmapped page. -/
abbrev copyOom : Fault := .abort "Copy to ipa failed to find pte"

section chunk
variable {m m' : Mem} {r dst src len n : ℕ}

/-- The addresses of one page are mapped alike. -/
theorem translate_chunk {j : ℕ} (hj : dst % pageSize + j < pageSize) :
    translate m r (dst + j) = translate m r dst := by
  have hv : vpn (dst + j) = vpn dst := by
    simp only [vpn, pageSize] at *
    omega
  rw [translate, translate, leafEntry_congr hv]

/-- The tables translate a range that ran over like the range. -/
theorem translate_rest (m : Mem) (r dst n i : ℕ) :
    translate m r ((dst + n) % 2 ^ 64 + i) = translate m r (dst + (n + i)) := by
  rw [← translate_mod, Nat.mod_add_mod, translate_mod, Nat.add_assoc]

theorem ipaPa_rest (m : Mem) (r dst n i : ℕ) :
    ipaPa m r ((dst + n) % 2 ^ 64 + i) = ipaPa m r (dst + (n + i)) := by
  have hmod : ((dst + n) % 2 ^ 64 + i) % pageSize = (dst + (n + i)) % pageSize := by
    simp only [pageSize]
    omega
  rw [ipaPa, ipaPa, translate_rest, hmod]

/-- Writing to a page that is not a table leaves the tables. -/
theorem eqOn_tables_copy {out : ℕ} (T : Table m r) (halign : out % pageSize = 0)
    (htab : ∀ p t, TableAt m r p t → t ≠ out) (hk : dst % pageSize + n ≤ pageSize) :
    ∀ p t, TableAt m r p t →
      Set.EqOn (copy m (out + dst % pageSize) src n) m (block t pageSize) := by
  intro p t ht x hx
  apply copy_of_notMem
  intro hmem
  refine htab p t ht (page_disjoint (T.isPage ht).aligned halign hx ?_)
  simp only [mem_block] at hmem ⊢
  omega

/-- How many bytes a round copies. -/
def chunk (dst len : ℕ) : ℕ :=
  if pageSize - dst % pageSize > len then len else pageSize - dst % pageSize

theorem chunk_le (dst len : ℕ) :
    chunk dst len ≤ len ∧ dst % pageSize + chunk dst len ≤ pageSize := by
  have hpos := Nat.mod_lt dst (show 0 < pageSize by decide)
  rw [chunk]
  split <;> omega

/-- A round copies the bytes of the range that are in the first page. -/
theorem lt_chunk {dst len j : ℕ} (hj : j < len) (hpage : dst % pageSize + j < pageSize) :
    j < chunk dst len := by
  rw [chunk]
  split <;> omega

theorem chunk_pos {len : ℕ} (dst : ℕ) (hlen : 0 < len) : 0 < chunk dst len :=
  lt_chunk hlen (Nat.mod_lt dst (by decide))

theorem chunk_of_lt {dst len : ℕ} (h : chunk dst len < len) :
    chunk dst len = pageSize - dst % pageSize := by
  rw [chunk] at h ⊢
  split at h
  · omega
  · rw [if_neg ‹_›]

/-- A range that is not done after a round goes on at a page. -/
theorem chunk_rest {dst len : ℕ} (h : chunk dst len < len) :
    (dst + chunk dst len) % 2 ^ 64 % pageSize = 0 := by
  have hpos := Nat.mod_lt dst (show 0 < pageSize by decide)
  rw [chunk_of_lt h, mod_pageSize]
  simp only [pageSize] at *
  omega

/-- A round stops when the lookup is zero. -/
theorem wp_copyRound {s : Ram} {Q : ℕ × ℕ × ℕ → Ram → Prop} {E : Fault → Ram → Prop} :
    wp (copyRound r (dst, src, len)) Q E s ↔
      (lookup s.mem r dst = 0 → E copyOom s) ∧
      (lookup s.mem r dst ≠ 0 →
        Q ((dst + chunk dst len) % 2 ^ 64, (src + chunk dst len) % 2 ^ 64, len - chunk dst len)
          { s with mem := copy s.mem (lookup s.mem r dst) src (chunk dst len) }) := by
  simp only [copyRound, wp_bind, wp_ipaToPa_lookup, wp_ite, wp_abort, wp_memcpy, wp_pure, and_page]
  rfl

/-- The first bytes of a range, and the others. -/
theorem allMapped_split (hn : n ≤ len) : RangeMapped m r dst len ↔
    RangeMapped m r dst n ∧ RangeMapped m r ((dst + n) % 2 ^ 64) (len - n) := by
  simp only [RangeMapped, translate_rest]
  constructor
  · intro h
    exact ⟨fun i hi => h i (by omega), fun i hi => h (n + i) (by omega)⟩
  · rintro ⟨hfirst, hrest⟩ i hi
    by_cases hin : i < n
    · exact hfirst i hin
    · have hi' : n + (i - n) = i := by omega
      exact hi' ▸ hrest (i - n) (by omega)

/-- A round and the rounds after it. -/
theorem Touches.round {m₁ : Mem} (hn : n ≤ len)
    (hsame : ∀ p t, TableAt m r p t → Set.EqOn m₁ m (block t pageSize))
    (h : Touches m m₁ r dst n) (h' : Touches m₁ m' r ((dst + n) % 2 ^ 64) (len - n)) :
    Touches m m' r dst len := by
  intro x hx
  rw [h' x fun i hi => ?_, h x fun i hi => hx i (by omega)]
  rw [ipaPa, translate, leafEntry_frame hsame]
  change ipaPa m r _ ≠ some x
  rw [ipaPa_rest]
  exact hx (n + i) (by omega)

theorem allMapped_frame {m₁ : Mem}
    (hsame : ∀ p t, TableAt m r p t → Set.EqOn m₁ m (block t pageSize)) :
    RangeMapped m₁ r dst len ↔ RangeMapped m r dst len := by
  simp only [RangeMapped, translate, leafEntry_frame hsame]

end chunk

/-- **The rounds of a copy** whose first address is seen.  They all return when the range is
mapped, and one of them stops when it is not; what was written lies in the range. -/
theorem copyRounds_spec {r : ℕ} : ∀ (fuel dst src len : ℕ) (s : Ram), len < fuel →
    WellPlaced s.mem r → (0 < len → Seen s.mem r dst) →
    wp (whileLoop (fun b => decide (0 < b.2.2)) (copyRound r) fuel (dst, src, len))
      (fun _ s' => RangeMapped s.mem r dst len ∧ Touches s.mem s'.mem r dst len)
      (fun e s' => e = copyOom ∧ ¬ RangeMapped s.mem r dst len ∧
        Touches s.mem s'.mem r dst len) s := by
  intro fuel
  induction fuel with
  | zero => exact fun _ _ len _ hlen => absurd hlen (Nat.not_lt_zero len)
  | succ fuel ih =>
      intro dst src len s hlen W hseen
      rcases Nat.eq_zero_or_pos len with rfl | hpos
      · simp only [whileLoop, lt_irrefl, decide_false, Bool.false_eq_true, if_false, wp_pure]
        exact ⟨fun i hi => absurd hi (Nat.not_lt_zero i), fun _ _ => rfl⟩
      have hiff := (lookup_eq_zero_iff W).mpr (hseen hpos)
      simp only [whileLoop, hpos, decide_true, if_true, wp_bind, wp_copyRound]
      refine ⟨fun h0 => ⟨trivial, fun hall => hall 0 hpos (hiff.mp h0), fun _ _ => rfl⟩,
        fun hne => ?_⟩
      obtain ⟨⟨out, a⟩, hout⟩ := Option.ne_none_iff_exists'.mp (mt hiff.mpr hne)
      obtain ⟨hlook, _⟩ := lookup_of_translate W hout
      obtain ⟨hle, hpage⟩ := chunk_le dst len
      have hmapped : ∀ j < chunk dst len, translate s.mem r (dst + j) = some (out, a) :=
        fun j hj => (translate_chunk (by omega)).trans hout
      have hsame := @eqOn_tables_copy _ _ _ src _ _ W.table (translate_isPage hout).aligned
        (fun p t ht => W.tables dst out a p t hout ht) hpage
      have hround : Touches s.mem (copy s.mem (out + dst % pageSize) src (chunk dst len)) r dst
          (chunk dst len) := by
        intro x hx
        apply copy_of_notMem
        rintro ⟨hlo, hhi⟩
        refine hx (x - (out + dst % pageSize)) (by omega) (ipaPa_eq_some.mpr
          ⟨out, a, hmapped _ (by omega), ?_⟩)
        simp only [pageSize] at *
        omega
      rw [hlook]
      refine wp_mono (ih _ _ _ _ ?_ (W.frame hsame) fun h => Or.inr (Or.inr ?_)) ?_ ?_
      · have := chunk_pos dst hpos
        omega
      · exact chunk_rest (by omega)
      · rintro _ s' ⟨hall, htouch⟩
        refine ⟨(allMapped_split hle).mpr ⟨fun j hj => ?_, (allMapped_frame hsame).mp hall⟩,
          hround.round hle hsame htouch⟩
        rw [hmapped j hj]
        exact Option.some_ne_none _
      · rintro e s' ⟨he, hall, htouch⟩
        refine ⟨he, fun h => hall ?_, hround.round hle hsame htouch⟩
        exact (allMapped_frame hsame).mpr ((allMapped_split hle).mp h).2

/-! ## A first page that is missed -/

/-- A copy stops, and what it has written lies in the mapped part of the range. -/
def Detected (r dst src len : ℕ) (s : Ram) : Prop :=
  ∃ s', copyToIpa r dst src len s = .error copyOom s' ∧ Touches s.mem s'.mem r dst len

/-- A later page of the range is unmapped too, and the bytes that would go to the null page for
the first one are there already. -/
def FaultMasked (m : Mem) (r dst src len : ℕ) : Prop :=
  (∃ i < len, pageSize ≤ dst % pageSize + i ∧ translate m r (dst + i) = none) ∧
    ∀ j < len, dst % pageSize + j < pageSize → m (dst % pageSize + j) = m (src + j)

section missed
variable {s : Ram} {r dst src len : ℕ}

/-- No mapped address stands for a byte of the null page. -/
theorem WellPlaced.not_null {m : Mem} (W : WellPlaced m r) {ipa x : ℕ} (hx : x < pageSize) :
    ipaPa m r ipa ≠ some x := by
  intro h
  obtain ⟨out, a, hout, hsum⟩ := ipaPa_eq_some.mp h
  have halign := (translate_isPage hout).aligned
  have hne := W.ne_zero ipa out a hout
  simp only [pageSize] at *
  omega

/-- The rounds after one that goes to the null page. -/
theorem copyToIpa_missed (W : WellPlaced s.mem r) (hlen : 0 < len)
    (hlook : lookup s.mem r dst = 0 + dst % pageSize) (hoff : dst % pageSize ≠ 0)
    (hsame : ∀ p t, TableAt s.mem r p t → Set.EqOn
      (copy s.mem (0 + dst % pageSize) src (chunk dst len)) s.mem (block t pageSize)) :
    wp (copyToIpa r dst src len)
      (fun _ s' => RangeMapped s.mem r ((dst + chunk dst len) % 2 ^ 64) (len - chunk dst len) ∧
        Touches (copy s.mem (0 + dst % pageSize) src (chunk dst len)) s'.mem r
          ((dst + chunk dst len) % 2 ^ 64) (len - chunk dst len))
      (fun e s' => e = copyOom ∧
        ¬ RangeMapped s.mem r ((dst + chunk dst len) % 2 ^ 64) (len - chunk dst len) ∧
        Touches (copy s.mem (0 + dst % pageSize) src (chunk dst len)) s'.mem r
          ((dst + chunk dst len) % 2 ^ 64) (len - chunk dst len)) s := by
  simp only [copyToIpa, wp_bind, whileLoop, hlen, decide_true, if_true, wp_copyRound, wp_pure]
  refine ⟨fun h0 => absurd h0 (by rw [hlook]; omega), fun _ => ?_⟩
  rw [hlook]
  have hpos := chunk_pos dst hlen
  refine wp_mono (copyRounds_spec len _ _ _ _ (by omega) (W.frame hsame) fun h => ?_) ?_ ?_
  · exact Or.inr (Or.inr (chunk_rest (by omega)))
  · rintro _ s' ⟨hall, htouch⟩
    exact ⟨(allMapped_frame hsame).mp hall, htouch⟩
  · rintro e s' ⟨he, hall, htouch⟩
    exact ⟨he, fun h => hall ((allMapped_frame hsame).mpr h), htouch⟩

/-- **A missed page is detected only if a later one is**, and nothing shows of the first. -/
theorem detected_of_missed (W : WellPlaced s.mem r) (hlen : 0 < len) (hmiss : ¬ Seen s.mem r dst) :
    Detected r dst src len s ↔ FaultMasked s.mem r dst src len := by
  simp only [Seen, not_or, not_not] at hmiss
  obtain ⟨hnone, hpte, hoff⟩ := hmiss
  have hlook : lookup s.mem r dst = 0 + dst % pageSize := by
    rw [lookup_of_none W.table hnone, if_neg hpte, Nat.zero_add]
  obtain ⟨hle, hpage⟩ := chunk_le dst len
  have hsame := @eqOn_tables_copy _ _ _ src _ _ W.table (show 0 % pageSize = 0 by decide)
    (fun p t ht => W.table.ne_zero p t ht) hpage
  have hrest := copyToIpa_missed W hlen hlook hoff hsame
  constructor
  · rintro ⟨s', hexec, htouch⟩
    obtain ⟨_, hall, htouch'⟩ := error_of_wp hrest hexec
    have hkept : ∀ j < chunk dst len, copy s.mem (0 + dst % pageSize) src (chunk dst len)
        (0 + dst % pageSize + j) = s.mem (0 + dst % pageSize + j) := by
      intro j hj
      have hx : 0 + dst % pageSize + j < pageSize := by omega
      rw [← htouch _ fun i _ => W.not_null hx,
        htouch' _ fun i _ => (W.frame hsame).not_null hx]
    have hbytes := copy_eq_iff.mp hkept
    constructor
    · simp only [RangeMapped, translate_rest] at hall
      push Not at hall
      obtain ⟨i, hi, hun⟩ := hall
      refine ⟨chunk dst len + i, by omega, ?_, hun⟩
      rw [chunk_of_lt (by omega)]
      omega
    · intro j hj hjp
      rw [← Nat.zero_add (dst % pageSize)]
      exact hbytes j (lt_chunk hj hjp)
  · rintro ⟨⟨i, hi, hip, hun⟩, hbytes⟩
    have hall : ¬ RangeMapped s.mem r ((dst + chunk dst len) % 2 ^ 64) (len - chunk dst len) := by
      intro h
      refine h (i - chunk dst len) (by omega) ?_
      rw [translate_rest, show chunk dst len + (i - chunk dst len) = i by omega]
      exact hun
    have hthere : ∀ j < chunk dst len, s.mem (0 + dst % pageSize + j) = s.mem (src + j) := by
      intro j hj
      rw [Nat.zero_add]
      exact hbytes j (by omega) (by omega)
    have hkept : ∀ x, copy s.mem (0 + dst % pageSize) src (chunk dst len) x = s.mem x := by
      intro x
      by_cases hx : x ∈ block (0 + dst % pageSize) (chunk dst len)
      · obtain ⟨j, rfl⟩ := Nat.exists_eq_add_of_le hx.1
        exact copy_eq_iff.mpr hthere j (Nat.add_lt_add_iff_left.mp hx.2)
      · exact copy_of_notMem hx
    cases hexec : copyToIpa r dst src len s with
    | ok _ s' => exact absurd (ok_of_wp hrest hexec).1 hall
    | error e s' =>
        obtain ⟨he, _, htouch⟩ := error_of_wp hrest hexec
        exact ⟨s', by rw [hexec, he], Touches.round hle hsame (fun x _ => hkept x) htouch⟩

/-- **A translation failure is noticed when the page is seen.**  The lookup of an address fails
exactly when its page is unmapped if the address is seen, and only then.  A copy to a range with
an unmapped page stops, with nothing written beside the mapped part of the range, exactly when
its first address is seen or the copy is masked. -/
theorem translation_failure {s : Ram} {r : ℕ} (W : WellPlaced s.mem r) :
    (∀ ipa, (ipaToPa r ipa s = .ok 0 s ↔ translate s.mem r ipa = none) ↔ Seen s.mem r ipa) ∧
    ∀ dst src len, ¬ RangeMapped s.mem r dst len →
      (Detected r dst src len s ↔ Seen s.mem r dst ∨ FaultMasked s.mem r dst src len) := by
  constructor
  · intro ipa
    rw [ipaToPa_eq, ← lookup_eq_zero_iff W]
    simp only [EStateM.Result.ok.injEq, and_true]
  · intro dst src len hun
    have hlen : 0 < len := by
      by_contra h0
      exact hun fun i hi => absurd hi (by omega)
    by_cases hseen : Seen s.mem r dst
    · refine iff_of_true ?_ (Or.inl hseen)
      have hrun : wp (copyToIpa r dst src len) (fun _ _ => False)
          (fun e s' => e = copyOom ∧ Touches s.mem s'.mem r dst len) s := by
        simp only [copyToIpa, wp_bind, wp_pure]
        refine wp_mono (copyRounds_spec (len + 1) dst src len s (Nat.lt_succ_self len) W
          fun _ => hseen) ?_ ?_
        · rintro _ s' ⟨hall, _⟩
          exact hun hall
        · rintro e s' ⟨he, _, htouch⟩
          exact ⟨he, htouch⟩
      cases hexec : copyToIpa r dst src len s with
      | ok _ s' => exact absurd (ok_of_wp hrun hexec) id
      | error e s' =>
          obtain ⟨he, htouch⟩ := error_of_wp hrun hexec
          exact ⟨s', by rw [hexec, he], htouch⟩
    · rw [detected_of_missed W hlen hseen]
      simp only [hseen, false_or]

end missed

/-- The page after the mapped one is unmapped, and its last-level table is there. -/
theorem onePage_next {s : Ram} {a : ℕ} (htrans : ∀ ipa, translate s.mem 0x1000 ipa =
      if vpn ipa = vpn 0x80000000 then some (0x5000, a) else none) :
    translate s.mem 0x1000 0x80001000 = none ∧ translate s.mem 0x1000 0x80001004 = none ∧
      pteAt s.mem 0x1000 0x80001004 ≠ none := by
  refine ⟨by rw [htrans, if_neg (by decide)], by rw [htrans, if_neg (by decide)], ?_⟩
  have hne : leafEntry s.mem 0x1000 0x80000000 ≠ 0 := by
    intro h0
    have hmapped := htrans 0x80000000
    rw [if_pos rfl, translate, h0] at hmapped
    cases hmapped
  obtain ⟨u, hu, _⟩ := exists_tableAt_of_leafEntry hne
  have hpath : tablePath 0x80001004 = tablePath 0x80000000 := by decide
  rw [pteAt, hpath, hu.walk]
  exact Option.some_ne_none _

/-- A copy that starts in a mapped page stops at the next one, which is not. -/
theorem translation_failure_second : ∃ s : Ram, ipaToPa 0x1000 0x80001000 s = .ok 0 s ∧
    Detected 0x1000 0x80000800 0x9000 0x1000 s := by
  obtain ⟨s, a, W, htrans⟩ := exists_mappedPage
  obtain ⟨hnone, _, _⟩ := onePage_next htrans
  have hfirst : translate s.mem 0x1000 0x80000800 ≠ none := by
    rw [htrans, if_pos (by decide)]
    exact Option.some_ne_none _
  have hun : ¬ RangeMapped s.mem 0x1000 0x80000800 0x1000 := fun h => h 0x800 (by decide) hnone
  obtain ⟨hlook, hcopy⟩ := translation_failure W
  exact ⟨s, ((hlook 0x80001000).mpr (Or.inr (Or.inr (by decide)))).mpr hnone,
    (hcopy 0x80000800 0x9000 0x1000 hun).mpr (Or.inl (Or.inl hfirst))⟩

/-- An unmapped address next to a mapped page is looked up as 4, and a copy to it returns. -/
theorem translation_failure_missed : ∃ s : Ram, WellPlaced s.mem 0x1000 ∧
    translate s.mem 0x1000 0x80001004 = none ∧ ipaToPa 0x1000 0x80001004 s = .ok 4 s ∧
    ¬ Detected 0x1000 0x80001004 0x9000 4 s := by
  obtain ⟨s, a, W, htrans⟩ := exists_mappedPage
  obtain ⟨_, hnone, hpte⟩ := onePage_next htrans
  refine ⟨s, W, hnone, ?_, ?_⟩
  · rw [ipaToPa_eq, lookup_of_none W.table hnone, if_neg hpte]
    rfl
  · have hmiss : ¬ Seen s.mem 0x1000 0x80001004 := by
      rintro (h | h | h)
      · exact h hnone
      · exact hpte h
      · exact absurd h (by decide)
    rw [detected_of_missed W (by decide) hmiss]
    rintro ⟨⟨i, hi, hpage, _⟩, _⟩
    simp only [pageSize] at hpage
    omega

end Xhyper
