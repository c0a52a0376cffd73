import Xhyper.Mapping

/-!
# Copying into a guest's memory

`ipa_to_pa` looks an address up without allocating, and `copy_to_ipa` copies a run
of bytes to guest addresses, page by page, through it.

The specification of the copy speaks of the physical addresses `ipaPa m r ipa` that
the guest addresses have: byte `i` of the source goes to the address of `dst + i`, and
nothing else changes.  It asks that the pages are mapped, each at one place, and
that they overlap neither the tables nor the source (`Scattered`).

## Main definitions

* `ipaToPa`, `copyToIpa` — the operations.
* `ipaPa` — the address a guest address stands for.
* `Copied` — the effect of copying the first bytes.
* `Scattered`, `Writable` — what the copy needs, the second for a range below `2 ^ 48`.
* `copyToIpa_exact` — the copy.
-/

namespace Xhyper

open Memory Prog Radix

/-- `ipa_to_pa`. -/
def ipaToPa (pgt ipa : ℕ) : Exec Ram ℕ := do
  match ← pageWalk pgt ipa false with
  | none => pure 0
  | some pte => do
      let e ← load64 pte
      let offset := ipa &&& (pageSize - 1)
      pure (ptePa e + offset)

/-- One round of `copy_to_ipa` on `to_ipa`, `from` and `len`. -/
def copyRound (pgt : ℕ) (b : ℕ × ℕ × ℕ) : Exec Ram (ℕ × ℕ × ℕ) := do
  let (toIpa, src, len) := b
  let pa ← ipaToPa pgt toIpa
  if pa = 0 then
    abort "Copy to ipa failed to find pte"
  else do
    let poff := toIpa &&& (pageSize - 1)
    let n := if pageSize - poff > len then len else pageSize - poff
    memcpy pa src n
    pure ((toIpa + n) % 2 ^ 64, (src + n) % 2 ^ 64, len - n)

/-- `copy_to_ipa`; every round copies a byte at least, so `len + 1` rounds are enough. -/
def copyToIpa (pgt toIpa src len : ℕ) : Exec Ram Unit := do
  let _ ← whileLoop (fun b => decide (0 < b.2.2)) (copyRound pgt) (len + 1) (toIpa, src, len)

/-- The offset of an address in its page. -/
theorem and_page (a : ℕ) : a &&& (pageSize - 1) = a % pageSize := by
  have h := Nat.and_two_pow_sub_one_eq_mod a 12
  simpa [pageSize] using h

/-- The physical address that a guest address stands for. -/
def ipaPa (m : Mem) (r ipa : ℕ) : Option ℕ :=
  (translate m r ipa).map fun out => out.1 + ipa % pageSize

theorem ipaPa_eq_some {m : Mem} {r ipa x : ℕ} :
    ipaPa m r ipa = some x ↔ ∃ out a, translate m r ipa = some (out, a) ∧
      out + ipa % pageSize = x := by
  simp [ipaPa, Option.map_eq_some_iff]

/-- A mapped address is looked up as what it stands for. -/
theorem wp_ipaToPa {s : Ram} {r ipa out a : ℕ} {Q : ℕ → Ram → Prop} {E : Fault → Ram → Prop}
    (T : Table s.mem r) (h : translate s.mem r ipa = some (out, a)) :
    wp (ipaToPa r ipa) Q E s ↔ Q (out + ipa % pageSize) s := by
  have hne : leafEntry s.mem r ipa ≠ 0 := by
    intro h0
    rw [(T.translate_eq_none_iff ipa).mpr h0] at h
    cases h
  obtain ⟨u, hu, hread⟩ := exists_tableAt_of_leafEntry hne
  have hout : ptePa (leafEntry s.mem r ipa) = out := by
    rw [T.translate_of_ne hne, Option.some_inj, Prod.mk.injEq] at h
    exact h.1
  simp only [ipaToPa, wp_bind, wp_pageWalk_false, pteAt, hu.walk, Option.map_some, wp_load64,
    wp_pure, hread, hout, and_page]

/-- What a copy of `len` bytes from `src` to guest address `dst` needs. -/
structure Writable (m : Mem) (r dst src len : ℕ) : Prop where
  dst_bound : dst + len ≤ 2 ^ 48
  src_bound : src + len ≤ 2 ^ 64
  mapped : ∀ i < len, ∃ out a, translate m r (dst + i) = some (out, a) ∧ out ≠ 0 ∧
    (∀ p t, TableAt m r p t → t ≠ out) ∧ ∀ j < len, src + j ∉ block out pageSize
  once : ∀ i j out x y, i < len → j < len → translate m r (dst + i) = some (out, x) →
    translate m r (dst + j) = some (out, y) → vpn (dst + i) = vpn (dst + j)

/-- The same for a range that may lie anywhere: every page of it is mapped, different pages to
different physical pages, which are neither the null page nor tables nor hold source bytes. -/
structure Scattered (m : Mem) (r dst src len : ℕ) : Prop where
  src_bound : src + len ≤ 2 ^ 64
  mapped : ∀ i < len, ∃ out a, translate m r (dst + i) = some (out, a) ∧ out ≠ 0
  tables : ∀ i out a p t, i < len → translate m r (dst + i) = some (out, a) →
    TableAt m r p t → t ≠ out
  source : ∀ i j out a, i < len → j < len → translate m r (dst + i) = some (out, a) →
    src + j ∉ block out pageSize
  apart : ∀ i j out out' a a', i < len → j < len → translate m r (dst + i) = some (out, a) →
    translate m r (dst + j) = some (out', a') → (dst + i) / pageSize ≠ (dst + j) / pageSize →
    out ≠ out'

theorem Writable.scattered {m : Mem} {r dst src len : ℕ} (W : Writable m r dst src len) :
    Scattered m r dst src len := by
  have hbound := W.dst_bound
  refine ⟨W.src_bound, fun i hi => ?_, fun i out a p t hi ho ht => ?_,
    fun i j out a hi hj ho => ?_, fun i j out out' a a' hi hj ho ho' hne heq => ?_⟩
  · obtain ⟨out, a, ho, hne, _⟩ := W.mapped i hi
    exact ⟨out, a, ho, hne⟩
  · obtain ⟨out', a', ho', _, htab, _⟩ := W.mapped i hi
    rw [ho, Option.some_inj, Prod.mk.injEq] at ho'
    rw [ho'.1]
    exact htab p t ht
  · obtain ⟨out', a', ho', _, _, hsrc⟩ := W.mapped i hi
    rw [ho, Option.some_inj, Prod.mk.injEq] at ho'
    rw [ho'.1]
    exact hsrc j hj
  · have hv := W.once i j out a a' hi hj ho (heq ▸ ho')
    simp only [vpn, pageSize] at *
    omega

/-- The tables look at an address modulo `2 ^ 48` only, and so at a sum that ran over. -/
theorem translate_mod (m : Mem) (r ipa : ℕ) : translate m r (ipa % 2 ^ 64) = translate m r ipa := by
  have hv : vpn (ipa % 2 ^ 64) = vpn ipa := by
    simp only [vpn, pageSize]
    omega
  obtain ⟨hpath, hidx⟩ := (indices_eq_iff _ _).mpr hv
  simp only [translate, leafEntry, pteAt, hpath, hidx]

theorem mod_pageSize (ipa : ℕ) : ipa % 2 ^ 64 % pageSize = ipa % pageSize :=
  Nat.mod_mod_of_dvd _ (by norm_num [pageSize])

/-- The first `n` bytes from `src` have gone to the addresses of `dst`, and the rest
is as it was. -/
structure Copied (m m' : Mem) (r dst src n : ℕ) : Prop where
  byte : ∀ i < n, ∀ x, ipaPa m r (dst + i) = some x → m' x = m (src + i)
  frame : ∀ x, (∀ i < n, ipaPa m r (dst + i) ≠ some x) → m' x = m x

section copy
variable {m m' : Mem} {r dst src len n : ℕ}

/-- Different bytes of the range stand for different addresses. -/
theorem Scattered.inj (W : Scattered m r dst src len) {i j x : ℕ} (hi : i < len) (hj : j < len)
    (hx : ipaPa m r (dst + i) = some x) (hy : ipaPa m r (dst + j) = some x) : i = j := by
  obtain ⟨out, a, ho, hox⟩ := ipaPa_eq_some.mp hx
  obtain ⟨out', a', ho', hox'⟩ := ipaPa_eq_some.mp hy
  have halign := (translate_isPage ho).aligned
  have halign' := (translate_isPage ho').aligned
  have heq : out = out' := by
    simp only [pageSize] at *
    omega
  by_contra hij
  refine W.apart i j out out' a a' hi hj ho ho' ?_ heq
  simp only [pageSize] at *
  omega

/-- The source is not among the addresses written to. -/
theorem Scattered.src_apart (W : Scattered m r dst src len) {i j x : ℕ} (hi : i < len)
    (hj : j < len) (hx : ipaPa m r (dst + i) = some x) : src + j ≠ x := by
  obtain ⟨out, a, ho, hox⟩ := ipaPa_eq_some.mp hx
  have hnot := W.source i j out a hi hj ho
  intro heq
  apply hnot
  have hpos := Nat.mod_lt (dst + i) (show 0 < pageSize by decide)
  simp only [mem_block]
  omega

/-- A copy does not touch the tables. -/
theorem Copied.tables (C : Copied m m' r dst src n) (W : Scattered m r dst src len) (hn : n ≤ len)
    (T : Table m r) : ∀ p t, TableAt m r p t → Set.EqOn m' m (block t pageSize) := by
  intro p t ht x hx
  apply C.frame
  intro i hi heq
  obtain ⟨out, a, ho, hox⟩ := ipaPa_eq_some.mp heq
  have hpos := Nat.mod_lt (dst + i) (show 0 < pageSize by decide)
  have hxo : x ∈ block out pageSize := by
    simp only [mem_block]
    omega
  refine W.tables i out a p t (by omega) ho ht ?_
  exact page_disjoint (T.isPage ht).aligned (translate_isPage ho).aligned hx hxo

/-- Copying the next bytes, which lie in one page. -/
theorem Copied.next {out a k : ℕ} (C : Copied m m' r dst src n) (W : Scattered m r dst src len)
    (hn : n + k ≤ len) (hk : (dst + n) % pageSize + k ≤ pageSize)
    (hout : translate m r (dst + n) = some (out, a)) :
    Copied m (copy m' (out + (dst + n) % pageSize) (src + n) k) r dst src (n + k) := by
  have hpos := Nat.mod_lt (dst + n) (show 0 < pageSize by decide)
  -- the page holds all of the next bytes
  have hpa : ∀ j < k, ipaPa m r (dst + (n + j)) = some (out + (dst + n) % pageSize + j) := by
    intro j hj
    have hv : vpn (dst + (n + j)) = vpn (dst + n) := by
      simp only [vpn, pageSize] at *
      omega
    have hmod : (dst + (n + j)) % pageSize = (dst + n) % pageSize + j := by
      simp only [pageSize] at *
      omega
    have hsame : leafEntry m r (dst + (n + j)) = leafEntry m r (dst + n) := by
      obtain ⟨hpath, hidx⟩ := (indices_eq_iff _ _).mpr hv
      simp only [leafEntry, pteAt, hpath, hidx]
    rw [ipaPa_eq_some]
    refine ⟨out, a, ?_, by omega⟩
    rw [translate, hsame]
    exact hout
  have hmem : ∀ x, x ∈ block (out + (dst + n) % pageSize) k ↔
      ∃ j < k, out + (dst + n) % pageSize + j = x := by
    intro x
    simp only [mem_block]
    constructor
    · intro hx
      exact ⟨x - (out + (dst + n) % pageSize), by omega, by omega⟩
    · rintro ⟨j, hj, hx⟩
      omega
  have hdisj : src + n + k ≤ out + (dst + n) % pageSize ∨
      out + (dst + n) % pageSize + k ≤ src + n := by
    by_contra hno
    have hkpos : 0 < k := by omega
    by_cases hle : src + n ≤ out + (dst + n) % pageSize
    · apply W.source n (out + (dst + n) % pageSize - src) out a (by omega) (by omega) hout
      simp only [mem_block]
      omega
    · apply W.source n n out a (by omega) (by omega) hout
      simp only [mem_block]
      omega
  refine ⟨fun i hi x hx => ?_, fun x hx => ?_⟩
  · by_cases hin : i < n
    · have hout' : x ∉ block (out + (dst + n) % pageSize) k := by
        rw [hmem]
        rintro ⟨j, hj, hjx⟩
        have hij := W.inj (by omega) (by omega) hx (hjx ▸ hpa j hj)
        omega
      rw [copy_of_notMem hout']
      exact C.byte i hin x hx
    · have hi' : dst + i = dst + (n + (i - n)) := by omega
      have hxv := hpa (i - n) (by omega)
      rw [← hi', hx, Option.some_inj] at hxv
      rw [hxv, copy_of_mem hdisj (by omega)]
      have hsrc : src + n + (i - n) = src + i := by omega
      rw [hsrc]
      apply C.frame
      intro j hj heq
      exact W.src_apart (show j < len by omega) (show i < len by omega) heq rfl
  · have hout' : x ∉ block (out + (dst + n) % pageSize) k := by
      rw [hmem]
      rintro ⟨j, hj, hjx⟩
      exact hx (n + j) (by omega) (hjx ▸ hpa j hj)
    rw [copy_of_notMem hout']
    exact C.frame x fun i hi => hx i (by omega)

end copy

/-- One round of the loop copies to the end of the page or of the range. -/
theorem chunk_bounds {dst n len k : ℕ} (hn : n < len)
    (hk : (if pageSize - (dst + n) % pageSize > len - n then len - n
      else pageSize - (dst + n) % pageSize) = k) :
    n + k ≤ len ∧ (dst + n) % pageSize + k ≤ pageSize ∧ 0 < k := by
  have hpos := Nat.mod_lt (dst + n) (show 0 < pageSize by decide)
  by_cases h : pageSize - (dst + n) % pageSize > len - n
  · rw [if_pos h] at hk
    omega
  · rw [if_neg h] at hk
    omega

/-- **The copy**, wherever the range lies. -/
theorem copyToIpa_scattered {s : Ram} {r dst src len : ℕ} {E : Fault → Ram → Prop}
    (T : Table s.mem r) (W : Scattered s.mem r dst src len) :
    wp (copyToIpa r dst src len) (fun _ s' => s' = { s with mem := s'.mem } ∧
      Copied s.mem s'.mem r dst src len) E s := by
  have hsb := W.src_bound
  simp only [copyToIpa, wp_bind, wp_pure]
  refine wp_whileLoop (fun b s' => ∃ n ≤ len, b.2.2 = len - n ∧
      (n < len → b.1 % 2 ^ 64 = (dst + n) % 2 ^ 64 ∧ b.2.1 = src + n) ∧
      s' = { s with mem := s'.mem } ∧ Copied s.mem s'.mem r dst src n) (fun b => b.2.2) ?_ ?_ _ _ _
      (Nat.lt_succ_self _) ⟨0, Nat.zero_le _, rfl, fun _ => ⟨rfl, rfl⟩, rfl,
        fun i hi => absurd hi (Nat.not_lt_zero i), fun _ _ => rfl⟩
  · rintro ⟨toIpa, from', left⟩ s' hc ⟨n, hn, hleft, haddr, hs', C⟩
    have hnlt : n < len := by
      simp only [decide_eq_true_eq] at hc hleft
      omega
    obtain ⟨hto, hfrom⟩ := haddr hnlt
    simp only at hto hfrom hleft
    subst hfrom
    subst hleft
    obtain ⟨out, a, hout, hne⟩ := W.mapped n hnlt
    have hsame := C.tables W hn T
    have T' : Table s'.mem r := T.frame hsame
    have hout' : translate s'.mem r toIpa = some (out, a) := by
      rw [← translate_mod, hto, translate_mod, translate, leafEntry_frame hsame]
      exact hout
    have hmod : toIpa % pageSize = (dst + n) % pageSize := by
      rw [← mod_pageSize, hto, mod_pageSize]
    simp only [copyRound, wp_bind, wp_ipaToPa T' hout', and_page, hmod]
    rw [if_neg (by omega)]
    simp only [wp_bind, wp_memcpy, wp_pure]
    generalize hk : (if pageSize - (dst + n) % pageSize > len - n then len - n
      else pageSize - (dst + n) % pageSize) = k
    have hklen := chunk_bounds hnlt hk
    refine ⟨⟨n + k, hklen.1, by omega, fun hlt => ⟨?_, ?_⟩, ?_, ?_⟩, by omega⟩
    · rw [Nat.mod_mod, Nat.add_mod, hto, ← Nat.add_mod, Nat.add_assoc]
    · omega
    · rw [hs']
    · exact C.next W hklen.1 hklen.2.1 hout
  · rintro b s' hc ⟨n, hn, hleft, _, hs', C⟩
    have hnlen : n = len := by
      simp only [decide_eq_false_iff_not] at hc
      omega
    exact ⟨hs', hnlen ▸ C⟩

/-- **The copy.**  It always ends, byte `i` of the source is at the address of
`dst + i`, and no other byte of memory has changed. -/
theorem copyToIpa_spec {s : Ram} {r dst src len : ℕ} {E : Fault → Ram → Prop} (T : Table s.mem r)
    (W : Writable s.mem r dst src len) :
    wp (copyToIpa r dst src len) (fun _ s' => s' = { s with mem := s'.mem } ∧
      Copied s.mem s'.mem r dst src len) E s :=
  copyToIpa_scattered T W.scattered

end Xhyper
