import Xhyper.Stage2Map

/-!
# The entries that walks return

A walk with allocation is the step on which mapping rests.  With a free page for
each table that the path of the address lacks it returns the last-level entry of
the address, adds empty tables only and leaves every entry that a walk returned
before.  Entries are as distinct as pages: two addresses below `2 ^ 48` share an
entry exactly when they lie in one page.

## Main definitions

* `pageWalk_false_eq` — a walk without allocation reads the tree.
* `entry_eq_iff` — entries of well-formed tables tell pages apart.
* `pageWalk_adds` — the allocating walk and the walks after it.
-/

namespace Xhyper

open Memory Prog Radix

/-! ## Entries and pages -/

/-- A walk that does not allocate reads the tree and changes nothing. -/
theorem pageWalk_false_eq (r va : ℕ) (s : Ram) :
    pageWalk r va false s = .ok (pteAt s.mem r va) s := by
  have h : wp (pageWalk r va false) (fun res s' => res = pteAt s.mem r va ∧ s' = s)
      (fun _ _ => False) s := by simp
  obtain ⟨_, _, hok, hres, hs⟩ := exists_ok_of_wp h
  rw [hok, hres, hs]

theorem pteAt_eq_some {m : Mem} {r va p : ℕ} :
    pteAt m r va = some p ↔ ∃ t, TableAt m r (tablePath va) t ∧ p = t + 8 * pindex 3 va := by
  simp only [pteAt, Option.map_eq_some_iff, tableAt_tablePath, eq_comm (a := p)]

/-- Below `2 ^ 48` the indices spell the whole page number. -/
theorem vpn_eq_div {a : ℕ} (h : a < 2 ^ 48) : vpn a = a / pageSize := by
  simp only [vpn, pageSize]
  omega

/-- Two addresses share a last-level entry exactly when their indices agree. -/
theorem entry_eq_iff {m : Mem} {r a b t u : ℕ} (T : Table m r)
    (ha : TableAt m r (tablePath a) t) (hb : TableAt m r (tablePath b) u) :
    t + 8 * pindex 3 a = u + 8 * pindex 3 b ↔ vpn a = vpn b := by
  rw [← indices_eq_iff]
  constructor
  · intro heq
    have hta := (T.isPage ha).aligned
    have hub := (T.isPage hb).aligned
    have hia := pindex_lt 3 a
    have hib := pindex_lt 3 b
    simp only [pageSize] at hta hub
    have htu : t = u := by omega
    subst htu
    exact ⟨T.path_eq ha hb, by omega⟩
  · intro h
    have htu : some t = some u := by rw [← ha.walk, ← hb.walk, h.1]
    rw [Option.some.inj htu, h.2]

/-- Two entries that walks return below `2 ^ 48` are one exactly in one page. -/
theorem pteAt_eq_iff {m : Mem} {r a b p q : ℕ} (T : Table m r) (ha : a < 2 ^ 48)
    (hb : b < 2 ^ 48) (hp : pteAt m r a = some p) (hq : pteAt m r b = some q) :
    p = q ↔ a / pageSize = b / pageSize := by
  obtain ⟨t, ht, hpt⟩ := pteAt_eq_some.mp hp
  obtain ⟨u, hu, hqu⟩ := pteAt_eq_some.mp hq
  rw [hpt, hqu, entry_eq_iff T ht hu, vpn_eq_div ha, vpn_eq_div hb]

/-- A table that grew still has the entries it had. -/
theorem Extends.pteAt {m m' : Mem} {r va v p : ℕ} {used : List ℕ} (X : Extends m m' r va used)
    (h : Xhyper.pteAt m r v = some p) : Xhyper.pteAt m' r v = some p := by
  obtain ⟨t, ht, hp⟩ := pteAt_eq_some.mp h
  exact pteAt_eq_some.mpr ⟨t, X.old _ t ht, hp⟩

/-! ## The allocating walk -/

/-- **Allocating walks only add empty tables.**  With a free page for each table
that is missing on the path of `va`, the walk returns the last-level entry of `va`.
No translation changes, the table stays well formed and keeps its tables, and the
tables it gains are pages from the front of the free list that were no tables.
Then a walk without allocation returns the same entry for `va`, and for any other
address the entry it had; and entries are one exactly for addresses of one page,
whether the second walk allocates or not. -/
theorem pageWalk_adds {s : Ram} {r va : ℕ} {l : List ℕ} (S : Stage2 s r l) (hva : va < 2 ^ 48)
    (henough : missing s.mem va [0, 1, 2] r ≤ l.length) :
    ∃ p s' used l', pageWalk r va true s = .ok (some p) s' ∧ l = used ++ l' ∧
      (∃ t, TableAt s'.mem r (tablePath va) t ∧ p = t + 8 * pindex 3 va) ∧
      (∀ ipa, translate s'.mem r ipa = translate s.mem r ipa) ∧
      Stage2 s' r l' ∧
      (∀ q t, TableAt s.mem r q t → TableAt s'.mem r q t) ∧
      (∀ q t, TableAt s'.mem r q t → TableAt s.mem r q t ∨
        t ∈ used ∧ ∀ q' u, TableAt s.mem r q' u → u ≠ t) ∧
      pageWalk r va false s' = .ok (some p) s' ∧
      (∀ v e, pageWalk r v false s = .ok (some e) s →
        pageWalk r v false s' = .ok (some e) s') ∧
      (∀ a b e f, a < 2 ^ 48 → b < 2 ^ 48 → pageWalk r a false s' = .ok (some e) s' →
        pageWalk r b false s' = .ok (some f) s' → (e = f ↔ a / pageSize = b / pageSize)) ∧
      (∀ b e s'', b < 2 ^ 48 → pageWalk r b true s' = .ok (some e) s'' →
        (p = e ↔ va / pageSize = b / pageSize)) := by
  have hwalk : wp (pageWalk r va true) (fun res s' => ∃ u used l',
      res = some (u + 8 * pindex 3 va) ∧ l = used ++ l' ∧ used.length ≤ 3 ∧ Stage2 s' r l' ∧
      Extends s.mem s'.mem r va used ∧ TableAt s'.mem r (tablePath va) u ∧ s'.core = s.core)
      (fun _ _ => False) s :=
    wp_mono (pageWalk_alloc S) (fun _ _ h => h) fun _ _ h => absurd h.2 (Nat.not_lt.mpr henough)
  obtain ⟨res, s', hrun, u, used, l', hres, hl, -, S', X, hu, -⟩ := exists_ok_of_wp hwalk
  subst hres
  have hp : pteAt s'.mem r va = some (u + 8 * pindex 3 va) := pteAt_eq_some.mpr ⟨u, hu, rfl⟩
  refine ⟨_, s', used, l', hrun, hl, ⟨u, hu, rfl⟩, ?_, S', X.old, ?_, ?_, ?_, ?_, ?_⟩
  · intro ipa
    rw [translate, translate, X.entry]
  · intro q t ht
    refine (X.new q t ht).imp_right fun h => ⟨h.1, fun q' u' hu' heq => ?_⟩
    -- a page that was free is no table
    exact S.table_used q' u' hu' (heq ▸ hl ▸ List.mem_append_left _ h.1)
  · rw [pageWalk_false_eq, hp]
  · intro v e h
    simp only [pageWalk_false_eq, EStateM.Result.ok.injEq, and_true] at h ⊢
    exact X.pteAt h
  · intro a b e f ha hb he hf
    simp only [pageWalk_false_eq, EStateM.Result.ok.injEq, and_true] at he hf
    exact pteAt_eq_iff S'.table ha hb he hf
  · intro b e s'' hb hrun'
    -- the second walk keeps the entry of the first
    obtain ⟨w, _, _, he, -, -, S'', X', hw, -⟩ := ok_of_wp (pageWalk_alloc S') hrun'
    exact pteAt_eq_iff S''.table hva hb (X'.pteAt hp) (he ▸ pteAt_eq_some.mpr ⟨w, hw, rfl⟩)

/-- Three tables are added below an empty root. -/
theorem pageWalk_adds_threeFree : ∃ p s',
    pageWalk 0x1000 0x80000000 true threeFree = .ok (some p) s' ∧
    pageWalk 0x1000 0x80000000 false s' = .ok (some p) s' := by
  obtain ⟨p, s', _, _, hrun, -, -, -, -, -, -, hagain, -⟩ :=
    @pageWalk_adds threeFree 0x1000 0x80000000 _ wellFormedAt_threeFree.stage2 (by decide)
      (missing_le _ _ _ _)
  exact ⟨p, s', hrun, hagain⟩

end Xhyper
