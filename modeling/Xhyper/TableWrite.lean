import Xhyper.PageWalk

/-!
# Writes to a stage-2 table

Two kinds of write reach a table.  An allocating walk hangs a fresh zeroed page at
a free index of a table of the first three levels (`hung`), and the mapping
functions overwrite one entry of a last-level table (`setLeaf`).  Each has one
effect on the tree and one on the entries, and both leave all memory outside the
tables as it was.

`pageWalk_alloc` is the one fact about an allocating walk: it changes no entry of
the last level and adds only empty tables, taken from the front of the free list
and lying on the path of the address walked.

## Main definitions

* `hung` — the memory with one table more.
* `Extends` — the effect of an allocating walk.
* `vpn` — the page number the four indices spell.
* `missing` — how many tables the path of an address lacks.
* `pageWalk_alloc` — the allocating walk.
* `leafEntry_setLeaf`, `Stage2.setLeaf` — one last-level entry overwritten.
-/

namespace Xhyper

open Memory Prog Radix

/-! ## Hanging a fresh page -/

/-- The memory after entry `i` of table `t` is pointed to the zeroed page `n`. -/
def hung (m : Mem) (t i n : ℕ) : Mem :=
  write64 (fill m n pageSize 0) (t + 8 * i) (tableEntry n)

section hang
variable {s : Ram} {r n t i : ℕ} {l p : List ℕ}

/-- The page that is taken next is no table. -/
theorem Stage2.ne_head (S : Stage2 s r (n :: l)) {q : List ℕ} {u : ℕ} (hu : TableAt s.mem r q u) :
    u ≠ n :=
  fun heq => S.table_used q u hu (heq ▸ List.mem_cons_self)

/-- Entries of the tree other than the one written stand. -/
theorem read64_hung_of_ne {m : Mem} {u j : ℕ} (ht : t % pageSize = 0) (hu : u % pageSize = 0)
    (hn : n % pageSize = 0) (hun : u ≠ n) (hi : i < 512) (hj : j < 512) (hne : u ≠ t ∨ j ≠ i) :
    read64 (hung m t i n) (u + 8 * j) = read64 m (u + 8 * j) := by
  rw [hung, read64_write64_of_disjoint _ (entry_disjoint hu ht hj hi hne)]
  refine readLe_congr fun x hx => fill_of_notMem fun hxn => ?_
  exact hun (page_disjoint hu hn (entry_block hj hx) hxn)

/-- The fresh page reads as zero. -/
theorem read64_hung_new {m : Mem} {j : ℕ} (ht : t % pageSize = 0) (hn : n % pageSize = 0)
    (htn : t ≠ n) (hi : i < 512) (hj : j < 512) :
    read64 (hung m t i n) (n + 8 * j) = 0 := by
  rw [hung, read64_write64_of_disjoint _ (entry_disjoint hn ht hj hi (Or.inl (Ne.symm htn)))]
  exact readLe_fill_zero _ (by omega) (by rw [pageSize]; omega)

theorem read64_hung_self (m : Mem) : read64 (hung m t i n) (t + 8 * i) = tableEntry n :=
  read64_write64 _ _ (tableEntry_lt n)

/-- Hanging the head of the free list adds one walk to the tree. -/
theorem grown_hung (S : Stage2 s r (n :: l)) (ht : TableAt s.mem r p t) (hp : p.length < 3)
    (hi : i < 512) (hfree : child s.mem t i = none) :
    Grown (child s.mem) (child (hung s.mem t i n)) r (· < 512) 3 p i n := by
  have hn : IsPage n := S.pool.page n List.mem_cons_self
  have hta : t % pageSize = 0 := (S.table.isPage ht).aligned
  refine ⟨⟨t, ht.walk, hfree, ?_⟩, ht.index, hi, hp, ?_, ?_, ?_⟩
  · simp [child, read64_hung_self, isTableEntry_tableEntry, ptePa_tableEntry hn]
  · intro q u hq hqok hu
    exact S.ne_head ⟨hq, hqok, hu⟩
  · intro j hj
    simp only [child, read64_hung_new hta hn.aligned (S.ne_head ht) hi hj, not_isTableEntry_zero,
      if_false]
  · intro q u j hq hqok hj hu hdiff
    have hu' : TableAt s.mem r q u := ⟨hq.le, hqok, hu⟩
    refine child_congr (read64_hung_of_ne hta (S.table.isPage hu').aligned hn.aligned
      (S.ne_head hu') hi hj ?_)
    by_cases hut : u = t
    · subst hut
      exact Or.inr (hdiff.resolve_left (not_not_intro (S.table.path_eq hu' ht)))
    · exact Or.inl hut

/-- The tables after hanging: the old ones and the new one. -/
theorem tableAt_hung (S : Stage2 s r (n :: l)) (ht : TableAt s.mem r p t) (hp : p.length < 3)
    (hi : i < 512) (hfree : child s.mem t i = none) (q : List ℕ) (u : ℕ) :
    TableAt (hung s.mem t i n) r q u ↔
      TableAt s.mem r q u ∨ (q = p ++ [i] ∧ u = n) := by
  have G := grown_hung S ht hp hi hfree
  constructor
  · intro h
    rcases (follow_grow G q h.depth h.index u).mp h.walk with hold | hnew
    · exact Or.inl ⟨h.depth, h.index, hold⟩
    · exact Or.inr hnew
  · intro h
    have hlen : q.length ≤ 3 := by
      rcases h with h | ⟨rfl, -⟩
      · exact h.depth
      · simpa [Nat.succ_le_iff] using hp
    have hidx : ∀ j ∈ q, j < 512 := by
      rcases h with h | ⟨rfl, -⟩
      · exact h.index
      · intro j hj
        rcases List.mem_append.mp hj with hj | hj
        · exact ht.index j hj
        · rw [List.mem_singleton.mp hj]
          exact hi
    refine ⟨hlen, hidx, (follow_grow G q hlen hidx u).mpr ?_⟩
    exact h.imp (fun h => h.walk) id

end hang

/-- Hanging a table changes no last-level entry: a table that was missing and one
that is empty read the same. -/
theorem leafEntry_hung {s : Ram} {r n t i : ℕ} {l p : List ℕ} (S : Stage2 s r (n :: l))
    (ht : TableAt s.mem r p t) (hp : p.length < 3) (hi : i < 512)
    (hfree : child s.mem t i = none) (ipa : ℕ) :
    leafEntry (hung s.mem t i n) r ipa = leafEntry s.mem r ipa := by
  have hn : n % pageSize = 0 := (S.pool.page n List.mem_cons_self).aligned
  have hta : t % pageSize = 0 := (S.table.isPage ht).aligned
  have hgrow := follow_grow (grown_hung S ht hp hi hfree) (tablePath ipa) (by simp [tablePath])
    (tablePath_index ipa)
  simp only [leafEntry, pteAt]
  cases hnew : follow (child (hung s.mem t i n)) r (tablePath ipa) with
  | none =>
      cases hold : follow (child s.mem) r (tablePath ipa) with
      | none => rfl
      | some u => rw [(hgrow u).mpr (Or.inl hold)] at hnew; cases hnew
  | some u =>
      rcases (hgrow u).mp hnew with hold | ⟨hpath, rfl⟩
      · have hu : TableAt s.mem r (tablePath ipa) u :=
          ⟨by simp [tablePath], tablePath_index ipa, hold⟩
        have hut : u ≠ t := by
          intro heq
          subst heq
          have hlen := congrArg List.length (S.table.path_eq hu ht)
          simp only [tablePath, List.length_cons, List.length_nil] at hlen
          omega
        simp only [hold, Option.map_some]
        exact read64_hung_of_ne hta (S.table.isPage hu).aligned hn (S.ne_head hu) hi
          (pindex_lt 3 ipa) (Or.inl hut)
      · have hold : follow (child s.mem) r (tablePath ipa) = none := by
          rw [hpath, follow_snoc, ht.walk]
          exact hfree
        simp only [hold, Option.map_some, Option.map_none]
        exact read64_hung_new hta hn (S.ne_head ht) hi (pindex_lt 3 ipa)

/-- Outside the page hung and the table it hangs from, memory is as it was. -/
theorem hung_of_notMem {m : Mem} {t i n x : ℕ} (hi : i < 512) (ht : x ∉ block t pageSize)
    (hn : x ∉ block n pageSize) : hung m t i n x = m x := by
  rw [hung, write64, writeLe_of_notMem (fun hx => ht (entry_block hi hx)), fill_of_notMem hn]

/-- **Hanging keeps the invariant**, with one page less on the free list. -/
theorem Stage2.hang {s s' : Ram} {r n t i : ℕ} {l p : List ℕ} (S : Stage2 s r (n :: l))
    (ht : TableAt s.mem r p t) (hp : p.length < 3) (hi : i < 512)
    (hfree : child s.mem t i = none) (hpool : s'.Pool l) (hmem : s'.mem = hung s.mem t i n) :
    Stage2 s' r l := by
  have hn : IsPage n := S.pool.page n List.mem_cons_self
  have hta : t % pageSize = 0 := (S.table.isPage ht).aligned
  have htab := tableAt_hung S ht hp hi hfree
  have htrans : ∀ ipa, translate s'.mem r ipa = translate s.mem r ipa := by
    intro ipa
    rw [translate, translate, hmem, leafEntry_hung S ht hp hi hfree]
  refine ⟨hpool, ⟨S.table.root, ?_, ?_, ?_, ?_⟩, ?_, ?_, ?_⟩
  · intro q u hu
    rw [hmem] at hu
    rcases (htab q u).mp hu with hu | ⟨-, rfl⟩
    · exact S.table.ne_zero q u hu
    · exact S.pool.ne_zero List.mem_cons_self
  · rw [hmem]
    exact S.table.distinct.grow (grown_hung S ht hp hi hfree)
  · intro q u j hu hq hj hnone
    rw [hmem] at hu hnone ⊢
    rcases (htab q u).mp hu with hu | ⟨-, rfl⟩
    · by_cases hut : u ≠ t ∨ j ≠ i
      · have hsame := read64_hung_of_ne (m := s.mem) hta (S.table.isPage hu).aligned hn.aligned
          (S.ne_head hu) hi hj hut
        rw [child_congr hsame] at hnone
        rw [hsame]
        exact S.table.inner q u j hu hq hj hnone
      · obtain ⟨rfl, rfl⟩ : u = t ∧ j = i := by simpa [not_or] using hut
        simp [child, read64_hung_self, isTableEntry_tableEntry] at hnone
    · exact read64_hung_new hta hn.aligned (S.ne_head ht) hi hj
  · intro q u j hu hq hj
    rw [hmem] at hu ⊢
    rcases (htab q u).mp hu with hold | ⟨-, rfl⟩
    · have hut : u ≠ t := by
        intro heq
        have hlen := congrArg List.length (S.table.path_eq (heq ▸ hold) ht)
        omega
      rw [read64_hung_of_ne hta (S.table.isPage hold).aligned hn.aligned (S.ne_head hold) hi hj
        (Or.inl hut)]
      exact S.table.leaf q u j hold hq hj
    · exact Or.inl (read64_hung_new hta hn.aligned (S.ne_head ht) hi hj)
  · intro q u hu hul
    rw [hmem] at hu
    rcases (htab q u).mp hu with hu | ⟨-, rfl⟩
    · exact S.table_used q u hu (List.mem_cons_of_mem _ hul)
    · exact (List.nodup_cons.mp S.pool.nodup).1 hul
  · intro ipa out a hout hmemb
    rw [htrans] at hout
    exact S.out_used ipa out a hout (List.mem_cons_of_mem _ hmemb)
  · intro ipa out a q u hout hu
    rw [htrans] at hout
    rw [hmem] at hu
    rcases (htab q u).mp hu with hu | ⟨-, rfl⟩
    · exact S.out_apart ipa out a q u hout hu
    · exact fun heq => S.out_used ipa out a hout (heq ▸ List.mem_cons_self)

/-! ## The allocating walk -/

/-- What an allocating walk of `va` from the root `r` does to memory: it keeps the
tables and the last-level entries, adds tables among `used` on the path of `va`,
and touches nothing outside the tables. -/
structure Extends (m m' : Mem) (r va : ℕ) (used : List ℕ) : Prop where
  old : ∀ p t, TableAt m r p t → TableAt m' r p t
  new : ∀ p t, TableAt m' r p t → TableAt m r p t ∨ (t ∈ used ∧ p <+: tablePath va)
  entry : ∀ ipa, leafEntry m' r ipa = leafEntry m r ipa
  frame : ∀ x, (∀ p t, TableAt m' r p t → x ∉ block t pageSize) → m' x = m x

namespace Extends

variable {m m' m'' : Mem} {r va : ℕ} {used used' : List ℕ}

theorem refl (m : Mem) (r va : ℕ) : Extends m m r va [] :=
  ⟨fun _ _ h => h, fun _ _ h => Or.inl h, fun _ => rfl, fun _ _ => rfl⟩

theorem trans (h : Extends m m' r va used) (h' : Extends m' m'' r va used') :
    Extends m m'' r va (used ++ used') := by
  refine ⟨fun p t ht => h'.old p t (h.old p t ht), ?_, ?_, ?_⟩
  · intro p t ht
    rcases h'.new p t ht with ht | ⟨hu, hp⟩
    · exact (h.new p t ht).imp_right fun ⟨hu, hp⟩ => ⟨List.mem_append_left _ hu, hp⟩
    · exact Or.inr ⟨List.mem_append_right _ hu, hp⟩
  · intro ipa
    rw [h'.entry, h.entry]
  · intro x hx
    rw [h'.frame x hx, h.frame x fun p t ht => hx p t (h'.old p t ht)]

end Extends

/-- The message of a walk that finds no free page. -/
abbrev walkOom : Fault := .abort "Unable to alloc one page for page_walk"

/-- The number of tables the walk of `levels` from table `t` finds missing. -/
def missing (m : Mem) (va : ℕ) : List ℕ → ℕ → ℕ
  | [], _ => 0
  | level :: levels, t =>
      match child m t (pindex level va) with
      | some u => missing m va levels u
      | none => levels.length + 1

theorem missing_le (m : Mem) (va : ℕ) (levels : List ℕ) (t : ℕ) :
    missing m va levels t ≤ levels.length := by
  induction levels generalizing t with
  | nil => simp [missing]
  | cons level levels ih =>
      cases hchild : child m t (pindex level va) with
      | none => simp [missing, hchild]
      | some u => simpa [missing, hchild] using (ih u).trans (Nat.le_succ _)

/-- The walk of the levels `levels` from table `t`, which lies on the path of `va`
just above them. -/
private theorem pageWalkFrom_alloc {r va : ℕ} (levels : List ℕ) :
    ∀ {s : Ram} {l p : List ℕ} {t : ℕ}, Stage2 s r l → TableAt s.mem r p t →
      p ++ (levels.map fun level => pindex level va) = tablePath va →
      wp (pageWalkFrom va true levels t) (fun res s' => ∃ u used l', res = some u ∧
          l = used ++ l' ∧ used.length ≤ levels.length ∧ Stage2 s' r l' ∧
          Extends s.mem s'.mem r va used ∧ TableAt s'.mem r (tablePath va) u ∧
          s'.core = s.core)
        (fun e _ => e = walkOom ∧ l.length < missing s.mem va levels t) s := by
  induction levels with
  | nil =>
      intro s l p t S ht hpath
      have hp : p = tablePath va := by simpa using hpath
      exact ⟨t, [], l, rfl, rfl, le_refl _, S, Extends.refl _ _ _, hp ▸ ht, rfl⟩
  | cons level levels ih =>
      intro s l p t S ht hpath
      have hplen : p.length < 3 := by
        have hlen := congrArg List.length hpath
        simp only [tablePath, List.length_append, List.length_map, List.length_cons,
          List.length_nil] at hlen
        omega
      have hidx := pindex_lt level va
      have hsnoc : (p ++ [pindex level va]) ++ (levels.map fun level => pindex level va)
          = tablePath va := by
        rw [← hpath]
        simp
      have hsnoclen : (p ++ [pindex level va]).length ≤ 3 := by
        simpa [Nat.succ_le_iff] using hplen
      have hsnocidx : ∀ j ∈ p ++ [pindex level va], j < 512 := by
        intro j hj
        rcases List.mem_append.mp hj with hj | hj
        · exact ht.index j hj
        · rw [List.mem_singleton.mp hj]
          exact hidx
      simp only [pageWalkFrom, wp_bind, wp_load64, wp_ite]
      refine ⟨fun he => ?_, fun he => ?_⟩
      · -- the next table is there
        have hchild : child s.mem t (pindex level va)
            = some (ptePa (read64 s.mem (t + 8 * pindex level va))) := by simp [child, he]
        have hnext : TableAt s.mem r (p ++ [pindex level va])
            (ptePa (read64 s.mem (t + 8 * pindex level va))) :=
          ⟨hsnoclen, hsnocidx, follow_snoc_eq_some.mpr ⟨t, ht.walk, hchild⟩⟩
        refine wp_mono (ih S hnext hsnoc) ?_ ?_
        · rintro res s' ⟨u, used, l', hres, hl, hlen, h⟩
          exact ⟨u, used, l', hres, hl, by simp only [List.length_cons]; omega, h⟩
        · intro e s' h
          simpa only [missing, hchild] using h
      · -- the next table is missing: take a page for it
        have hfree : child s.mem t (pindex level va) = none := by simp [child, he]
        refine ⟨fun _ => ?_, fun h => absurd trivial h⟩
        cases l with
        | nil =>
            refine wp_mono (allocOnePage_nil S.pool) ?_ (fun _ _ h => h)
            intro res s' hres
            subst hres
            exact ⟨rfl, by simp [missing, hfree]⟩
        | cons n l =>
            refine wp_mono (allocOnePage_cons S.pool) ?_ (fun _ _ h => h)
            rintro res s₁ ⟨hres, hpool, hmem, hcore⟩
            subst hres
            simp only [wp_bind, wp_store64]
            have htl : t ∉ n :: l := S.table_used p t ht
            have hmem₂ : write64 s₁.mem (t + 8 * pindex level va)
                (ptePa n ||| pteTable ||| pteValid) = hung s.mem t (pindex level va) n := by
              rw [hmem]
              rfl
            have hpool₂ : Ram.Pool { s₁ with mem := hung s.mem t (pindex level va) n } l := by
              refine hpool.frame rfl fun q hq x hx => ?_
              rw [← hmem₂]
              refine writeLe_of_notMem fun hxt => htl (List.mem_cons_of_mem _ ?_)
              rw [← page_disjoint (hpool.page q hq).aligned (S.table.isPage ht).aligned hx
                (entry_block hidx hxt)]
              exact hq
            have S₂ := S.hang ht hplen hidx hfree hpool₂ rfl
            have htab := tableAt_hung S ht hplen hidx hfree
            have E₂ : Extends s.mem (hung s.mem t (pindex level va) n) r va [n] := by
              refine ⟨fun q u hu => (htab q u).mpr (Or.inl hu), ?_,
                leafEntry_hung S ht hplen hidx hfree, ?_⟩
              · intro q u hu
                refine ((htab q u).mp hu).imp_right fun ⟨hq, hun⟩ => ⟨by simp [hun], ?_⟩
                exact ⟨_, hq ▸ hsnoc⟩
              · intro x hx
                exact hung_of_notMem hidx (hx p t ((htab p t).mpr (Or.inl ht)))
                  (hx _ n ((htab _ n).mpr (Or.inr ⟨rfl, rfl⟩)))
            have hnext : TableAt (hung s.mem t (pindex level va) n) r (p ++ [pindex level va]) n :=
              (htab _ n).mpr (Or.inr ⟨rfl, rfl⟩)
            rw [hmem₂]
            refine wp_mono (ih S₂ hnext hsnoc) ?_ ?_
            · rintro res s' ⟨u, used, l', hres, hl, hlen, S', E', hu, hcore'⟩
              refine ⟨u, n :: used, l', hres, by rw [hl]; rfl, ?_, S', E₂.trans E', hu,
                hcore'.trans hcore⟩
              simp only [List.length_cons]
              omega
            · rintro e s' ⟨he, hlen⟩
              have hle := hlen.trans_le (missing_le _ va levels n)
              simp only [missing, hfree, List.length_cons]
              exact ⟨he, by omega⟩

/-- **The allocating walk.**  It stops only for want of pages for the tables that
are missing, of which there are three at most, and otherwise returns the entry of `va` in a table that only extends the old one. -/
theorem pageWalk_alloc {s : Ram} {r va : ℕ} {l : List ℕ} (S : Stage2 s r l) :
    wp (pageWalk r va true) (fun res s' => ∃ u used l', res = some (u + 8 * pindex 3 va) ∧
        l = used ++ l' ∧ used.length ≤ 3 ∧ Stage2 s' r l' ∧
        Extends s.mem s'.mem r va used ∧ TableAt s'.mem r (tablePath va) u ∧
        s'.core = s.core)
      (fun e _ => e = walkOom ∧ l.length < missing s.mem va [0, 1, 2] r) s := by
  simp only [pageWalk, wp_bind]
  refine wp_mono (pageWalkFrom_alloc [0, 1, 2] S (Table.root_at s.mem r) rfl) ?_ (fun _ _ h => h)
  rintro res s' ⟨u, used, l', hres, h⟩
  subst hres
  exact ⟨u, used, l', rfl, h⟩

/-! ## Changes outside the tables -/

section frame
variable {m m' : Mem} {r : ℕ}

/-- The tables are the same when the tables of the first three levels have the same
children. -/
theorem tableAt_congr (h : ∀ q v i, TableAt m r q v → q.length < 3 → i < 512 →
    child m' v i = child m v i) (p : List ℕ) (t : ℕ) : TableAt m' r p t ↔ TableAt m r p t := by
  have hwalk : p.length ≤ 3 → (∀ i ∈ p, i < 512) →
      follow (child m') r p = follow (child m) r p := by
    intro hlen hidx
    refine follow_congr fun q i u v hp hv => ?_
    have hqlen : q.length < 3 := by
      have := congrArg List.length hp
      simp only [List.length_append, List.length_cons] at this
      omega
    have hq : TableAt m r q v :=
      ⟨hqlen.le, fun j hj => hidx j (hp ▸ List.mem_append_left _ hj), hv⟩
    exact h q v i hq hqlen (hidx i (by rw [hp]; simp))
  constructor
  · intro ht
    exact ⟨ht.depth, ht.index, hwalk ht.depth ht.index ▸ ht.walk⟩
  · intro ht
    exact ⟨ht.depth, ht.index, (hwalk ht.depth ht.index).trans ht.walk⟩

/-- The tables do not move when the memory they lie in does not change. -/
theorem tableAt_frame
    (h : ∀ p t, TableAt m r p t → Set.EqOn m' m (block t pageSize)) (p : List ℕ) (t : ℕ) :
    TableAt m' r p t ↔ TableAt m r p t :=
  tableAt_congr (fun q v _ hq _ hi =>
    child_congr (readLe_congr fun _ hx => h q v hq (entry_block hi hx))) p t

/-- Neither do their entries. -/
theorem read64_frame (h : ∀ p t, TableAt m r p t → Set.EqOn m' m (block t pageSize))
    {p : List ℕ} {t i : ℕ} (ht : TableAt m r p t) (hi : i < 512) :
    read64 m' (t + 8 * i) = read64 m (t + 8 * i) :=
  readLe_congr fun _ hx => h p t ht (entry_block hi hx)

/-- The walk of an address leads to a last-level table or to none. -/
theorem tableAt_tablePath (m : Mem) (r va t : ℕ) :
    TableAt m r (tablePath va) t ↔ follow (child m) r (tablePath va) = some t :=
  ⟨fun h => h.walk, fun h => ⟨by simp [tablePath], tablePath_index va, h⟩⟩

/-- An address whose last-level table is there. -/
theorem leafEntry_of_tableAt {va t : ℕ} (h : TableAt m r (tablePath va) t) :
    leafEntry m r va = read64 m (t + 8 * pindex 3 va) := by
  simp only [leafEntry, pteAt, h.walk, Option.map_some]

/-- An address whose last-level table is missing. -/
theorem leafEntry_of_none {va : ℕ} (h : follow (child m) r (tablePath va) = none) :
    leafEntry m r va = 0 := by
  simp only [leafEntry, pteAt, h, Option.map_none]

/-- An address keeps its entry with its table and what is read there. -/
theorem leafEntry_of_tables {ipa : ℕ}
    (htab : ∀ t, TableAt m' r (tablePath ipa) t ↔ TableAt m r (tablePath ipa) t)
    (hread : ∀ t, TableAt m r (tablePath ipa) t →
      read64 m' (t + 8 * pindex 3 ipa) = read64 m (t + 8 * pindex 3 ipa)) :
    leafEntry m' r ipa = leafEntry m r ipa := by
  cases hold : follow (child m) r (tablePath ipa) with
  | none =>
      have hnew : follow (child m') r (tablePath ipa) = none := by
        cases hnew : follow (child m') r (tablePath ipa) with
        | none => rfl
        | some t =>
            rw [((htab t).mp ((tableAt_tablePath _ _ _ _).mpr hnew)).walk] at hold
            cases hold
      rw [leafEntry_of_none hold, leafEntry_of_none hnew]
  | some t =>
      have ht := (tableAt_tablePath m r ipa t).mpr hold
      rw [leafEntry_of_tableAt ht, leafEntry_of_tableAt ((htab t).mpr ht), hread t ht]

theorem leafEntry_frame
    (h : ∀ p t, TableAt m r p t → Set.EqOn m' m (block t pageSize)) (ipa : ℕ) :
    leafEntry m' r ipa = leafEntry m r ipa :=
  leafEntry_of_tables (tableAt_frame h (tablePath ipa)) fun _ ht =>
    read64_frame h ht (pindex_lt 3 ipa)

/-- A well-formed table stays one with the same tables, the same entries in the first
three levels, and good ones in the last. -/
theorem Table.of_tables (T : Table m r) (htab : ∀ p t, TableAt m' r p t ↔ TableAt m r p t)
    (hinner : ∀ p t i, TableAt m r p t → p.length < 3 → i < 512 →
      read64 m' (t + 8 * i) = read64 m (t + 8 * i))
    (hleaf : ∀ p t i, TableAt m r p t → p.length = 3 → i < 512 →
      read64 m' (t + 8 * i) = 0 ∨ IsLeaf (read64 m' (t + 8 * i))) : Table m' r := by
  refine ⟨T.root, fun p t ht => T.ne_zero p t ((htab p t).mp ht), ?_, ?_, ?_⟩
  · intro p q t hp hq hpi hqi hpt hqt
    exact T.path_eq ((htab p t).mp ⟨hp, hpi, hpt⟩) ((htab q t).mp ⟨hq, hqi, hqt⟩)
  · intro p t i ht hp hi hnone
    have hold := (htab p t).mp ht
    have hsame := hinner p t i hold hp hi
    rw [child_congr hsame] at hnone
    rw [hsame]
    exact T.inner p t i hold hp hi hnone
  · exact fun p t i ht => hleaf p t i ((htab p t).mp ht)

theorem Table.frame (T : Table m r)
    (h : ∀ p t, TableAt m r p t → Set.EqOn m' m (block t pageSize)) : Table m' r := by
  refine T.of_tables (tableAt_frame h) (fun p t i ht _ hi => read64_frame h ht hi) ?_
  intro p t i ht hp hi
  rw [read64_frame h ht hi]
  exact T.leaf p t i ht hp hi

/-- Fewer free pages, and no change to the tables. -/
theorem Stage2.frame {s s' : Ram} {l l' : List ℕ} (S : Stage2 s r l) (hpool : s'.Pool l')
    (hsub : ∀ p ∈ l', p ∈ l)
    (h : ∀ p t, TableAt s.mem r p t → Set.EqOn s'.mem s.mem (block t pageSize)) :
    Stage2 s' r l' where
  pool := hpool
  table := S.table.frame h
  table_used p t ht hl := S.table_used p t ((tableAt_frame h p t).mp ht) (hsub t hl)
  out_used ipa out a hout hl := by
    rw [translate, leafEntry_frame h] at hout
    exact S.out_used ipa out a hout (hsub out hl)
  out_apart ipa out a p t hout ht := by
    rw [translate, leafEntry_frame h] at hout
    exact S.out_apart ipa out a p t hout ((tableAt_frame h p t).mp ht)

/-- A free page is not a table, so writing to it moves no table. -/
theorem Stage2.eqOn_tables {s : Ram} {l : List ℕ} {n : ℕ} (S : Stage2 s r l) (hn : n ∈ l)
    (hm : Set.EqOn m' s.mem (block n pageSize)ᶜ) :
    ∀ p t, TableAt s.mem r p t → Set.EqOn m' s.mem (block t pageSize) := by
  intro p t ht x hx
  refine hm fun hxn => S.table_used p t ht ?_
  rw [page_disjoint (S.table.isPage ht).aligned (S.pool.page n hn).aligned hx hxn]
  exact hn

end frame

/-! ## Overwriting a last-level entry -/

/-- The number of the page of `ipa`, as the four indices spell it. -/
def vpn (ipa : ℕ) : ℕ := ipa / pageSize % 2 ^ 36

/-- The indices of an address determine its page number. -/
theorem indices_eq_iff (a b : ℕ) :
    tablePath a = tablePath b ∧ pindex 3 a = pindex 3 b ↔ vpn a = vpn b := by
  simp only [tablePath, List.cons.injEq, and_true, pindex_eq, vpn, pageSize]
  norm_num only
  omega

section setLeaf
variable {m : Mem} {r va u e : ℕ}

/-- Tables of the first three levels are not last-level tables. -/
theorem Table.ne_of_depth (T : Table m r) (hu : TableAt m r (tablePath va) u) {p : List ℕ} {t : ℕ}
    (ht : TableAt m r p t) (hp : p.length < 3) : t ≠ u := by
  intro heq
  have hlen := congrArg List.length (T.path_eq (heq ▸ ht) hu)
  simp only [tablePath, List.length_cons, List.length_nil] at hlen
  omega

/-- The other entries stand. -/
theorem read64_setLeaf_of_ne (T : Table m r) (hu : TableAt m r (tablePath va) u) {p : List ℕ}
    {t i : ℕ} (ht : TableAt m r p t) (hi : i < 512) (hne : t ≠ u ∨ i ≠ pindex 3 va) :
    read64 (write64 m (u + 8 * pindex 3 va) e) (t + 8 * i) = read64 m (t + 8 * i) :=
  read64_write64_of_disjoint _
    (entry_disjoint (T.isPage ht).aligned (T.isPage hu).aligned hi (pindex_lt 3 va) hne)

/-- Overwriting a last-level entry moves no table. -/
theorem tableAt_setLeaf (T : Table m r) (hu : TableAt m r (tablePath va) u) (p : List ℕ) (t : ℕ) :
    TableAt (write64 m (u + 8 * pindex 3 va) e) r p t ↔ TableAt m r p t :=
  tableAt_congr (fun _ _ _ hq hqlen hi => child_congr
    (read64_setLeaf_of_ne T hu hq hi (Or.inl (T.ne_of_depth hu hq hqlen)))) p t

/-- **Overwriting a last-level entry** is seen at the addresses of its page only. -/
theorem leafEntry_setLeaf (T : Table m r) (hu : TableAt m r (tablePath va) u) (he : e < 2 ^ 64)
    (ipa : ℕ) : leafEntry (write64 m (u + 8 * pindex 3 va) e) r ipa =
      if vpn ipa = vpn va then e else leafEntry m r ipa := by
  have htab := tableAt_setLeaf (e := e) T hu (tablePath ipa)
  by_cases hv : vpn ipa = vpn va
  · obtain ⟨hpath, hidx⟩ := (indices_eq_iff ipa va).mpr hv
    have ht := (htab u).mpr (hpath ▸ hu)
    rw [if_pos hv, leafEntry_of_tableAt ht, hidx]
    exact read64_write64 _ _ he
  · rw [if_neg hv]
    refine leafEntry_of_tables htab fun t ht =>
      read64_setLeaf_of_ne T hu ht (pindex_lt 3 ipa) ?_
    by_cases htu : t = u
    · subst htu
      refine Or.inr fun hidx => hv ((indices_eq_iff ipa va).mp ⟨?_, hidx⟩)
      exact T.path_eq ht hu
    · exact Or.inl htu

theorem Table.setLeaf (T : Table m r) (hu : TableAt m r (tablePath va) u) (he : e < 2 ^ 64)
    (hleaf : e = 0 ∨ IsLeaf e) : Table (write64 m (u + 8 * pindex 3 va) e) r := by
  refine T.of_tables (tableAt_setLeaf T hu) (fun p t i ht hp hi =>
    read64_setLeaf_of_ne T hu ht hi (Or.inl (T.ne_of_depth hu ht hp))) ?_
  intro p t i ht hp hi
  by_cases hne : t ≠ u ∨ i ≠ pindex 3 va
  · rw [read64_setLeaf_of_ne T hu ht hi hne]
    exact T.leaf p t i ht hp hi
  · obtain ⟨rfl, rfl⟩ : t = u ∧ i = pindex 3 va := by simpa [not_or] using hne
    rw [read64_write64 _ _ he]
    exact hleaf

/-- A last-level entry lies in its table. -/
theorem setLeaf_of_notMem {x : ℕ} (hx : x ∉ block u pageSize) :
    write64 m (u + 8 * pindex 3 va) e x = m x :=
  writeLe_of_notMem fun h => hx (entry_block (pindex_lt 3 va) h)

end setLeaf

end Xhyper
