import Xhyper.Isolation
import Xhyper.PageRuns
import Xhyper.MmioTrap

/-!
# What a page is used for

A page behind the image is free, or held by the caller that took it, or a table, or mapped by
one entry of one table, and it is only one of these at a time.  `page_unmap` frees whatever
page the entry names, so it keeps this only while no entry that it clears names the serial
port, which is the one page outside RAM that is ever mapped.

## Main definitions

* `PageUse`, `Uses` — the uses of pages, as memory and the free list have them.
* `OneUse` — every page of RAM has one use.
* `OneUse.mapPage`, `OneUse.unmapPage` — a page changes its use.
* `PoolStep`, `PoolRun` — calls of the allocator and of the functions that map and unmap.
* `RamOnly`, `pool_holds_ram` — what every run keeps.
-/

namespace Xhyper

open Memory Prog

/-! ## Uses -/

/-- What a page is used for. -/
inductive PageUse
  | free
  /-- Some caller of `alloc_one_page` has it. -/
  | held
  /-- The table at the path `p` below the root `r`. -/
  | table (r : ℕ) (p : List ℕ)
  /-- Mapped by the entry of the page `v` below the root `r`. -/
  | mapped (r v : ℕ)

/-- The page `n` has this use, when the free list is `l`. -/
def Uses (m : Mem) (roots held : Set ℕ) (l : List ℕ) : PageUse → ℕ → Prop
  | .free, n => n ∈ l
  | .held, n => n ∈ held
  | .table r p, n => r ∈ roots ∧ TableAt m r p n
  | .mapped r v, n => r ∈ roots ∧ ∃ ipa a, vpn ipa = v ∧ translate m r ipa = some (n, a)

/-- Pages of `S` have one use each. -/
def Exclusive (S : Set ℕ) (R : PageUse → ℕ → Prop) : Prop :=
  ∀ u u' n, n ∈ S → R u n → R u' n → u = u'

/-- Only the pages of `M` change their use. -/
theorem Exclusive.move {S M : Set ℕ} {R R' : PageUse → ℕ → Prop} (h : Exclusive S R)
    (hkeep : ∀ u n, n ∉ M → R' u n → R u n)
    (hmove : ∀ u u' n, n ∈ S → n ∈ M → R' u n → R' u' n → u = u') : Exclusive S R' := by
  intro u u' n hn hu hu'
  by_cases hM : n ∈ M
  · exact hmove u u' n hn hM hu hu'
  · exact h u u' n hn (hkeep u n hM hu) (hkeep u' n hM hu')

/-- **Every page of RAM has one use**: the free pages are `l`, and outside RAM only the serial
port has one, which is to be mapped. -/
structure OneUse (himageEnd : ℕ) (roots held : Set ℕ) (s : Ram) (l : List ℕ) : Prop where
  pool : s.Pool l
  table : ∀ r ∈ roots, Table s.mem r
  managed : ∀ u n, Uses s.mem roots held l u n →
    ManagedPage himageEnd n ∨ (n = pl011Base ∧ ∃ r v, u = .mapped r v)
  one : Exclusive {n | ManagedPage himageEnd n} (Uses s.mem roots held l)

/-- The page of the serial port is not written. -/
abbrev PortKept (m m' : Mem) : Prop := Set.EqOn m' m (block pl011Base pageSize)

section uses
variable {himageEnd : ℕ} {roots held : Set ℕ} {s s' : Ram} {l l' : List ℕ} {r n : ℕ}

namespace OneUse

theorem free_managed (U : OneUse himageEnd roots held s l) (h : n ∈ l) :
    ManagedPage himageEnd n := by
  rcases U.managed .free n h with hm | ⟨_, r, v, hu⟩
  · exact hm
  · cases hu

theorem held_managed (U : OneUse himageEnd roots held s l) (h : n ∈ held) :
    ManagedPage himageEnd n := by
  rcases U.managed .held n h with hm | ⟨_, r, v, hu⟩
  · exact hm
  · cases hu

theorem table_managed (U : OneUse himageEnd roots held s l) (hr : r ∈ roots) {p : List ℕ}
    (h : TableAt s.mem r p n) : ManagedPage himageEnd n := by
  rcases U.managed (.table r p) n ⟨hr, h⟩ with hm | ⟨_, r, v, hu⟩
  · exact hm
  · cases hu

theorem out_managed (U : OneUse himageEnd roots held s l) (hr : r ∈ roots) {ipa a : ℕ}
    (h : translate s.mem r ipa = some (n, a)) (hn : n ≠ pl011Base) :
    ManagedPage himageEnd n := by
  rcases U.managed (.mapped r (vpn ipa)) n ⟨hr, ipa, a, rfl, h⟩ with hm | ⟨hport, _⟩
  · exact hm
  · exact absurd hport hn

/-- Each root's tables are well formed next to the free list. -/
theorem stage2 (U : OneUse himageEnd roots held s l) (hr : r ∈ roots) : Stage2 s r l := by
  refine ⟨U.pool, U.table r hr, fun p t ht hl => ?_, fun ipa out a h hl => ?_,
    fun ipa out a p t h ht heq => ?_⟩
  · have hu := U.one (.table r p) .free t (U.free_managed hl) ⟨hr, ht⟩ hl
    cases hu
  · have hu := U.one (.mapped r (vpn ipa)) .free out (U.free_managed hl) ⟨hr, ipa, a, rfl, h⟩ hl
    cases hu
  · subst heq
    have hm := U.table_managed hr ht
    have hu := U.one (.mapped r (vpn ipa)) (.table r p) t hm ⟨hr, ipa, a, rfl, h⟩ ⟨hr, ht⟩
    cases hu

end OneUse

/-- Writing to no table leaves the uses alone. -/
theorem uses_frame {m m' : Mem}
    (h : ∀ r ∈ roots, ∀ p t, TableAt m r p t → Set.EqOn m' m (block t pageSize)) (u : PageUse)
    (n : ℕ) : Uses m' roots held l u n ↔ Uses m roots held l u n := by
  cases u with
  | free => exact Iff.rfl
  | held => exact Iff.rfl
  | table r p => exact and_congr_right fun hr => tableAt_frame (h r hr) p n
  | mapped r v =>
      refine and_congr_right fun hr => ?_
      simp only [translate, leafEntry_frame (h r hr)]

/-- What writes to the heap alone leaves the uses alone. -/
theorem OneUse.heapWrites (U : OneUse himageEnd roots held s l) (himg : IsImage himageEnd)
    (hw : HeapWrites (poolStart himageEnd) s s') : OneUse himageEnd roots held s' l := by
  have hhigh : ∀ n, ManagedPage himageEnd n → Set.EqOn s'.mem s.mem (block n pageSize) := by
    intro n hn
    refine hw.page (himg.highPages (l := [n]) fun p hp => ?_) List.mem_cons_self
    exact List.mem_singleton.mp hp ▸ hn.low
  have hsame : ∀ r ∈ roots, ∀ p t, TableAt s.mem r p t →
      Set.EqOn s'.mem s.mem (block t pageSize) := fun r hr p t ht =>
    hhigh t (U.table_managed hr ht)
  refine ⟨U.pool.frame hw.pages fun n hn => hhigh n (U.free_managed hn),
    fun r hr => (U.table r hr).frame (hsame r hr), fun u n hu => ?_, fun u u' n hn hu hu' => ?_⟩
  · exact U.managed u n ((uses_frame hsame u n).mp hu)
  · exact U.one u u' n hn ((uses_frame hsame u n).mp hu) ((uses_frame hsame u' n).mp hu')

/-- Writing to a page that is neither free nor a table leaves the uses alone. -/
theorem OneUse.write (U : OneUse himageEnd roots held s l) (hm : ManagedPage himageEnd n)
    (hn : ∃ u, Uses s.mem roots held l u n ∧ u ≠ .free ∧ ∀ r p, u ≠ .table r p) {x : ℕ}
    (hx : x ∈ block n pageSize) (v : Byte) :
    OneUse himageEnd roots held { s with mem := Function.update s.mem x v } l := by
  obtain ⟨u, hu, hfree, htable⟩ := hn
  have hout : ∀ q, ManagedPage himageEnd q → q ≠ n →
      Set.EqOn (Function.update s.mem x v) s.mem (block q pageSize) := by
    intro q hq hne y hy
    apply Function.update_of_ne
    rintro rfl
    exact hne (page_disjoint hq.aligned hm.aligned hy hx)
  have hsame : ∀ r ∈ roots, ∀ p t, TableAt s.mem r p t →
      Set.EqOn (Function.update s.mem x v) s.mem (block t pageSize) := by
    intro r hr p t ht
    apply hout t (U.table_managed hr ht)
    rintro rfl
    exact htable r p (U.one u (.table r p) t hm hu ⟨hr, ht⟩)
  refine ⟨U.pool.frame rfl fun q hq => hout q (U.free_managed hq) ?_,
    fun r hr => (U.table r hr).frame (hsame r hr), fun u' q hu' => ?_, fun u' u'' q hq h h' => ?_⟩
  · rintro rfl
    exact hfree (U.one u .free q hm hu hq)
  · exact U.managed u' q ((uses_frame hsame u' q).mp hu')
  · exact U.one u' u'' q hq ((uses_frame hsame u' q).mp h) ((uses_frame hsame u'' q).mp h')

/-! ## Taking a page -/

/-- **`alloc_one_page`** hands a free page to its caller. -/
theorem OneUse.take (U : OneUse himageEnd roots held s (n :: l)) (H : s'.Pool l)
    (hmem : s'.mem = fill s.mem n pageSize 0) :
    OneUse himageEnd roots (insert n held) s' l := by
  have hsame : ∀ r ∈ roots, ∀ p t, TableAt s.mem r p t →
      Set.EqOn s'.mem s.mem (block t pageSize) := fun r hr =>
    (U.stage2 hr).eqOn_tables List.mem_cons_self (hmem ▸ eqOn_fill _ _ _ _)
  have hfree : ManagedPage himageEnd n := U.free_managed List.mem_cons_self
  have hkeep : ∀ u x, x ∉ ({n} : Set ℕ) → Uses s'.mem roots (insert n held) l u x →
      Uses s.mem roots held (n :: l) u x := by
    intro u x hx hu
    cases u with
    | free => exact List.mem_cons_of_mem n hu
    | held => exact (Set.mem_insert_iff.mp hu).resolve_left hx
    | table r p => exact (uses_frame hsame (.table r p) x).mp hu
    | mapped r v => exact (uses_frame hsame (.mapped r v) x).mp hu
  have hheld : ∀ u, Uses s'.mem roots (insert n held) l u n → u = .held := by
    intro u hu
    have hold : ∀ u', Uses s.mem roots held (n :: l) u' n → u' = .free := fun u' hu' =>
      U.one u' .free n hfree hu' List.mem_cons_self
    cases u with
    | free => exact absurd hu (List.nodup_cons.mp U.pool.nodup).1
    | held => rfl
    | table r p => cases hold _ ((uses_frame hsame (.table r p) n).mp hu)
    | mapped r v => cases hold _ ((uses_frame hsame (.mapped r v) n).mp hu)
  refine ⟨H, fun r hr => (U.table r hr).frame (hsame r hr), fun u x hu => ?_, ?_⟩
  · by_cases hx : x = n
    · exact Or.inl (hx ▸ hfree)
    · exact U.managed u x (hkeep u x hx hu)
  · apply U.one.move hkeep
    rintro u u' x _ rfl hu hu'
    exact (hheld u hu).trans (hheld u' hu').symm

/-- **A zeroed page** becomes the root of an empty table. -/
theorem OneUse.newRoot (U : OneUse himageEnd roots held s l) (hpos : 0 < himageEnd)
    (hn : n ∈ held) (hzero : ∀ x ∈ block n pageSize, s.mem x = 0) :
    OneUse himageEnd (insert n roots) (held \ {n}) s l := by
  have hfresh : ∀ i < 512, read64 s.mem (n + 8 * i) = 0 := fun i hi =>
    readLe_eq_zero fun x hx => hzero x (entry_block hi hx)
  have hmanaged := U.held_managed hn
  have hkeep : ∀ u x, x ∉ ({n} : Set ℕ) → Uses s.mem (insert n roots) (held \ {n}) l u x →
      Uses s.mem roots held l u x := by
    intro u x hx hu
    cases u with
    | free => exact hu
    | held => exact hu.1
    | table r p =>
        obtain ⟨rfl | hr, ht⟩ := hu
        · exact absurd ((tableAt_fresh hfresh).mp ht).2 hx
        · exact ⟨hr, ht⟩
    | mapped r v =>
        obtain ⟨rfl | hr, ipa, a, hv, h⟩ := hu
        · rw [translate_fresh hfresh] at h
          cases h
        · exact ⟨hr, ipa, a, hv, h⟩
  have hroot : ∀ u, Uses s.mem (insert n roots) (held \ {n}) l u n → u = .table n [] := by
    intro u hu
    have hold : ∀ u', Uses s.mem roots held l u' n → u' = .held := fun u' hu' =>
      U.one u' .held n hmanaged hu' hn
    cases u with
    | free => cases hold .free hu
    | held => exact absurd rfl hu.2
    | table r p =>
        obtain ⟨rfl | hr, ht⟩ := hu
        · rw [((tableAt_fresh hfresh).mp ht).1]
        · cases hold (.table r p) ⟨hr, ht⟩
    | mapped r v =>
        obtain ⟨rfl | hr, ipa, a, hv, h⟩ := hu
        · rw [translate_fresh hfresh] at h
          cases h
        · cases hold (.mapped r v) ⟨hr, ipa, a, hv, h⟩
  refine ⟨U.pool, ?_, fun u x hu => ?_, ?_⟩
  · rintro r (rfl | hr)
    · exact Table.fresh hmanaged.isPage (hpos.trans_le hmanaged.low).ne' hfresh
    · exact U.table r hr
  · by_cases hx : x = n
    · exact Or.inl (hx ▸ hmanaged)
    · exact U.managed u x (hkeep u x hx hu)
  · apply U.one.move hkeep
    rintro u u' x _ rfl hu hu'
    exact (hroot u hu).trans (hroot u' hu').symm

/-! ## Mapping and unmapping a page -/

/-- The page of the serial port lies below the image. -/
theorem port_lt (himg : IsImage himageEnd) : pl011Base + pageSize ≤ himageEnd := by
  have hpool := himg.pool
  simp only [pageSize, himageVaddr, pl011Base] at *
  omega

theorem ManagedPage.ne_port (himg : IsImage himageEnd) (h : ManagedPage himageEnd n) :
    n ≠ pl011Base := by
  have hport := port_lt himg
  have hlow := h.low
  simp only [pageSize] at hport
  omega

theorem ManagedPage.notMem (himg : IsImage himageEnd) (h : ManagedPage himageEnd n) {x : ℕ}
    (hx : x ∈ block pl011Base pageSize) : x ∉ block n pageSize := by
  have hport := port_lt himg
  have hlow := h.low
  simp only [mem_block] at *
  omega

/-- What writes to no table of another root than `r` leaves these tables alone. -/
theorem OneUse.otherTables (U : OneUse himageEnd roots held s l) {m' : Mem}
    (hm : ∀ x, (∀ u n, Uses s.mem roots held l u n → ManagedPage himageEnd n →
      (∀ r' p, u = .table r' p → r' = r) → x ∉ block n pageSize) → m' x = s.mem x) :
    ∀ r' ∈ roots, r' ≠ r → ∀ p t, TableAt s.mem r' p t →
      Set.EqOn m' s.mem (block t pageSize) := by
  intro r' hr' hne p t ht x hx
  apply hm
  intro u n hu hn hur hxn
  have hmanaged := U.table_managed hr' ht
  have heq : n = t := page_disjoint hn.aligned hmanaged.aligned hxn hx
  subst heq
  exact hne (hur r' p (U.one u (.table r' p) n hn hu ⟨hr', ht⟩))

/-- Tables and mappings below another root are as before. -/
theorem Uses.of_other {m' : Mem} {held' : Set ℕ} {r' : ℕ} (hr' : r' ≠ r)
    (hother : ∀ r' ∈ roots, r' ≠ r → ∀ p t, TableAt s.mem r' p t →
      Set.EqOn m' s.mem (block t pageSize)) {u : PageUse}
    (hu : Uses m' roots held' l' u n) (hroot : (∃ p, u = .table r' p) ∨ ∃ v, u = .mapped r' v) :
    Uses s.mem roots held l u n := by
  rcases hroot with ⟨p, rfl⟩ | ⟨v, rfl⟩
  · obtain ⟨hin, ht⟩ := hu
    exact ⟨hin, (tableAt_frame (hother r' hin hr') p n).mp ht⟩
  · obtain ⟨hin, ipa, a, hv, h⟩ := hu
    rw [translate, leafEntry_frame (hother r' hin hr')] at h
    exact ⟨hin, ipa, a, hv, h⟩

/-- The pages that change their use are the one that is mapped and the new tables. -/
theorem Uses.of_maps {m' : Mem} {va pa attr : ℕ} {used : List ℕ}
    (M : Maps s.mem m' r va pa attr used) (hpage : IsPage pa) (ha : IsAttr attr)
    (hother : ∀ r' ∈ roots, r' ≠ r → ∀ p t, TableAt s.mem r' p t →
      Set.EqOn m' s.mem (block t pageSize)) {u : PageUse}
    (hu : Uses m' roots (held \ {pa}) l' u n) :
    (Uses s.mem roots held (used ++ l') u n ∧ (u = .held → n ≠ pa) ∧ (u = .free → n ∈ l')) ∨
      (n = pa ∧ u = .mapped r (vpn va)) ∨ (n ∈ used ∧ ∃ p, u = .table r p) := by
  cases u with
  | free => exact Or.inl ⟨List.mem_append_right used hu, nofun, fun _ => hu⟩
  | held => exact Or.inl ⟨hu.1, fun _ => hu.2, nofun⟩
  | table r' p =>
      by_cases hne : r' = r
      · subst hne
        rcases M.new p n hu.2 with hold | ⟨hin, _⟩
        · exact Or.inl ⟨⟨hu.1, hold⟩, nofun, nofun⟩
        · exact Or.inr (Or.inr ⟨hin, p, rfl⟩)
      · exact Or.inl ⟨hu.of_other hne hother (Or.inl ⟨p, rfl⟩), nofun, nofun⟩
  | mapped r' v =>
      by_cases hne : r' = r
      · subst hne
        obtain ⟨hr', ipa, a, hv, h⟩ := hu
        rw [M.translate hpage ha] at h
        by_cases hvpn : vpn ipa = vpn va
        · rw [if_pos hvpn, Option.some_inj, Prod.mk.injEq] at h
          exact Or.inr (Or.inl ⟨h.1.symm, by rw [← hv, hvpn]⟩)
        · rw [if_neg hvpn] at h
          exact Or.inl ⟨⟨hr', ipa, a, hv, h⟩, nofun, nofun⟩
      · exact Or.inl ⟨hu.of_other hne hother (Or.inr ⟨v, rfl⟩), nofun, nofun⟩

/-- **Mapping a page** that its caller holds, or that of the serial port. -/
theorem OneUse.mapPage (U : OneUse himageEnd roots held s l) (himg : IsImage himageEnd)
    (hr : r ∈ roots) {va pa attr : ℕ} (ha : IsAttr attr) (hpa : pa ∈ held ∨ pa = pl011Base) :
    wp (mapPage r va pa attr) (fun _ s' => PortKept s.mem s'.mem ∧
      ∃ l', OneUse himageEnd roots (held \ {pa}) s' l') (fun _ _ => True) s := by
  have hpage : IsPage pa := by
    rcases hpa with hpa | rfl
    · exact (U.held_managed hpa).isPage
    · constructor <;> decide
  have hport : ManagedPage himageEnd pa → pa ∈ held := fun hm =>
    hpa.resolve_right (hm.ne_port himg)
  have hfree : pa ∉ l := by
    intro h
    have hm := U.free_managed h
    have huse := U.one .free .held pa hm h (hport hm)
    cases huse
  have htab : ∀ p t, TableAt s.mem r p t → t ≠ pa := by
    rintro p t ht rfl
    have hm := U.table_managed hr ht
    have huse := U.one (.table r p) .held t hm ⟨hr, ht⟩ (hport hm)
    cases huse
  refine wp_mono (mapPage_spec (U.stage2 hr) hpage ha hfree htab) ?_ fun _ _ _ => trivial
  rintro _ s' ⟨_, used, l', hl, _, S', M, _⟩
  have hused : ∀ t ∈ used, t ∈ l := fun t ht => hl ▸ List.mem_append_left l' ht
  have hnew : ∀ p t, TableAt s'.mem r p t → TableAt s.mem r p t ∨ t ∈ used := fun p t ht =>
    (M.new p t ht).imp_right And.left
  have hmanaged : ∀ p t, TableAt s'.mem r p t → ManagedPage himageEnd t := by
    intro p t ht
    rcases hnew p t ht with hold | hin
    · exact U.table_managed hr hold
    · exact U.free_managed (hused t hin)
  have hother := @OneUse.otherTables himageEnd roots held s l r U s'.mem fun x hx => by
    apply M.frame
    intro p t ht
    rcases hnew p t ht with hold | hin
    · exact hx (.table r p) t ⟨hr, hold⟩ (U.table_managed hr hold) fun _ _ h => by
        cases h
        rfl
    · exact hx .free t (hused t hin) (U.free_managed (hused t hin)) nofun
  have hcases : ∀ u n, Uses s'.mem roots (held \ {pa}) l' u n →
      (Uses s.mem roots held l u n ∧ (u = .held → n ≠ pa) ∧ (u = .free → n ∈ l')) ∨
        (n = pa ∧ u = .mapped r (vpn va)) ∨ (n ∈ used ∧ ∃ p, u = .table r p) := by
    intro u n hu
    rw [hl]
    exact hu.of_maps M hpage ha hother
  refine ⟨fun x hx => M.frame x fun p t ht => (hmanaged p t ht).notMem himg hx, l', S'.pool, ?_,
    ?_, ?_⟩
  · intro r' hr'
    by_cases hne : r' = r
    · exact hne ▸ S'.table
    · exact (U.table r' hr').frame (hother r' hr' hne)
  · intro u n hu
    rcases hcases u n hu with ⟨hold, _⟩ | ⟨rfl, rfl⟩ | ⟨hin, _⟩
    · exact U.managed u n hold
    · rcases hpa with hheld | hport
      · exact Or.inl (U.held_managed hheld)
      · exact Or.inr ⟨hport, _, _, rfl⟩
    · exact Or.inl (U.free_managed (hused n hin))
  · intro u u' n hm hu hu'
    have hdisj := (List.nodup_append.mp (hl ▸ U.pool.nodup)).2.2
    rcases hcases u n hu with ⟨hold, hpa₁, hfree₁⟩ | ⟨hn, rfl⟩ | ⟨hin, p, rfl⟩ <;>
      rcases hcases u' n hu' with ⟨hold', hpa₂, hfree₂⟩ | ⟨hn', rfl⟩ | ⟨hin', p', rfl⟩
    · exact U.one u u' n hm hold hold'
    · subst hn'
      have huse := U.one u .held n hm hold (hport hm)
      exact absurd rfl (hpa₁ huse)
    · have huse := U.one u .free n hm hold (hused n hin')
      exact absurd rfl (hdisj n hin' n (hfree₁ huse))
    · subst hn
      have huse := U.one u' .held n hm hold' (hport hm)
      exact absurd rfl (hpa₂ huse)
    · rfl
    · subst hn
      exact absurd (hused n hin') hfree
    · have huse := U.one u' .free n hm hold' (hused n hin)
      exact absurd rfl (hdisj n hin n (hfree₂ huse))
    · subst hn'
      exact absurd (hused n hin) hfree
    · rw [S'.table.path_eq hu.2 hu'.2]

/-- A page that is not freed keeps its use, which is not the mapping that is removed. -/
theorem Uses.of_unmaps {m' : Mem} {va out : ℕ} (X : Unmaps s.mem m' r va out)
    (hother : ∀ r' ∈ roots, r' ≠ r → ∀ p t, TableAt s.mem r' p t →
      Set.EqOn m' s.mem (block t pageSize)) {u : PageUse}
    (hu : Uses m' roots held (out :: l) u n) (hfree : u ≠ .free) :
    Uses s.mem roots held l u n ∧ u ≠ .mapped r (vpn va) := by
  cases u with
  | free => exact absurd rfl hfree
  | held => exact ⟨hu, nofun⟩
  | table r' p =>
      by_cases hrr : r' = r
      · subst hrr
        exact ⟨⟨hu.1, (X.tables p n).mp hu.2⟩, nofun⟩
      · exact ⟨hu.of_other hrr hother (Or.inl ⟨p, rfl⟩), nofun⟩
  | mapped r' v =>
      by_cases hrr : r' = r
      · subst hrr
        obtain ⟨hr', ipa, a, hv, h⟩ := hu
        rw [translate, X.entry] at h
        by_cases hvpn : vpn ipa = vpn va
        · rw [if_pos hvpn] at h
          cases h
        · rw [if_neg hvpn] at h
          refine ⟨⟨hr', ipa, a, hv, h⟩, fun heq => ?_⟩
          cases heq
          exact hvpn hv
      · refine ⟨hu.of_other hrr hother (Or.inr ⟨v, rfl⟩), fun heq => ?_⟩
        cases heq
        exact hrr rfl

/-- **Unmapping a page** frees it; the entry must not name the serial port. -/
theorem OneUse.unmapPage (U : OneUse himageEnd roots held s l) (himg : IsImage himageEnd)
    (hr : r ∈ roots) {va : ℕ} (hport : ∀ a, translate s.mem r va ≠ some (pl011Base, a)) :
    wp (unmapPage r va) (fun _ s' => leafEntry s.mem r va ≠ 0 ∧ PortKept s.mem s'.mem ∧
      (∀ ipa, leafEntry s'.mem r ipa = if vpn ipa = vpn va then 0 else leafEntry s.mem r ipa) ∧
      ∃ l', OneUse himageEnd roots held s' l') (fun _ _ => True) s := by
  by_cases h0 : leafEntry s.mem r va = 0
  · exact unmapPage_stops h0 fun _ => trivial
  have htr := (U.table r hr).translate_of_ne h0
  generalize hout : ptePa (leafEntry s.mem r va) = out at htr
  have hm : ManagedPage himageEnd out := U.out_managed hr htr fun h => hport _ (h ▸ htr)
  have hmapped : Uses s.mem roots held l (.mapped r (vpn va)) out := ⟨hr, va, _, rfl, htr⟩
  have honce : ∀ ipa a, translate s.mem r ipa = some (ptePa (leafEntry s.mem r va), a) →
      vpn ipa = vpn va := by
    intro ipa a h
    rw [hout] at h
    have huse := U.one (.mapped r (vpn ipa)) _ out hm ⟨hr, ipa, a, rfl, h⟩ hmapped
    exact (PageUse.mapped.inj huse).2
  have hne : ptePa (leafEntry s.mem r va) ≠ 0 := by
    have hlow := port_lt himg
    have hlow' := hm.low
    simp only [pageSize] at hlow
    omega
  refine wp_mono (unmapPage_spec (E := fun _ _ => True) (U.stage2 hr) h0 hne honce) ?_
    fun _ _ _ => trivial
  rw [hout]
  rintro _ s' ⟨S', X, _⟩
  have hother := @OneUse.otherTables himageEnd roots held s l r U s'.mem fun x hx => by
    apply X.frame
    · intro p t ht
      exact hx (.table r p) t ⟨hr, ht⟩ (U.table_managed hr ht) fun _ _ h => by
        cases h
        rfl
    · exact hx _ out hmapped hm nofun
  have hkeep : ∀ u n, n ∉ ({out} : Set ℕ) → Uses s'.mem roots held (out :: l) u n →
      Uses s.mem roots held l u n := by
    intro u n hn hu
    by_cases hfree : u = .free
    · subst hfree
      exact (List.mem_cons.mp hu).resolve_left hn
    · exact (hu.of_unmaps X hother hfree).1
  have hfreed : ∀ u, Uses s'.mem roots held (out :: l) u out → u = .free := by
    intro u hu
    by_contra hfree
    obtain ⟨hu', hno⟩ := hu.of_unmaps X hother hfree
    exact hno (U.one u _ out hm hu' hmapped)
  refine ⟨h0, fun x hx => ?_, X.entry, out :: l, S'.pool, fun r' hr' => ?_, fun u n hu => ?_, ?_⟩
  · exact X.frame x (fun p t ht => (U.table_managed hr ht).notMem himg hx) (hm.notMem himg hx)
  · by_cases hrr : r' = r
    · exact hrr ▸ S'.table
    · exact (U.table r' hr').frame (hother r' hr' hrr)
  · by_cases hn : n = out
    · exact Or.inl (hn ▸ hm)
    · exact U.managed u n (hkeep u n hn hu)
  · apply U.one.move hkeep
    rintro u u' n _ rfl hu hu'
    exact (hfreed u hu).trans (hfreed u' hu').symm

/-! ## Ranges -/

/-- The pages of `size` bytes from `pa`. -/
def pageRange (pa size : ℕ) : Set ℕ := {n | ∃ k, k * pageSize < size ∧ n = pa + k * pageSize}

/-- No page of the range is mapped to the serial port. -/
def SparesPort (m : Mem) (r va size : ℕ) : Prop :=
  ∀ k, k * pageSize < size → ∀ a, translate m r (va + k * pageSize) ≠ some (pl011Base, a)

/-- **`create_guest_mapping`** of pages that its caller holds. -/
theorem OneUse.createGuestMapping (U : OneUse himageEnd roots held s l)
    (himg : IsImage himageEnd) (hr : r ∈ roots) {va pa size attr : ℕ} (ha : IsAttr attr)
    (hpages : pageRange pa size ⊆ held) :
    wp (createGuestMapping r va pa size attr) (fun _ s' => PortKept s.mem s'.mem ∧
      ∃ l', OneUse himageEnd roots (held \ pageRange pa size) s' l') (fun _ _ => True) s := by
  simp only [Xhyper.createGuestMapping, wp_ite, wp_bind]
  refine ⟨fun _ => trivial, fun _ => ?_⟩
  refine wp_forRange (fun k t => PortKept s.mem t.mem ∧
    ∃ l', OneUse himageEnd roots (held \ {n | ∃ j < k, n = pa + j * pageSize}) t l')
    (by decide) ?_ ?_ ?_
  · rintro k t hk ⟨hport, l', U'⟩
    rw [Nat.zero_add] at hk ⊢
    have hheld : pa + k * pageSize ∈ held := hpages ⟨k, hk, rfl⟩
    have hlt : pa + k * pageSize < 2 ^ 64 := by
      have hbound := (U.held_managed hheld).isPage.bound
      omega
    rw [Nat.mod_eq_of_lt hlt]
    have hstill : pa + k * pageSize ∈ held \ {n | ∃ j < k, n = pa + j * pageSize} := by
      refine ⟨hheld, ?_⟩
      rintro ⟨j, hj, heq⟩
      simp only [pageSize] at heq
      omega
    refine wp_mono (U'.mapPage himg hr ha (Or.inl hstill)) ?_ fun _ _ _ => trivial
    rintro _ t' ⟨hport', l'', U''⟩
    refine ⟨hport'.trans hport, l'', ?_⟩
    convert U'' using 1
    ext n
    simp only [Set.mem_sdiff, Set.mem_ofPred_eq, Set.mem_singleton_iff, not_exists, not_and,
      and_assoc, and_congr_right_iff]
    refine fun _ => ⟨fun h => ⟨fun j hj => h j (by omega), h k (by omega)⟩, fun h j hj => ?_⟩
    rcases Nat.lt_succ_iff_lt_or_eq.mp hj with hj | rfl
    · exact h.1 j hj
    · exact h.2
  · refine ⟨fun _ _ => rfl, l, ?_⟩
    simpa using U
  · rintro k t hk ⟨hport, l', U'⟩
    refine ⟨hport, l', ?_⟩
    convert U' using 2
    ext n
    refine exists_congr fun j => and_congr_left fun _ => ?_
    simp only [pageSize] at *
    omega

/-- **`do_device_mapping`** maps the serial port and no page of RAM. -/
theorem OneUse.doDeviceMapping (U : OneUse himageEnd roots held s l) (himg : IsImage himageEnd)
    (hr : r ∈ roots) :
    wp (doDeviceMapping r) (fun _ s' => PortKept s.mem s'.mem ∧
      ∃ l', OneUse himageEnd roots held s' l') (fun _ _ => True) s := by
  have hno : pl011Base ∉ held := fun h => (U.held_managed h).ne_port himg rfl
  rw [Xhyper.doDeviceMapping,
    wp_createGuestMapping_page (by decide) (by decide) (by decide) (by decide)]
  rw [← Set.sdiff_singleton_eq_self hno]
  exact U.mapPage himg hr isAttr_device (Or.inr rfl)

/-- **`page_unmap`** of a range without the serial port. -/
theorem OneUse.pageUnmap (U : OneUse himageEnd roots held s l) (himg : IsImage himageEnd)
    (hr : r ∈ roots) {va size : ℕ} (hspare : SparesPort s.mem r va size) :
    wp (pageUnmap r va size) (fun _ s' => PortKept s.mem s'.mem ∧
      ∃ l', OneUse himageEnd roots held s' l') (fun _ _ => True) s := by
  simp only [Xhyper.pageUnmap, wp_ite, wp_bind]
  refine ⟨fun _ => trivial, fun _ => ?_⟩
  refine wp_forRange (fun _ t => PortKept s.mem t.mem ∧
    (∀ ipa, leafEntry t.mem r ipa = 0 ∨ leafEntry t.mem r ipa = leafEntry s.mem r ipa) ∧
    ∃ l', OneUse himageEnd roots held t l') (by decide) ?_ ?_ ?_
  · rintro k t hk ⟨hport, hleaf, l', U'⟩
    rw [Nat.zero_add] at hk ⊢
    have hvpn : vpn ((va + k * pageSize) % 2 ^ 64) = vpn (va + k * pageSize) := by
      simp only [vpn, pageSize]
      omega
    have hspare' : ∀ a, translate t.mem r ((va + k * pageSize) % 2 ^ 64) ≠
        some (pl011Base, a) := by
      intro a h
      rw [translate] at h
      rcases hleaf ((va + k * pageSize) % 2 ^ 64) with h0 | hsame
      · rw [h0] at h
        cases h
      · rw [hsame, leafEntry_congr hvpn] at h
        exact hspare k hk a h
    refine wp_mono (U'.unmapPage himg hr hspare') ?_ fun _ _ _ => trivial
    rintro _ t' ⟨_, hport', hentry, l'', U''⟩
    refine ⟨hport'.trans hport, fun ipa => ?_, l'', U''⟩
    rw [hentry]
    by_cases hv : vpn ipa = vpn ((va + k * pageSize) % 2 ^ 64)
    · rw [if_pos hv]
      exact Or.inl rfl
    · rw [if_neg hv]
      exact hleaf ipa
  · exact ⟨fun _ _ => rfl, fun _ => Or.inr rfl, l, U⟩
  · exact fun _ _ _ h => ⟨h.1, h.2.2⟩

/-- **`create_mmio_trap`** of a range without the serial port. -/
theorem OneUse.createMmioTrap {s : Hyp} (U : OneUse himageEnd roots held s.ram l)
    (himg : IsImage himageEnd) (H : HeapHas (poolStart himageEnd) s [])
    {vm ipa size vmmioRead vmmioWrite : ℕ} (hr : (s.vms vm).vttbr ∈ roots)
    (hspare : SparesPort s.ram.mem (s.vms vm).vttbr ipa size) :
    wp (createMmioTrap vm ipa size vmmioRead vmmioWrite) (fun _ s' =>
      PortKept s.ram.mem s'.ram.mem ∧ HeapHas (poolStart himageEnd) s' [] ∧
      ∃ l', OneUse himageEnd roots held s'.ram l') (fun _ _ => True) s := by
  have hregister : ∀ (t : Hyp) (l' : List ℕ), PortKept s.ram.mem t.ram.mem →
      HeapHas (poolStart himageEnd) t [] → OneUse himageEnd roots held t.ram l' →
      wp (vmmioHandlerRegister vm ipa size vmmioRead vmmioWrite) (fun _ s' =>
        PortKept s.ram.mem s'.ram.mem ∧ HeapHas (poolStart himageEnd) s' [] ∧
        ∃ l', OneUse himageEnd roots held s'.ram l') (fun _ _ => True) t := by
    intro t l' hport Ht U'
    refine wp_mono (vmmioHandlerRegister_ends Ht) ?_ fun _ _ _ => trivial
    rintro _ s' ⟨_, H', hw⟩
    refine ⟨fun x hx => ?_, H', l', U'.heapWrites himg hw⟩
    rw [hw.mem x, hport hx]
    have hpool := himg.pool
    have hstart : poolStart himageEnd = himageEnd - 12288 + 536 := rfl
    simp only [mem_block, pageSize, himageVaddr, pl011Base] at *
    omega
  by_cases hvm : vm = 0
  · simp only [Xhyper.createMmioTrap, derefVm, hvm, if_true, wp_bind, wp_get, wp_throw]
  rw [Xhyper.createMmioTrap, wp_bind, wp_derefVm hvm, wp_bind, wp_zoom, Hyp.get_ramPart,
    wp_pageWalk_false]
  cases hwalk : pteAt s.ram.mem (s.vms vm).vttbr ipa with
  | none =>
      simp only [wp_pure, wp_bind]
      exact hregister s l (fun _ _ => rfl) H U
  | some pte =>
      simp only [wp_bind, wp_pure, wp_zoom, Hyp.get_ramPart, Hyp.set_ramPart]
      refine wp_mono (U.pageUnmap himg hr hspare) ?_ fun _ _ _ => trivial
      rintro _ t ⟨hport, l', U'⟩
      exact hregister { s with ram := t } l' hport (H.congr rfl) U'

end uses

/-! ## Runs -/

/-- The hypervisor between two calls, and which pages its callers were given. -/
structure PoolState where
  hyp : Hyp
  /-- The pages that `alloc_one_page` returned. -/
  got : Set ℕ
  /-- Those of them that were since neither mapped nor made a table. -/
  held : Set ℕ
  /-- The roots of the stage-2 tables. -/
  roots : Set ℕ

/-- A call, or what happens between two calls. -/
inductive PoolOp
  /-- `alloc_one_page`, for any use. -/
  | alloc
  /-- `alloc_one_page`, for the root of a table. -/
  | newRoot
  /-- `create_guest_mapping` of pages from `alloc_one_page`. -/
  | map (r va pa size attr : ℕ)
  /-- `do_device_mapping`. -/
  | device (r : ℕ)
  | unmap (r va size : ℕ)
  | trap (vm ipa size vmmioRead vmmioWrite : ℕ)
  /-- A caller or a guest writes to a page that it has. -/
  | write (n x : ℕ) (v : Byte)
  /-- What concerns neither memory nor the allocators: other records, another core. -/
  | other

/-- A call that returns.  `page_unmap` and `create_mmio_trap` return from mapped ranges only,
and all callers stop on a null page. -/
inductive PoolStep : PoolOp → PoolState → PoolState → Prop
  | alloc {t : PoolState} {s' : Hyp} {n : ℕ} :
      zoom Hyp.ramPart allocOnePage t.hyp = .ok (some n) s' →
      PoolStep .alloc t ⟨s', insert n t.got, insert n t.held, t.roots⟩
  | newRoot {t : PoolState} {s' : Hyp} {n : ℕ} :
      zoom Hyp.ramPart allocOnePage t.hyp = .ok (some n) s' →
      PoolStep .newRoot t ⟨s', insert n t.got, t.held, insert n t.roots⟩
  | map {t : PoolState} {s' : Hyp} {r va pa size attr : ℕ} : r ∈ t.roots → IsAttr attr →
      pageRange pa size ⊆ t.got →
      zoom Hyp.ramPart (createGuestMapping r va pa size attr) t.hyp = .ok () s' →
      PoolStep (.map r va pa size attr) t ⟨s', t.got, t.held \ pageRange pa size, t.roots⟩
  | device {t : PoolState} {s' : Hyp} {r : ℕ} : r ∈ t.roots →
      zoom Hyp.ramPart (doDeviceMapping r) t.hyp = .ok () s' →
      PoolStep (.device r) t { t with hyp := s' }
  | unmap {t : PoolState} {s' : Hyp} {r va size : ℕ} : r ∈ t.roots →
      zoom Hyp.ramPart (pageUnmap r va size) t.hyp = .ok () s' →
      PoolStep (.unmap r va size) t { t with hyp := s' }
  | trap {t : PoolState} {s' : Hyp} {vm ipa size vmmioRead vmmioWrite : ℕ} :
      (t.hyp.vms vm).vttbr ∈ t.roots →
      createMmioTrap vm ipa size vmmioRead vmmioWrite t.hyp = .ok () s' →
      PoolStep (.trap vm ipa size vmmioRead vmmioWrite) t { t with hyp := s' }
  | write {t : PoolState} {n x : ℕ} {v : Byte} :
      (n ∈ t.held ∨ n ≠ pl011Base ∧ ∃ r ∈ t.roots, ∃ ipa a,
        translate t.hyp.ram.mem r ipa = some (n, a)) → x ∈ block n pageSize →
      PoolStep (.write n x v) t { t with
        hyp := { t.hyp with ram := { t.hyp.ram with mem := Function.update t.hyp.ram.mem x v } } }
  | other {t : PoolState} {s' : Hyp} : s'.ram.mem = t.hyp.ram.mem →
      s'.ram.pages = t.hyp.ram.pages → s'.sysBlk = t.hyp.sysBlk →
      PoolStep .other t { t with hyp := s' }

/-- **What a call must spare.**  A page that is mapped is still its caller's, and the range that
is unmapped does not contain the serial port. -/
def PoolOp.Spares (t : PoolState) : PoolOp → Prop
  | .map _ _ pa size _ => pageRange pa size ⊆ t.held
  | .unmap r va size => SparesPort t.hyp.ram.mem r va size
  | .trap vm ipa size _ _ => SparesPort t.hyp.ram.mem (t.hyp.vms vm).vttbr ipa size
  | _ => True

/-- Calls from the state `t₀` on, last one first, each with the state it was made in. -/
inductive PoolRun (t₀ : PoolState) : List (PoolState × PoolOp) → PoolState → Prop
  | refl : PoolRun t₀ [] t₀
  | step {trace : List (PoolState × PoolOp)} {t t' : PoolState} {op : PoolOp} :
      PoolRun t₀ trace t → PoolStep op t t' → PoolRun t₀ ((t, op) :: trace) t'

/-- No page was given to anyone. -/
def PoolState.first (s : Hyp) : PoolState := ⟨s, ∅, ∅, ∅⟩

/-- The invariant of a run that started with the memory `m₀`. -/
structure PoolInv (himageEnd : ℕ) (m₀ : Mem) (t : PoolState) : Prop where
  port : PortKept m₀ t.hyp.ram.mem
  heap : HeapHas (poolStart himageEnd) t.hyp []
  got : ∀ n ∈ t.got, ManagedPage himageEnd n
  uses : ∃ l, OneUse himageEnd t.roots t.held t.hyp.ram l

/-- **What the pool should keep.**  Every free page lies in `[HIMAGE_END, PHYEND)`, is on the
list once, and no table translates to it; every page that was handed out lies there too, and
the serial port was not written. -/
structure RamOnly (himageEnd : ℕ) (m₀ : Mem) (t : PoolState) : Prop where
  free : ∃ l, Chain (read64 t.hyp.ram.mem) t.hyp.ram.pages.freelist l ∧ l.Nodup ∧
    ∀ n ∈ l, ManagedPage himageEnd n ∧
      ∀ r ∈ t.roots, ∀ ipa a, translate t.hyp.ram.mem r ipa ≠ some (n, a)
  got : ∀ n ∈ t.got, ManagedPage himageEnd n
  port : PortKept m₀ t.hyp.ram.mem

section runs
variable {himageEnd : ℕ} {m₀ : Mem} {s₀ : Hyp} {t t' : PoolState}

/-- What a successful call of `alloc_one_page` gives. -/
theorem PoolInv.take (I : PoolInv himageEnd m₀ t) (himg : IsImage himageEnd) {s' : Hyp} {n : ℕ}
    (h : zoom Hyp.ramPart allocOnePage t.hyp = .ok (some n) s') :
    PoolInv himageEnd m₀ ⟨s', insert n t.got, insert n t.held, t.roots⟩ ∧ n ∉ t.held ∧
      ∀ x ∈ block n pageSize, s'.ram.mem x = 0 := by
  obtain ⟨l, U⟩ := I.uses
  have hwp : wp (zoom Hyp.ramPart allocOnePage) (fun p s' => ∀ n, p = some n →
      PoolInv himageEnd m₀ ⟨s', insert n t.got, insert n t.held, t.roots⟩ ∧ n ∉ t.held ∧
        ∀ x ∈ block n pageSize, s'.ram.mem x = 0) (fun _ _ => True) t.hyp := by
    rw [wp_zoom]
    cases l with
    | nil =>
        refine wp_mono (allocOnePage_nil U.pool) ?_ fun _ _ h => h
        rintro p r rfl n hn
        cases hn
    | cons q l =>
        refine wp_mono (allocOnePage_cons U.pool) ?_ fun _ _ h => h
        rintro p r ⟨rfl, H, hmem, _⟩ n hn
        cases hn
        have hq : ManagedPage himageEnd q := U.free_managed List.mem_cons_self
        have hnot : q ∉ t.held := by
          intro hheld
          have huse := U.one .free .held q hq List.mem_cons_self hheld
          cases huse
        refine ⟨⟨fun x hx => ?_, I.heap.congr rfl, ?_, l, U.take H hmem⟩, hnot, fun x hx => ?_⟩
        · simp only [Hyp.set_ramPart, hmem]
          rw [fill_of_notMem (hq.notMem himg hx)]
          exact I.port hx
        · rintro x (rfl | hx)
          · exact hq
          · exact I.got x hx
        · simp only [Hyp.set_ramPart, hmem]
          exact fill_of_mem hx
  exact wp_partial.mp hwp _ _ h n rfl

/-- **One call** keeps the invariant. -/
theorem PoolStep.inv {op : PoolOp} (step : PoolStep op t t') (himg : IsImage himageEnd)
    (hspare : op.Spares t) (I : PoolInv himageEnd m₀ t) : PoolInv himageEnd m₀ t' := by
  obtain ⟨l, U⟩ := I.uses
  -- a call that works on pages and hands none out
  have hpages : ∀ {x : Exec Ram Unit} {held' : Set ℕ} {s' : Hyp},
      wp x (fun _ r => PortKept t.hyp.ram.mem r.mem ∧ ∃ l', OneUse himageEnd t.roots held' r l')
        (fun _ _ => True) t.hyp.ram → zoom Hyp.ramPart x t.hyp = .ok () s' →
      PoolInv himageEnd m₀ ⟨s', t.got, held', t.roots⟩ := by
    intro x held' s' hx hrun
    have hwp : wp (zoom Hyp.ramPart x)
        (fun _ s' => PoolInv himageEnd m₀ ⟨s', t.got, held', t.roots⟩) (fun _ _ => True) t.hyp := by
      rw [wp_zoom]
      refine wp_mono hx ?_ fun _ _ _ => trivial
      exact fun _ r ⟨hport, hU⟩ => ⟨hport.trans I.port, I.heap.congr rfl, I.got, hU⟩
    exact wp_partial.mp hwp _ _ hrun
  cases step with
  | alloc h => exact (I.take himg h).1
  | newRoot h =>
      rename_i s' n
      obtain ⟨I', hnot, hzero⟩ := I.take himg h
      obtain ⟨l', U'⟩ := I'.uses
      have hpos : 0 < himageEnd := lt_of_lt_of_le (by decide) (port_lt himg)
      have hroot := U'.newRoot hpos (Set.mem_insert n t.held) hzero
      rw [Set.insert_sdiff_self_of_notMem hnot] at hroot
      exact ⟨I'.port, I'.heap, I'.got, l', hroot⟩
  | map hr ha _ h => exact hpages (U.createGuestMapping himg hr ha hspare) h
  | device hr h => exact hpages (U.doDeviceMapping himg hr) h
  | unmap hr h => exact hpages (U.pageUnmap himg hr hspare) h
  | trap hr h =>
      have hend := wp_partial.mp (U.createMmioTrap himg I.heap hr hspare) _ _ h
      exact ⟨hend.1.trans I.port, hend.2.1, I.got, hend.2.2⟩
  | write hn hx =>
      rename_i n x v
      have hm : ManagedPage himageEnd n := by
        rcases hn with hheld | ⟨hne, r, hr, ipa, a, h⟩
        · exact U.held_managed hheld
        · exact U.out_managed hr h hne
      refine ⟨fun y hy => ?_, I.heap.congr rfl, I.got, l, U.write hm ?_ hx v⟩
      · have hne : y ≠ x := fun heq => hm.notMem himg hy (heq ▸ hx)
        simp only [Function.update_of_ne hne]
        exact I.port hy
      · rcases hn with hheld | ⟨_, r, hr, ipa, a, h⟩
        · exact ⟨.held, hheld, nofun, nofun⟩
        · exact ⟨.mapped r (vpn ipa), ⟨hr, ipa, a, rfl, h⟩, nofun, nofun⟩
  | other hmem hpg hblk =>
      refine ⟨by rw [hmem]; exact I.port, I.heap.congr hblk, I.got, l, ?_⟩
      refine ⟨U.pool.frame hpg fun _ _ _ _ => by rw [hmem], ?_, ?_, ?_⟩
      · rw [hmem]
        exact U.table
      · rw [hmem]
        exact U.managed
      · rw [hmem]
        exact U.one

/-- **Any calls** that spare what they must keep the invariant. -/
theorem PoolRun.inv {t₀ : PoolState} {trace : List (PoolState × PoolOp)}
    (run : PoolRun t₀ trace t) (himg : IsImage himageEnd)
    (hspare : ∀ e ∈ trace, e.2.Spares e.1) (I : PoolInv himageEnd m₀ t₀) :
    PoolInv himageEnd m₀ t := by
  induction run with
  | refl => exact I
  | step _ step ih =>
      obtain ⟨hlast, hbefore⟩ := List.forall_mem_cons.mp hspare
      exact step.inv himg hlast (ih hbefore)

/-- After boot every page behind the image is free. -/
theorem Booted.poolInv (himg : IsImage himageEnd) (h : Booted himageEnd s₀) :
    PoolInv himageEnd s₀.ram.mem (.first s₀) := by
  obtain ⟨_, _, live, H, _⟩ := (h.slots himg).1
  obtain ⟨live', _, U⟩ := H
  have hmanaged : ∀ n ∈ initPages himageEnd ((phyEnd - himageEnd) / pageSize),
      ManagedPage himageEnd n := fun n hn => (mem_initPages_iff himg.aligned).mp hn
  have hfree : ∀ u n, Uses s₀.ram.mem ∅ ∅ (initPages himageEnd ((phyEnd - himageEnd) / pageSize))
      u n → u = .free ∧ ManagedPage himageEnd n := by
    intro u n hu
    cases u with
    | free => exact ⟨rfl, hmanaged n hu⟩
    | held => exact absurd hu (Set.notMem_empty n)
    | table r p => exact absurd hu.1 (Set.notMem_empty r)
    | mapped r v => exact absurd hu.1 (Set.notMem_empty r)
  refine ⟨fun _ _ => rfl, ⟨live', List.nil_subset _, U⟩, fun n hn => ?_, _, h.pool himg,
    fun r hr => ?_, fun u n hu => Or.inl (hfree u n hu).2, fun u u' n _ hu hu' => ?_⟩
  · exact absurd hn (Set.notMem_empty n)
  · exact absurd hr (Set.notMem_empty r)
  · exact (hfree u n hu).1.trans (hfree u' n hu').1.symm

theorem PoolInv.ramOnly (I : PoolInv himageEnd m₀ t) : RamOnly himageEnd m₀ t := by
  obtain ⟨l, U⟩ := I.uses
  refine ⟨⟨l, U.pool.chain, U.pool.nodup, fun n hn => ⟨U.free_managed hn, ?_⟩⟩, I.got, I.port⟩
  intro r hr ipa a h
  have huse := U.one .free (.mapped r (vpn ipa)) n (U.free_managed hn) hn ⟨hr, ipa, a, rfl, h⟩
  cases huse

/-- A null page leaves memory and the free list as they were. -/
theorem allocOnePage_null (s : Ram) :
    wp allocOnePage (fun p s' => p = none → s'.mem = s.mem ∧
      s'.pages.freelist = s.pages.freelist) (fun _ _ => True) s := by
  simp only [allocOnePage, wp_bind, wp_get]
  refine spinLock_ends fun k => ?_
  by_cases h0 : s.pages.freelist = 0
  · simp only [Ram.set_pagesLock, h0, if_true, wp_pure]
    exact fun _ => ⟨trivial, trivial⟩
  · simp only [Ram.set_pagesLock, h0, if_false, wp_bind, wp_get, wp_load64, wp_modify]
    refine spinUnlock_ends fun k' => ?_
    simp only [wp_memset, wp_pure, reduceCtorEq, false_implies]

/-- **The pool holds RAM only**, in every run after boot in which a page that is mapped is still
its caller's and no range with the serial port is unmapped; a null page changes nothing about
it. -/
theorem pool_holds_ram (himg : IsImage himageEnd) (hboot : Booted himageEnd s₀)
    {trace : List (PoolState × PoolOp)} (run : PoolRun (.first s₀) trace t)
    (hspare : ∀ e ∈ trace, e.2.Spares e.1) :
    RamOnly himageEnd s₀.ram.mem t ∧
      ∀ s', zoom Hyp.ramPart allocOnePage t.hyp = .ok none s' →
        RamOnly himageEnd s₀.ram.mem { t with hyp := s' } := by
  have I := run.inv himg hspare (hboot.poolInv himg)
  refine ⟨I.ramOnly, fun s' h => ?_⟩
  have hwp : wp (zoom Hyp.ramPart allocOnePage) (fun p s' => p = none →
      s'.ram.mem = t.hyp.ram.mem ∧ s'.ram.pages.freelist = t.hyp.ram.pages.freelist)
      (fun _ _ => True) t.hyp := by
    rw [wp_zoom]
    exact allocOnePage_null _
  obtain ⟨hmem, hfree⟩ := wp_partial.mp hwp _ _ h rfl
  obtain ⟨hlist, hgot, hport⟩ := I.ramOnly
  refine ⟨?_, hgot, ?_⟩
  · rw [hmem, hfree]
    exact hlist
  · rw [hmem]
    exact hport

end runs

/-! ## A page mapped and unmapped -/

/-- After boot, a page is taken for a caller and another one for the root of a table. -/
theorem exists_root : ∃ s₀ t₁ t n r l, Booted bootEnd s₀ ∧
    PoolRun (.first s₀) [(t₁, .newRoot), (.first s₀, .alloc)] t ∧ n ∈ t.got ∧ n ∈ t.held ∧
    r ∈ t.roots ∧ t.hyp.ram.Pool l ∧ 3 ≤ l.length ∧
    ∀ ipa, translate t.hyp.ram.mem r ipa = none := by
  obtain ⟨s₀, hboot, _⟩ := @exists_booted bootEnd 63 [] isImage_bootEnd (by decide)
  have H := hboot.pool isImage_bootEnd
  have hlen : (initPages bootEnd ((phyEnd - bootEnd) / pageSize)).length = 32 := by decide
  generalize initPages bootEnd ((phyEnd - bootEnd) / pageSize) = l₀ at H hlen
  obtain ⟨n, r, l, rfl⟩ : ∃ n r l, l₀ = n :: r :: l := by
    match l₀, hlen with
    | n :: r :: l, _ => exact ⟨n, r, l, rfl⟩
  obtain ⟨_, r₁, hr₁, rfl, H₁, _⟩ := exists_ok_of_wp (allocOnePage_cons H)
  obtain ⟨_, r₂, hr₂, rfl, H₂, hmem, _⟩ := exists_ok_of_wp (allocOnePage_cons H₁)
  have hzero : ∀ i < 512, read64 r₂.mem (r + 8 * i) = 0 := by
    intro i hi
    rw [hmem]
    exact readLe_eq_zero fun x hx => fill_of_mem (entry_block hi hx)
  have hfirst := PoolStep.alloc (t := .first s₀) (zoom_of_ok hr₁)
  refine ⟨s₀, _, _, n, r, l, hboot, .step (.step .refl hfirst) (.newRoot (zoom_of_ok hr₂)), ?_, ?_,
    ?_, H₂, ?_, translate_fresh hzero⟩
  · exact Set.mem_insert_of_mem r (Set.mem_insert n _)
  · exact Set.mem_insert n _
  · exact Set.mem_insert r _
  · simp only [List.length_cons] at hlen
    omega

/-- A page is mapped in an empty table and unmapped again, whatever page it is; then it is the
first one of the free list. -/
theorem Stage2.map_unmap {s : Ram} {r va pa attr : ℕ} {l : List ℕ} (S : Stage2 s r l)
    (hlen : 3 ≤ l.length) (hempty : ∀ ipa, translate s.mem r ipa = none) (hpa : IsPage pa)
    (hne : pa ≠ 0) (ha : IsAttr attr) (hfree : pa ∉ l) (htab : ∀ p t, TableAt s.mem r p t → t ≠ pa)
    (hva : va % pageSize = 0) (hb : va < 2 ^ 64) :
    ∃ s₁ s₂, createGuestMapping r va pa pageSize attr s = .ok () s₁ ∧
      pageUnmap r va pageSize s₁ = .ok () s₂ ∧
      (∀ ipa a out, translate s₁.mem r ipa = some (out, a) → out = pa) ∧
      s₂.pages.freelist = pa := by
  have hzero := (S.table.translate_eq_none_iff va).mp (hempty va)
  have hmap : wp (createGuestMapping r va pa pageSize attr) (fun _ s' => ∃ used l',
      l = used ++ l' ∧ Stage2 s' r l' ∧ Maps s.mem s'.mem r va pa attr used)
      (fun _ _ => False) s := by
    have hbound := hpa.bound
    rw [wp_createGuestMapping_page hva hpa.aligned hb (by omega)]
    refine wp_mono (mapPage_spec S hpa ha hfree htab) ?_ ?_
    · rintro _ s' ⟨_, used, l', hl, _, S', M, _⟩
      exact ⟨used, l', hl, S', M⟩
    · rintro e _ (⟨_, h⟩ | ⟨_, h⟩)
      · exact h hzero
      · omega
  obtain ⟨_, s₁, hs₁, used, l', hl, S₁, M⟩ := exists_ok_of_wp hmap
  have htrans := M.translate hpa ha
  have hentry : leafEntry s₁.mem r va = leafOf pa attr := (M.entry va).trans (if_pos rfl)
  have hout : ptePa (leafEntry s₁.mem r va) = pa := by rw [hentry, ptePa_leafOf hpa ha]
  have honly : ∀ ipa a out, translate s₁.mem r ipa = some (out, a) → out = pa ∧ vpn ipa = vpn va := by
    intro ipa a out h
    rw [htrans, hempty] at h
    by_cases hv : vpn ipa = vpn va
    · rw [if_pos hv, Option.some_inj, Prod.mk.injEq] at h
      exact ⟨h.1.symm, hv⟩
    · rw [if_neg hv] at h
      cases h
  have hunmap : wp (pageUnmap r va pageSize) (fun _ s' => s'.pages.freelist = pa)
      (fun _ _ => False) s₁ := by
    have hpar : ¬ (va % pageSize ≠ 0 ∨ pageSize % pageSize ≠ 0) := by simp [hva]
    simp only [pageUnmap, hpar, if_false, wp_bind, wp_pure]
    rw [wp_forRange_once (by decide) (by decide), Nat.add_zero, Nat.mod_eq_of_lt hb]
    refine wp_mono (unmapPage_spec S₁ ?_ (hout.symm ▸ hne) ?_) ?_ fun _ _ h => h
    · rw [hentry]
      exact (isLeaf_leafOf pa attr).ne_zero
    · exact fun ipa a h => (honly ipa a _ h).2
    · rw [hout]
      exact fun _ s' h => h.1.pool.chain.1
  obtain ⟨_, s₂, hs₂, hhead⟩ := exists_ok_of_wp hunmap
  exact ⟨s₁, s₂, hs₁, hs₂, fun ipa a out h => (honly ipa a out h).1, hhead⟩

theorem pageRange_one (n : ℕ) : pageRange n pageSize = {n} := by
  ext x
  constructor
  · rintro ⟨k, hk, rfl⟩
    simp only [pageSize] at hk
    rw [show k = 0 by omega, Nat.zero_mul, Nat.add_zero, Set.mem_singleton_iff]
  · rintro rfl
    exact ⟨0, by decide, by rw [Nat.zero_mul, Nat.add_zero]⟩

/-- A page of RAM is mapped and unmapped. -/
theorem pool_holds_ram_unmap : ∃ s₀ t trace r n, Booted bootEnd s₀ ∧
    PoolRun (.first s₀) trace t ∧ trace.map Prod.snd = [.unmap r 0x80000000 pageSize,
      .map r 0x80000000 n pageSize (s2pteNormal ||| s2pteRw), .newRoot, .alloc] ∧
    RamOnly bootEnd s₀.ram.mem t := by
  obtain ⟨s₀, t₁, t, n, r, l, hboot, run, hgot, hheld, hr, H, hlen, hempty⟩ := exists_root
  have I := run.inv isImage_bootEnd (by simp [PoolOp.Spares]) (hboot.poolInv isImage_bootEnd)
  obtain ⟨l', U⟩ := I.uses
  obtain rfl : l = l' := H.unique U.pool
  have hn := U.held_managed hheld
  have hother : ∀ u, u ≠ .held → ¬ Uses t.hyp.ram.mem t.roots t.held l u n := fun u hu h =>
    hu (U.one u .held n hn h hheld)
  have hne : n ≠ 0 := (lt_of_lt_of_le (by decide) hn.low).ne'
  obtain ⟨s₁, s₂, hmap, hunmap, honly, _⟩ := (U.stage2 hr).map_unmap hlen hempty hn.isPage hne
    isAttr_normal (hother .free nofun)
    (fun p u hu heq => hother (.table r p) nofun ⟨hr, heq ▸ hu⟩)
    (show 0x80000000 % pageSize = 0 by decide) (by decide)
  have hrange : pageRange n pageSize = {n} := pageRange_one n
  let u : PoolState :=
    ⟨Hyp.ramPart.set s₁ t.hyp, t.got, t.held \ pageRange n pageSize, t.roots⟩
  have hmaps : PoolStep (.map r 0x80000000 n pageSize (s2pteNormal ||| s2pteRw)) t u :=
    .map hr isAttr_normal (by rw [hrange]; exact Set.singleton_subset_iff.mpr hgot)
      (zoom_of_ok hmap)
  have hunmaps : PoolStep (.unmap r 0x80000000 pageSize) u
      { u with hyp := Hyp.ramPart.set s₂ u.hyp } := .unmap hr (zoom_of_ok hunmap)
  have hrun := (run.step hmaps).step hunmaps
  refine ⟨s₀, _, _, r, n, hboot, hrun, rfl, (pool_holds_ram isImage_bootEnd hboot hrun ?_).1⟩
  intro e he
  simp only [List.mem_cons, List.not_mem_nil, or_false] at he
  rcases he with rfl | rfl | rfl | rfl
  · exact fun k _ a h => hn.ne_port isImage_bootEnd (honly _ a _ h).symm
  · change pageRange n pageSize ⊆ t.held
    rw [hrange]
    exact Set.singleton_subset_iff.mpr hheld
  · trivial
  · trivial

/-- **Unmapping the serial port** puts its page on the free list. -/
theorem pool_port_freed : ∃ s₀ t trace r, Booted bootEnd s₀ ∧ PoolRun (.first s₀) trace t ∧
    trace.map Prod.snd = [.unmap r pl011Base pageSize, .device r, .newRoot, .alloc] ∧
    t.hyp.ram.pages.freelist = pl011Base ∧ ¬ RamOnly bootEnd s₀.ram.mem t := by
  obtain ⟨s₀, t₁, t, n, r, l, hboot, run, _, _, hr, H, hlen, hempty⟩ := exists_root
  have I := run.inv isImage_bootEnd (by simp [PoolOp.Spares]) (hboot.poolInv isImage_bootEnd)
  obtain ⟨l', U⟩ := I.uses
  obtain rfl : l = l' := H.unique U.pool
  obtain ⟨s₁, s₂, hmap, hunmap, _, hhead⟩ := (U.stage2 hr).map_unmap hlen hempty
    (show IsPage pl011Base by constructor <;> decide) (by decide) isAttr_device
    (fun h => (U.free_managed h).ne_port isImage_bootEnd rfl)
    (fun p u hu heq => (U.table_managed hr hu).ne_port isImage_bootEnd heq)
    (show pl011Base % pageSize = 0 by decide) (by decide)
  let u : PoolState := { t with hyp := Hyp.ramPart.set s₁ t.hyp }
  have hmaps : PoolStep (.device r) t u := .device hr (zoom_of_ok hmap)
  have hunmaps : PoolStep (.unmap r pl011Base pageSize) u
      { u with hyp := Hyp.ramPart.set s₂ u.hyp } := .unmap hr (zoom_of_ok hunmap)
  refine ⟨s₀, _, _, r, hboot, (run.step hmaps).step hunmaps, rfl, hhead, fun hsafe => ?_⟩
  obtain ⟨l', hchain, _, hmanaged⟩ := hsafe.free
  have hmem : pl011Base ∈ l' := by
    cases l' with
    | nil =>
        have h0 : s₂.pages.freelist = 0 := hchain
        rw [hhead] at h0
        exact absurd h0 (by decide)
    | cons q l' =>
        have hq : s₂.pages.freelist = q := hchain.1
        rw [← hhead, hq]
        exact List.mem_cons_self
  exact (hmanaged _ hmem).1.ne_port isImage_bootEnd rfl

end Xhyper
