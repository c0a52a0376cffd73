import Xhyper.Creation
import Xhyper.Stage2Map

/-!
# How many pages a machine takes

The pages of a range follow each other, and 512 of them share their tables: a page whose
predecessor is mapped needs no table but at the start of such a group.  A range of `n` pages takes
`n` pages and at most three for each group that it reaches into, where three for each page would be
more than there is in memory.

## Main definitions

* `groups`, `budget` — the groups of 512 pages, and the pages that a range takes.
* `ReadWrite` — tables whose pages may be read and written.
* `VmConfig.budget` — the pages that a machine takes.
* `Built.memory_within`, `Creatable.tables_within` — that many are enough.
-/

namespace Xhyper

open Memory Prog Radix

/-! ## Pages whose tables are there -/

section shared
variable {Q : Option ℕ → Ram → Prop} {E : Fault → Ram → Prop} {s : Ram} {r va t u : ℕ} {l : List ℕ}

/-- A walk of the levels `levels` whose tables are there allocates nothing. -/
theorem wp_pageWalkFrom_present (levels : List ℕ) (t : ℕ)
    (h : follow (child s.mem) t (levels.map fun level => pindex level va) = some u) :
    wp (pageWalkFrom va true levels t) Q E s ↔ Q (some u) s := by
  induction levels generalizing t with
  | nil =>
      obtain rfl : t = u := by simpa using h
      simp [pageWalkFrom]
  | cons level levels ih =>
      rw [List.map_cons, follow_cons] at h
      cases hchild : child s.mem t (pindex level va) with
      | none => simp [hchild] at h
      | some v =>
          rw [hchild, Option.bind_some] at h
          simp only [child] at hchild
          split at hchild
          case isFalse => cases hchild
          case isTrue hentry =>
            rw [Option.some_inj] at hchild
            simp only [pageWalkFrom, wp_bind, wp_load64, hentry, if_true, hchild]
            exact ih v h

/-- **A walk whose tables are there** allocates nothing. -/
theorem wp_pageWalk_present (hu : TableAt s.mem r (tablePath va) u) :
    wp (pageWalk r va true) Q E s ↔ Q (some (u + 8 * pindex 3 va)) s := by
  simp only [pageWalk, wp_bind]
  rw [wp_pageWalkFrom_present [0, 1, 2] r hu.walk]
  simp

/-- Mapping a page whose tables are there takes no page. -/
theorem mapPage_shared {pa attr : ℕ} (hu : TableAt s.mem r (tablePath va) u) :
    wp (mapPage r va pa attr) (fun _ s' => s'.pages = s.pages) (fun e _ => ¬ OutOfPages e) s := by
  have hused : ¬ OutOfPages mapUsed := by simp [OutOfPages]
  simp only [mapPage, wp_bind]
  rw [wp_pageWalk_present hu]
  simp only [wp_bind, wp_load64, wp_ite, wp_abort, wp_store64, hused, not_false_eq_true, and_true,
    implies_true]

/-- A free list with the same head, cut off at the front, is the whole list. -/
theorem Ram.Pool.eq_of_suffix {s' : Ram} {l' : List ℕ} (H : s.Pool l) (H' : s'.Pool l')
    (hhead : s'.pages.freelist = s.pages.freelist) (hsuf : l' <:+ l) : l' = l := by
  obtain ⟨used, rfl⟩ := hsuf
  cases used with
  | nil => rfl
  | cons q used =>
      exfalso
      obtain ⟨hq, hne, _⟩ := H.chain
      cases l' with
      | nil => exact hne (hq.symm.trans (hhead.symm.trans H'.chain))
      | cons p l' =>
          obtain ⟨hp, _, _⟩ := H'.chain
          obtain rfl : p = q := hp.symm.trans (hhead.trans hq)
          exact (List.nodup_cons.mp H.nodup).1 (List.mem_append_right _ List.mem_cons_self)

/-- **Loading a page whose tables are there** takes one page. -/
theorem loadPage_shared {ipa src n page : ℕ} (S : Stage2 s r (page :: l))
    (hipa : ipa % pageSize = 0) (hb : ipa < 2 ^ 48) (hn : n ≤ pageSize)
    (hu : TableAt s.mem r (tablePath ipa) u) :
    wp (loadPage r ipa src n) (fun _ s' => ∀ l', s'.Pool l' → l' <:+ l → l' = l)
      (fun e _ => ¬ OutOfPages e) s := by
  have hpage := S.pool.page page List.mem_cons_self
  have hpageb := hpage.bound
  simp only [loadPage, takePage, wp_bind]
  refine wp_mono (allocOnePage_cons S.pool) ?_ fun _ _ h => h
  rintro _ s₁ ⟨rfl, hpool, hmem, _⟩
  simp only [wp_pure, wp_memcpy]
  rw [wp_createGuestMapping_page hipa hpage.aligned (by omega) (by omega)]
  -- the page that was taken is no table
  have hout : Set.EqOn (copy s₁.mem page src n) s.mem (block page pageSize)ᶜ := by
    intro x hx
    rw [hmem]
    exact freshPage_of_notMem hn hx
  have hu' := (tableAt_frame (S.eqOn_tables List.mem_cons_self hout) _ u).mpr hu
  refine wp_mono (mapPage_shared hu') ?_ fun _ _ h => h
  intro _ s' hpages l' H' hsuf
  exact hpool.eq_of_suffix H' (congrArg Pages.freelist hpages) hsuf

end shared

/-! ## Pages of a range -/

section arithmetic
variable {a k : ℕ}

/-- How many groups of 512 pages the first `k` pages from `a` reach into. -/
def groups (a k : ℕ) : ℕ := if k = 0 then 0 else (a / pageSize % 512 + k + 511) / 512

/-- The pages that `k` pages from `a` take, with their tables. -/
def budget (a k : ℕ) : ℕ := k + 3 * groups a k

@[simp] theorem budget_zero (a : ℕ) : budget a 0 = 0 := rfl

theorem budget_mono (h : k ≤ n) : budget a k ≤ budget a n := by
  simp only [budget, groups]
  split <;> split <;> omega

/-- The page `k` is of the group of the page in front of it. -/
def Follows (a k : ℕ) : Prop := 0 < k ∧ (a / pageSize + k) % 512 ≠ 0

/-- A page of a group that was reached takes itself only. -/
theorem budget_follows (h : Follows a k) : budget a (k + 1) = budget a k + 1 := by
  obtain ⟨hpos, hne⟩ := h
  simp only [budget, groups, if_neg hpos.ne', if_neg (Nat.succ_ne_zero k)]
  omega

/-- The first page of a group takes three tables at most. -/
theorem budget_starts (h : ¬ Follows a k) : budget a (k + 1) = budget a k + 4 := by
  simp only [budget, groups, if_neg (Nat.succ_ne_zero k)]
  by_cases hk : k = 0
  · subst hk
    have hlt : a / pageSize % 512 < 512 := Nat.mod_lt _ (by decide)
    rw [if_pos rfl]
    omega
  · have hmod : (a / pageSize + k) % 512 = 0 := by
      by_contra hne
      exact h ⟨Nat.pos_of_ne_zero hk, hne⟩
    rw [if_neg hk]
    omega

/-- Two addresses of one group have their tables in common. -/
theorem tablePath_eq {x y : ℕ} (h : x / 2 ^ 21 = y / 2 ^ 21) : tablePath x = tablePath y := by
  have h1 : x / 2 ^ 30 = y / 2 ^ 30 := by omega
  have h0 : x / 2 ^ 39 = y / 2 ^ 39 := by omega
  simp only [tablePath, pindex_eq, h, h1, h0]

theorem Follows.tablePath (h : Follows a k) (ha : a % pageSize = 0) :
    tablePath (a + k * pageSize) = Xhyper.tablePath (a + (k - 1) * pageSize) := by
  obtain ⟨hpos, hne⟩ := h
  refine tablePath_eq ?_
  simp only [pageSize] at *
  omega

end arithmetic

section built
variable {m₀ : Mem} {l₀ l : List ℕ} {r : ℕ} {s : Ram} {a k n : ℕ}

/-- A mapped page has its table. -/
theorem tableAt_of_mapped {m : Mem} {ipa : ℕ} (h : leafEntry m r ipa ≠ 0) :
    ∃ u, TableAt m r (tablePath ipa) u := by
  by_contra hno
  apply h
  rw [leafEntry_of_none]
  rw [Option.eq_none_iff_forall_ne_some]
  intro u hu
  exact hno ⟨u, (tableAt_tablePath _ _ _ _).mpr hu⟩

/-- The pages that the tables of `r` map are normal memory, and may be read and written. -/
def ReadWrite (m : Mem) (r : ℕ) : Prop := ∀ ipa out attr, translate m r ipa = some (out, attr) →
  attr = s2pteNormal ||| s2pteRw ||| pteAf ||| pteV

/-- The tables of `r` are under construction, all pages may be written, and no more than `used`
pages were taken for them. -/
def BuiltWith (m₀ : Mem) (l₀ : List ℕ) (r used : ℕ) (s : Ram) : Prop :=
  ∃ l, Built ∅ m₀ l₀ r s l ∧ ReadWrite s.mem r ∧ l₀.length ≤ l.length + used

/-- The first `k` pages from `a` are mapped, and the pages that they took, with `used` others, are
within the budget. -/
structure Within (m₀ : Mem) (l₀ : List ℕ) (r used a k : ℕ) (s : Ram) : Prop where
  built : BuiltWith m₀ l₀ r (used + budget a k) s
  last : 0 < k → ∃ u, TableAt s.mem r (tablePath (a + (k - 1) * pageSize)) u

/-- A page of a range takes four pages at most, and is mapped then. -/
theorem Built.loadPart_four {src size : ℕ} (B : Built ∅ m₀ l₀ r s l) (C : ClearRange a n)
    (hk : k < n) (hsize : size ≤ pageSize) (hrw : ReadWrite s.mem r) :
    wp (Xhyper.loadPage r ((a + k * pageSize) % 2 ^ 64) src size)
      (fun _ s' => leafEntry s'.mem r (a + k * pageSize) ≠ 0 ∧ ReadWrite s'.mem r ∧
        ∃ page used l', l = page :: (used ++ l') ∧ l.length ≤ l'.length + 4 ∧
          Built ∅ m₀ l₀ r s' l')
      (fun e _ => OutOfPages e → l.length < 4) s := by
  have halign := C.aligned
  have hbound := C.bound
  have hend : k * pageSize + pageSize ≤ n * pageSize := mul_add_le hk
  have hps : pageSize = 4096 := rfl
  have h48 : a + k * pageSize < 2 ^ 48 := by omega
  have hmod : (a + k * pageSize) % pageSize = 0 := by rw [Nat.add_mul_mod_self_right, halign]
  have hkept : wp (Xhyper.loadPage r ((a + k * pageSize) % 2 ^ 64) src size) _ _ s :=
    B.loadPart C hk hsize
  rw [Nat.mod_eq_of_lt (show a + k * pageSize < 2 ^ 64 by omega)] at hkept ⊢
  refine wp_mono (wp_both (loadPage_spec B.stage2 hmod h48 hsize) hkept) ?_ ?_
  · rintro _ s' ⟨⟨_, page, used, l', hl, hused, S', _, hleaf, M, _⟩, l'', B'⟩
    obtain rfl : l'' = l' := B'.stage2.pool.unique S'.pool
    have hpage := B.stage2.pool.page page (hl ▸ List.mem_cons_self)
    refine ⟨?_, fun x out attr hx => ?_, page, used, l'', hl, ?_, B'⟩
    · rw [M.entry, if_pos rfl]
      exact (isLeaf_leafOf _ _).ne_zero
    · rw [M.translate hpage isAttr_normal] at hx
      by_cases hv : vpn x = vpn (a + k * pageSize)
      · rw [if_pos hv, Option.some_inj, Prod.mk.injEq] at hx
        exact hx.2.symm
      · rw [if_neg hv, translate, hleaf] at hx
        exact hrw x out attr hx
    · rw [hl, List.length_cons, List.length_append]
      omega
  · rintro e _ ⟨⟨rfl, _⟩ | ⟨_, hlt⟩, _⟩ hoom
    · simp [OutOfPages] at hoom
    · exact hlt

/-- **The next page** is within the budget. -/
theorem Within.loadPage {used src size : ℕ} (W : Within m₀ l₀ r used a k s) (C : ClearRange a n)
    (hk : k < n) (hsize : size ≤ pageSize) (henough : used + budget a n ≤ l₀.length) :
    wp (Xhyper.loadPage r ((a + k * pageSize) % 2 ^ 64) src size)
      (fun _ s' => Within m₀ l₀ r used a (k + 1) s') (fun e _ => ¬ OutOfPages e) s := by
  obtain ⟨l, B, hrw, hlen⟩ := W.built
  have hmono : budget a (k + 1) ≤ budget a n := budget_mono hk
  have hspec : wp (Xhyper.loadPage r ((a + k * pageSize) % 2 ^ 64) src size) _ _ s :=
    B.loadPart_four C hk hsize hrw
  by_cases hf : Follows a k
  · have halign := C.aligned
    have hbound := C.bound
    have hend : k * pageSize + pageSize ≤ n * pageSize := mul_add_le hk
    have hps : pageSize = 4096 := rfl
    have h48 : a + k * pageSize < 2 ^ 48 := by omega
    have hmod : (a + k * pageSize) % pageSize = 0 := by rw [Nat.add_mul_mod_self_right, halign]
    obtain ⟨u, hu⟩ := W.last hf.1
    rw [← hf.tablePath halign] at hu
    have hone := budget_follows hf
    obtain ⟨page, l, rfl⟩ : ∃ page l', l = page :: l' := by
      cases l with
      | nil => simp only [List.length_nil] at hlen; omega
      | cons page l' => exact ⟨page, l', rfl⟩
    rw [List.length_cons] at hlen
    rw [Nat.mod_eq_of_lt (show a + k * pageSize < 2 ^ 64 by omega)] at hspec ⊢
    refine wp_mono (wp_both hspec (loadPage_shared B.stage2 hmod h48 hsize hu)) ?_ fun e _ h => h.2
    rintro _ s' ⟨⟨hmapped, hrw', page', us, l', hl, _, B'⟩, hall⟩
    obtain rfl : l' = l := hall l' B'.stage2.pool ⟨us, (List.cons.inj hl).2.symm⟩
    exact ⟨⟨l', B', hrw', by omega⟩, fun _ => tableAt_of_mapped hmapped⟩
  · have hfour := budget_starts hf
    refine wp_mono hspec ?_ ?_
    · rintro _ s' ⟨hmapped, hrw', page, us, l', _, hle, B'⟩
      exact ⟨⟨l', B', hrw', by omega⟩, fun _ => tableAt_of_mapped hmapped⟩
    · intro e _ hlt hoom
      have h4 := hlt hoom
      omega

/-- Writing to mapped pages, or to the first page, leaves the mapping alone. -/
theorem Built.translate_write (B : Built ∅ m₀ l₀ r s l) {m' : Mem}
    (hm : ∀ x, pageSize ≤ x → m' x ≠ s.mem x → ∃ ipa out a,
      translate s.mem r ipa = some (out, a) ∧ out ∈ l₀ ∧ x ∈ block out pageSize) (ipa : ℕ) :
    translate m' r ipa = translate s.mem r ipa := by
  have T := B.stage2.table
  have hsame : ∀ p t, TableAt s.mem r p t → Set.EqOn m' s.mem (block t pageSize) := by
    intro p t ht x hx
    by_contra hne
    have hpage := (T.isPage ht).aligned
    obtain ⟨ipa, out, a, h, _, hxo⟩ := hm x (pageSize_le_of_mem hpage (T.ne_zero p t ht) hx) hne
    apply B.stage2.out_apart ipa out a p t h ht
    exact page_disjoint hpage (translate_isPage h).aligned hx hxo
  rw [translate, translate, leafEntry_frame hsame]

/-- **Copying to a guest address** takes no page and leaves the mapping alone, whatever the
address. -/
theorem BuiltWith.copy {used : ℕ} (B : BuiltWith m₀ l₀ r used s) {dst src n : ℕ} :
    wp (copyToIpa r dst src n) (fun _ s' => BuiltWith m₀ l₀ r used s') (fun e _ => ¬ OutOfPages e)
      s := by
  simp only [copyToIpa, wp_bind, wp_pure]
  refine wp_whileLoop (fun _ s' => BuiltWith m₀ l₀ r used s') (fun b => b.2.2) ?_
    (fun _ _ _ h => h) _ _ _ (Nat.lt_succ_self _) B
  rintro ⟨toIpa, src', left⟩ s' hc ⟨l', B', hrw, hlen⟩
  have hpos := Nat.mod_lt toIpa (show 0 < pageSize by decide)
  have hleft : 0 < left := by simpa using hc
  simp only [copyRound, ipaToPa, wp_bind, wp_pageWalk_false]
  cases hpte : pteAt s'.mem r toIpa with
  | none => simp [OutOfPages]
  | some pte =>
      simp only [wp_bind, wp_load64, wp_pure, and_page]
      generalize hk : (if pageSize - toIpa % pageSize > left then left
        else pageSize - toIpa % pageSize) = k
      have hkb : toIpa % pageSize + k ≤ pageSize ∧ 0 < k := by
        by_cases h : pageSize - toIpa % pageSize > left
        · rw [if_pos h] at hk
          omega
        · rw [if_neg h] at hk
          omega
      have hentry : leafEntry s'.mem r toIpa = read64 s'.mem pte := by
        simp only [leafEntry, hpte]
      by_cases hpa : ptePa (read64 s'.mem pte) + toIpa % pageSize = 0
      · rw [if_pos hpa]
        simp [OutOfPages]
      rw [if_neg hpa]
      simp only [wp_bind, wp_memcpy, wp_pure]
      -- an entry leads to the page it maps, and an empty one to the first page
      have hwrites : ∀ x, pageSize ≤ x →
          Memory.copy s'.mem (ptePa (read64 s'.mem pte) + toIpa % pageSize) src' k x ≠ s'.mem x →
          ∃ ipa out a, translate s'.mem r ipa = some (out, a) ∧ out ∈ l₀ ∧
            x ∈ block out pageSize := by
        intro x hx hne
        have hin : x ∈ block (ptePa (read64 s'.mem pte) + toIpa % pageSize) k := by
          by_contra hout
          exact hne (copy_of_notMem hout)
        by_cases h0 : leafEntry s'.mem r toIpa = 0
        · rw [← hentry, h0, mem_block, show ptePa 0 = 0 from rfl] at hin
          omega
        · have htrans := B'.stage2.table.translate_of_ne h0
          refine ⟨toIpa, _, _, htrans, ?_, ?_⟩
          · exact (B'.outs _ _ _ htrans).resolve_right (Set.notMem_empty _)
          · rw [hentry]
            simp only [mem_block] at hin ⊢
            omega
      refine ⟨⟨l', B'.write hwrites, fun ipa out attr h => ?_, hlen⟩, by omega⟩
      rw [B'.translate_write hwrites] at h
      exact hrw ipa out attr h

/-- The pages that a machine takes for its memory. -/
def VmConfig.memoryBudget (cfg : VmConfig) (image dtb : Guest) : ℕ :=
  budget cfg.entryAddr (cfg.ramPages image) + 4 * pagesFor dtb.imageSize

/-- **`do_memory_mapping` with pages enough** does not run out of them, and all that it maps may be
read and written. -/
theorem BuiltWith.memory {cfg : VmConfig} {used : ℕ} (B : BuiltWith m₀ l₀ r used s)
    (G : GuestPlaced cfg) (himage : cfg.guestImage = some image) (hdtb : cfg.guestDtb = some dtb)
    (henough : used + cfg.memoryBudget image dtb ≤ l₀.length) :
    wp (doMemoryMapping r cfg)
      (fun _ s' => BuiltWith m₀ l₀ r (used + cfg.memoryBudget image dtb) s')
      (fun e _ => ¬ OutOfPages e) s := by
  have C := G.ram image himage
  have D := G.dtb dtb hdtb
  rw [VmConfig.memoryBudget] at *
  generalize hn : cfg.ramPages image = n at *
  have hpages : pagesFor image.imageSize ≤ n := by
    rw [← hn]
    simp only [VmConfig.ramPages, pagesFor, pageSize]
    omega
  simp only [doMemoryMapping, wp_bind, himage, hdtb, derefGuest, wp_pure]
  -- the image
  refine wp_forRange (fun k s' => Within m₀ l₀ r used cfg.entryAddr k s') (by decide) ?_
    ⟨by rwa [budget_zero], fun hpos => absurd hpos (lt_irrefl 0)⟩ ?_
  · intro k t hk W
    rw [Nat.zero_add] at hk ⊢
    refine W.loadPage C ?_ (copySize_le _ _) (by omega)
    simp only [pagesFor, pageSize] at *
    omega
  intro k₁ s₁ hk₁ W₁
  -- the RAM behind it
  refine wp_forRange (fun j s' => Within m₀ l₀ r used cfg.entryAddr (k₁ + j) s') (by decide) ?_ W₁ ?_
  · intro j t hj W
    have hsum : 0 + k₁ * pageSize + j * pageSize = (k₁ + j) * pageSize := by ring
    rw [hsum, wp_zeroPage 0]
    refine W.loadPage C ?_ (Nat.zero_le _) (by omega)
    simp only [VmConfig.ramPages, pagesFor, pageSize] at *
    omega
  intro j₂ s₂ hj₂ W₂
  have hk₂ : k₁ + j₂ ≤ n := by
    simp only [VmConfig.ramPages, pagesFor, pageSize] at *
    omega
  obtain ⟨l₂, B₂, hrw₂, hlen₂⟩ := W₂.built
  have hmono : budget cfg.entryAddr (k₁ + j₂) ≤ budget cfg.entryAddr n := budget_mono hk₂
  -- the device tree, and the RAM disk with every page of it
  refine wp_forRange (fun k s' => BuiltWith m₀ l₀ r (used + (budget cfg.entryAddr n + 4 * k)) s')
    (by decide) ?_ ⟨l₂, B₂, hrw₂, by omega⟩ ?_
  · rintro k t hk ⟨l', B', hrw', hlen'⟩
    rw [Nat.zero_add] at hk ⊢
    have hkn : k < pagesFor dtb.imageSize := by
      simp only [pagesFor, pageSize] at *
      omega
    simp only [wp_bind]
    refine wp_mono (B'.loadPart_four D hkn (copySize_le _ _) hrw') ?_ ?_
    · rintro _ u ⟨_, hrw'', _, _, l'', _, hle, B''⟩
      have W'' : BuiltWith m₀ l₀ r (used + (budget cfg.entryAddr n + 4 * (k + 1))) u :=
        ⟨l'', B'', hrw'', by omega⟩
      cases cfg.guestInitrd with
      | none => exact (by simp [OutOfPages] : ¬ OutOfPages Fault.nullDeref)
      | some initrd =>
          simp only [wp_pure]
          exact W''.copy
    · intro e _ hlt hoom
      have h4 := hlt hoom
      omega
  · rintro k t hk ⟨l', B', hrw', hlen'⟩
    refine ⟨l', B', hrw', ?_⟩
    have hkn : k ≤ pagesFor dtb.imageSize := by
      simp only [pagesFor, pageSize] at *
      omega
    omega

/-- The pages that a machine takes. -/
def VmConfig.budget (cfg : VmConfig) (image dtb : Guest) : ℕ := 1 + cfg.memoryBudget image dtb + 3

/-- A root off the free list has no page mapped. -/
theorem BuiltWith.root {m : Mem} (L : Loaded m l r s l fun _ => none)
    (B : Built ∅ m₀ (r :: l) r s l) : BuiltWith m₀ (r :: l) r 1 s := by
  refine ⟨l, B, fun ipa out attr h => ?_, le_rfl⟩
  have hnone := L.bytes (ipa % 2 ^ 48) (Nat.mod_lt _ (by decide))
  have hvpn : vpn ipa = vpn (ipa % 2 ^ 48) := by
    simp only [vpn, pageSize]
    omega
  rw [guestByte_eq_none, translate, ← leafEntry_congr hvpn] at hnone
  rw [translate, hnone] at h
  cases h

/-- **The tables can be built** with the pages of the budget. -/
theorem Creatable.tables_within {start : ℕ} {cfg : VmConfig} {image dtb initrd : Guest}
    (C : Creatable l₀ cfg image dtb initrd) (hl : HighPages start l₀)
    (hlen : cfg.budget image dtb ≤ l₀.length) :
    TablesWithin start l₀ cfg (cfg.budget image dtb) := by
  rw [VmConfig.budget] at *
  refine C.tables_of_memory hl (by omega) fun m₀ r l s₁ heq L₁ B₁ => ?_
  subst heq
  have P := C.plan r l rfl
  have hwithin := (BuiltWith.root L₁ B₁).memory C.placed P.image_eq P.dtb_eq (by omega)
  refine wp_mono (wp_both (doMemoryMapping_spec P L₁) hwithin) ?_ fun _ _ h => h.2 h.1.1
  rintro _ s₂ ⟨⟨l₂, _, L₂⟩, l₂', B₂, _, hlen₂⟩
  obtain rfl : l₂ = l₂' := L₂.stage2.pool.unique B₂.stage2.pool
  exact ⟨l₂, L₂, B₂, by omega⟩

end built

end Xhyper
