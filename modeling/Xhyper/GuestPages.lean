import Xhyper.GuestMemory
import Xhyper.Slots

/-!
# The pages of a machine

Making a machine takes pages off the free list.  Some become its tables and the others its
memory, and both stay among the pages that were taken; besides these only the page of the
serial port is mapped.

The loader may be given any images.  What it reads ends up in the machine's pages, and what it
writes is a page it took, or a byte of the first page of memory: that is where `ipa_to_pa`
leads when it finds an empty entry, and neither tables nor free pages are there.

## Main definitions

* `Held` — tables and mapped pages are among some pages.
* `Built` — the tables under construction.
* `GuestPlaced` — where a configuration may place RAM and device tree.
* `BuildsTable.placed` — what making a machine does to memory.
-/

namespace Xhyper

open Memory Prog Radix

/-! ## Tables that keep to their pages -/

/-- The tables of `r`, and the pages they map besides the serial port, are among `own`, and no
table is mapped. -/
structure Held (m : Mem) (r : ℕ) (own : Set ℕ) : Prop where
  table : Table m r
  tables : ∀ p t, TableAt m r p t → t ∈ own
  outs : ∀ ipa out a, translate m r ipa = some (out, a) → out ∈ own ∨ out = pl011Base
  apart : ∀ ipa out a p t, translate m r ipa = some (out, a) → TableAt m r p t → t ≠ out

section held
variable {m m' : Mem} {r : ℕ} {own : Set ℕ}

/-- What does not write to the pages keeps the tables. -/
theorem Held.frame (H : Held m r own) (hm : ∀ p ∈ own, Set.EqOn m' m (block p pageSize)) :
    Held m' r own := by
  have hsame : ∀ p t, TableAt m r p t → Set.EqOn m' m (block t pageSize) :=
    fun p t ht => hm t (H.tables p t ht)
  have htab := tableAt_frame hsame
  have htrans : ∀ ipa, translate m' r ipa = translate m r ipa := by
    intro ipa
    rw [translate, translate, leafEntry_frame hsame]
  refine ⟨H.table.frame hsame, fun p t ht => H.tables p t ((htab p t).mp ht), ?_, ?_⟩
  · exact fun ipa out a h => H.outs ipa out a (htrans ipa ▸ h)
  · exact fun ipa out a p t h ht => H.apart ipa out a p t (htrans ipa ▸ h) ((htab p t).mp ht)

end held

/-- An address in the two megabytes that hold the interrupt controller's windows. -/
def InGicBlock (va : ℕ) : Prop := gicdBase ≤ va ∧ va < gicdBase + 0x200000

/-- Those addresses have one last-level table, which no other address has. -/
theorem inGicBlock_of_tablePath {va : ℕ} (hb : va < 2 ^ 48)
    (h : tablePath va = tablePath gicdBase) : InGicBlock va := by
  simp only [tablePath, List.cons.injEq, and_true, pindex_eq, InGicBlock] at h ⊢
  norm_num only at h ⊢
  omega

/-! ## Tables under construction -/

/-- The tables of `r` under construction, from the memory `m₀` and the free pages `l₀`, of
which `l` are left.  Besides pages of `l₀` those of `io` may be mapped. -/
structure Built (io : Set ℕ) (m₀ : Mem) (l₀ : List ℕ) (r : ℕ) (s : Ram) (l : List ℕ) : Prop where
  stage2 : Stage2 s r l
  free : ∀ p ∈ l, p ∈ l₀
  tables : ∀ p t, TableAt s.mem r p t → t ∈ l₀
  outs : ∀ ipa out a, translate s.mem r ipa = some (out, a) → out ∈ l₀ ∨ out ∈ io
  noGic : ∀ t, ¬ TableAt s.mem r (tablePath gicdBase) t
  frame : ∀ x, pageSize ≤ x → (∀ p ∈ l₀, x ∉ block p pageSize) → s.mem x = m₀ x

section built
variable {io io' : Set ℕ} {m₀ : Mem} {l₀ l : List ℕ} {r : ℕ} {s : Ram}

/-- A byte of a page that is not the first one. -/
theorem pageSize_le_of_mem {p x : ℕ} (hp : p % pageSize = 0) (hne : p ≠ 0)
    (hx : x ∈ block p pageSize) : pageSize ≤ x := by
  simp only [mem_block, pageSize] at *
  omega

/-- **The root** is a page off the free list. -/
theorem built_root (H : s.Pool l₀) :
    wp allocOnePage (fun p s' => ∀ r, p = some r → ∃ l, l₀ = r :: l ∧ Built ∅ s.mem l₀ r s' l)
      (fun _ _ => False) s := by
  cases l₀ with
  | nil =>
      refine wp_mono (allocOnePage_nil H) ?_ fun _ _ h => h
      rintro p s' rfl r hr
      cases hr
  | cons r l =>
      refine wp_mono (allocOnePage_cons H) ?_ fun _ _ h => h
      rintro p s' ⟨rfl, H', hmem, _⟩ r' hr
      cases hr
      have hzero : ∀ i < 512, read64 s'.mem (r + 8 * i) = 0 := by
        intro i hi
        rw [hmem]
        exact readLe_eq_zero fun x hx => fill_of_mem (entry_block hi hx)
      have hnd := List.nodup_cons.mp H.nodup
      refine ⟨l, rfl, Stage2.fresh H' (H.page r List.mem_cons_self)
        (H.ne_zero List.mem_cons_self) hnd.1 hzero, fun p hp => List.mem_cons_of_mem r hp, ?_, ?_,
        ?_, ?_⟩
      · intro p t ht
        rw [((tableAt_fresh hzero).mp ht).2]
        exact List.mem_cons_self
      · intro ipa out a h
        rw [translate_fresh hzero] at h
        cases h
      · intro t ht
        have hpath := ((tableAt_fresh hzero).mp ht).1
        cases hpath
      · intro x _ hx
        rw [hmem, fill_of_notMem (hx r List.mem_cons_self)]

/-- Writing to mapped pages of `l₀`, or to the first page, leaves the tables alone. -/
theorem Built.write (B : Built io m₀ l₀ r s l) {m' : Mem}
    (hm : ∀ x, pageSize ≤ x → m' x ≠ s.mem x → ∃ ipa out a,
      translate s.mem r ipa = some (out, a) ∧ out ∈ l₀ ∧ x ∈ block out pageSize) :
    Built io m₀ l₀ r { s with mem := m' } l := by
  have T := B.stage2.table
  have hsame : ∀ p t, TableAt s.mem r p t → Set.EqOn m' s.mem (block t pageSize) := by
    intro p t ht x hx
    by_contra hne
    have hpage := (T.isPage ht).aligned
    obtain ⟨ipa, out, a, h, _, hxo⟩ := hm x (pageSize_le_of_mem hpage (T.ne_zero p t ht) hx) hne
    apply B.stage2.out_apart ipa out a p t h ht
    exact page_disjoint hpage (translate_isPage h).aligned hx hxo
  have hpool : Ram.Pool { s with mem := m' } l := by
    refine B.stage2.pool.frame rfl fun q hq x hx => ?_
    by_contra hne
    have hpage := (B.stage2.pool.page q hq).aligned
    obtain ⟨ipa, out, a, h, _, hxo⟩ :=
      hm x (pageSize_le_of_mem hpage (B.stage2.pool.ne_zero hq) hx) hne
    apply B.stage2.out_used ipa out a h
    rw [← page_disjoint hpage (translate_isPage h).aligned hx hxo]
    exact hq
  have htab := tableAt_frame hsame
  have htrans : ∀ ipa, translate m' r ipa = translate s.mem r ipa := by
    intro ipa
    rw [translate, translate, leafEntry_frame hsame]
  refine ⟨B.stage2.frame hpool (fun _ h => h) hsame, B.free,
    fun p t ht => B.tables p t ((htab p t).mp ht),
    fun ipa out a h => B.outs ipa out a (htrans ipa ▸ h),
    fun t ht => B.noGic t ((htab _ t).mp ht), fun x hx hl => ?_⟩
  change m' x = m₀ x
  rw [← B.frame x hx hl]
  by_contra hne
  obtain ⟨_, out, _, _, hout, hxo⟩ := hm x hx hne
  exact hl out hout hxo

/-- **Copying to a guest address** writes to the guest's pages, whatever the address. -/
theorem Built.copy (B : Built ∅ m₀ l₀ r s l) {dst src n : ℕ} :
    wp (copyToIpa r dst src n) (fun _ s' => Built ∅ m₀ l₀ r s' l) (fun _ _ => True) s := by
  simp only [copyToIpa, wp_bind, wp_pure]
  refine wp_whileLoop (fun _ s' => Built ∅ m₀ l₀ r s' l) (fun b => b.2.2) ?_ (fun _ _ _ h => h) _ _
    _ (Nat.lt_succ_self _) B
  rintro ⟨toIpa, from', left⟩ s' hc B'
  have hpos := Nat.mod_lt toIpa (show 0 < pageSize by decide)
  have hleft : 0 < left := by simpa using hc
  simp only [copyRound, ipaToPa, wp_bind, wp_pageWalk_false]
  cases hpte : pteAt s'.mem r toIpa with
  | none => simp only [wp_pure, if_true, wp_abort]
  | some pte =>
      simp only [wp_bind, wp_load64, wp_pure, and_page]
      generalize hk : (if pageSize - toIpa % pageSize > left then left
        else pageSize - toIpa % pageSize) = k
      have hkb : toIpa % pageSize + k ≤ pageSize ∧ 0 < k := by
        by_cases h : pageSize - toIpa % pageSize > left
        · rw [if_pos h] at hk
          omega
        · rw [if_neg h] at hk
          omega
      have hentry : leafEntry s'.mem r toIpa = read64 s'.mem pte := by
        simp only [leafEntry, hpte]
      by_cases hpa : ptePa (read64 s'.mem pte) + toIpa % pageSize = 0
      · rw [if_pos hpa]
        trivial
      rw [if_neg hpa]
      simp only [wp_bind, wp_memcpy, wp_pure]
      refine ⟨B'.write fun x hx hne => ?_, by omega⟩
      have hin : x ∈ block (ptePa (read64 s'.mem pte) + toIpa % pageSize) k := by
        by_contra hout
        exact hne (copy_of_notMem hout)
      by_cases h0 : leafEntry s'.mem r toIpa = 0
      · -- an empty entry leads to the first page
        rw [← hentry, h0, mem_block, show ptePa 0 = 0 from rfl] at hin
        omega
      · have htrans := B'.stage2.table.translate_of_ne h0
        refine ⟨toIpa, _, _, htrans, ?_, ?_⟩
        · exact (B'.outs _ _ _ htrans).resolve_right (Set.notMem_empty _)
        · rw [hentry]
          simp only [mem_block] at hin ⊢
          omega

/-- A page was mapped, after some pages of `l₀` were written that no table is. -/
theorem Built.maps (B : Built io m₀ l₀ r s l) {m₁ : Mem} {s' : Ram} {va pa attr : ℕ}
    {used l' : List ℕ} (htab : ∀ p t, TableAt m₁ r p t ↔ TableAt s.mem r p t)
    (hleaf : ∀ ipa, leafEntry m₁ r ipa = leafEntry s.mem r ipa)
    (hm : ∀ x, (∀ p ∈ l₀, x ∉ block p pageSize) → m₁ x = s.mem x)
    (M : Maps m₁ s'.mem r va pa attr used) (S' : Stage2 s' r l') (hused : ∀ p ∈ used, p ∈ l₀)
    (hfree : ∀ p ∈ l', p ∈ l₀) (hpa : IsPage pa) (ha : IsAttr attr)
    (hva : tablePath va ≠ tablePath gicdBase) (hio : io ⊆ io') (hout : pa ∈ l₀ ∨ pa ∈ io') :
    Built io' m₀ l₀ r s' l' := by
  have htables : ∀ p t, TableAt s'.mem r p t → t ∈ l₀ := by
    intro p t ht
    rcases M.new p t ht with hold | ⟨hu, _⟩
    · exact B.tables p t ((htab p t).mp hold)
    · exact hused t hu
  refine ⟨S', hfree, htables, fun ipa out a h => ?_, fun t ht => ?_, fun x hx hl => ?_⟩
  · rw [M.translate hpa ha] at h
    by_cases hv : vpn ipa = vpn va
    · rw [if_pos hv, Option.some_inj, Prod.mk.injEq] at h
      exact h.1 ▸ hout
    · rw [if_neg hv, translate, hleaf] at h
      exact (B.outs ipa out a h).imp_right fun h => hio h
  · rcases M.new _ t ht with hold | ⟨_, hpre⟩
    · exact B.noGic t ((htab _ t).mp hold)
    · exact hva (hpre.eq_of_length rfl).symm
  · rw [M.frame x fun p t ht => hl t (htables p t ht), hm x hl]
    exact B.frame x hx hl

/-- **Loading a page** at an address outside the interrupt controller's block. -/
theorem Built.loadPage (B : Built io m₀ l₀ r s l) {ipa src n : ℕ} (hipa : ipa % pageSize = 0)
    (hb : ipa < 2 ^ 48) (hgic : ¬ InGicBlock ipa) (hn : n ≤ pageSize) :
    wp (loadPage r ipa src n) (fun _ s' => ∃ l', Built io m₀ l₀ r s' l') (fun _ _ => True) s := by
  refine wp_mono (loadPage_spec B.stage2 hipa hb hn) ?_ fun _ _ _ => trivial
  rintro _ s' ⟨_, page, used, l', hl, _, S', htab, hleaf, M, _⟩
  have hsub : ∀ p ∈ page :: (used ++ l'), p ∈ l₀ := fun p hp => B.free p (hl ▸ hp)
  have hpage := B.stage2.pool.page page (hl ▸ List.mem_cons_self)
  refine ⟨l', B.maps htab hleaf (fun x hx => ?_) M S' (fun p hp => ?_) (fun p hp => ?_) hpage
    isAttr_normal (fun h => hgic (inGicBlock_of_tablePath hb h)) le_rfl
    (Or.inl (hsub page List.mem_cons_self))⟩
  · exact freshPage_of_notMem hn (hx page (hsub page List.mem_cons_self))
  · exact hsub p (List.mem_cons_of_mem _ (List.mem_append_left _ hp))
  · exact hsub p (List.mem_cons_of_mem _ (List.mem_append_right _ hp))

/-- **The serial port** is mapped where nothing is, if three pages are left for tables. -/
theorem Built.device (B : Built ∅ m₀ l₀ r s l) (hhigh : ∀ p ∈ l₀, pl011Base < p) :
    wp (doDeviceMapping r) (fun _ s' => ∃ l', l.length ≤ l'.length + 3 ∧
        Built {pl011Base} m₀ l₀ r s' l' ∧ ∃ a, translate s'.mem r pl011Base = some (pl011Base, a))
      (fun _ _ => l.length < 3 ∨ leafEntry s.mem r pl011Base ≠ 0) s := by
  have hpage : IsPage pl011Base := by constructor <;> decide
  rw [doDeviceMapping, wp_createGuestMapping_page (by decide) (by decide) (by decide) (by decide)]
  refine wp_mono (mapPage_spec B.stage2 hpage isAttr_device ?_ ?_) ?_ ?_
  · intro hmem
    exact lt_irrefl _ (hhigh _ (B.free _ hmem))
  · rintro p t ht rfl
    exact lt_irrefl _ (hhigh _ (B.tables p _ ht))
  · rintro _ s' ⟨_, used, l', hl, hlen, S', M, _⟩
    have hsub : ∀ p ∈ used ++ l', p ∈ l₀ := fun p hp => B.free p (hl ▸ hp)
    refine ⟨l', by rw [hl, List.length_append]; omega, B.maps (fun _ _ => Iff.rfl)
      (fun _ => rfl) (fun _ _ => rfl) M S' (fun p hp => ?_) (fun p hp => ?_) hpage isAttr_device
      (by decide) (Set.empty_subset _) (Or.inr rfl),
      ⟨_, (M.translate hpage isAttr_device _).trans (if_pos rfl)⟩⟩
    · exact hsub p (List.mem_append_left _ hp)
    · exact hsub p (List.mem_append_right _ hp)
  · rintro e _ (⟨_, h⟩ | ⟨_, h⟩)
    · exact Or.inr h
    · exact Or.inl h

end built

/-! ## The loader -/

/-- `n` pages from `a`, outside the interrupt controller's block. -/
structure ClearRange (a n : ℕ) : Prop where
  aligned : a % pageSize = 0
  bound : a + n * pageSize ≤ 2 ^ 48
  clear : ∀ x, a ≤ x → x < a + n * pageSize → ¬ InGicBlock x

/-- **Where a configuration may place RAM and device tree.** -/
structure GuestPlaced (cfg : VmConfig) : Prop where
  ram : ∀ image, cfg.guestImage = some image → ClearRange cfg.entryAddr (cfg.ramPages image)
  dtb : ∀ dtb, cfg.guestDtb = some dtb → ClearRange cfg.dtbAddr (pagesFor dtb.imageSize)

section loader
variable {m₀ : Mem} {l₀ l : List ℕ} {r : ℕ} {s : Ram}

/-- A page of a range. -/
theorem Built.loadPart {a n k src size : ℕ} (C : ClearRange a n) (hk : k < n)
    (B : Built ∅ m₀ l₀ r s l) (hsize : size ≤ pageSize) :
    wp (Xhyper.loadPage r ((a + k * pageSize) % 2 ^ 64) src size)
      (fun _ s' => ∃ l', Built ∅ m₀ l₀ r s' l') (fun _ _ => True) s := by
  have halign := C.aligned
  have hbound := C.bound
  have hend : k * pageSize + pageSize ≤ n * pageSize := mul_add_le hk
  have hpos : 0 < pageSize := by decide
  have h48 : a + k * pageSize < 2 ^ 48 := by omega
  rw [Nat.mod_eq_of_lt (show a + k * pageSize < 2 ^ 64 by omega)]
  refine B.loadPage ?_ h48 (C.clear _ (by omega) (by omega)) hsize
  rw [Nat.add_mul_mod_self_right, halign]

theorem copySize_le (size p : ℕ) : copySize size p ≤ pageSize := by
  rw [copySize_eq]
  exact Nat.min_le_left _ _

/-- **`do_memory_mapping`** keeps to the free pages. -/
theorem Built.memory {cfg : VmConfig} (G : GuestPlaced cfg) (B : Built ∅ m₀ l₀ r s l) :
    wp (doMemoryMapping r cfg) (fun _ s' => ∃ l', Built ∅ m₀ l₀ r s' l') (fun _ _ => True) s := by
  simp only [doMemoryMapping, wp_bind]
  cases himage : cfg.guestImage with
  | none => trivial
  | some image =>
      have C := G.ram image himage
      simp only [derefGuest, wp_pure]
      -- the image
      refine wp_forRange (fun _ s' => ∃ l', Built ∅ m₀ l₀ r s' l') (by decide) ?_ ⟨l, B⟩ ?_
      · rintro k t hk ⟨l', B'⟩
        rw [Nat.zero_add] at hk ⊢
        refine B'.loadPart C ?_ (copySize_le _ _)
        simp only [VmConfig.ramPages, pagesFor, pageSize] at *
        omega
      intro k₁ s₁ hk₁ hI₁
      -- the RAM behind it
      refine wp_forRange (fun _ s' => ∃ l', Built ∅ m₀ l₀ r s' l') (by decide) ?_ hI₁ ?_
      · rintro j t hj ⟨l', B'⟩
        have hsum : 0 + k₁ * pageSize + j * pageSize = (k₁ + j) * pageSize := by ring
        rw [hsum, wp_zeroPage 0]
        refine B'.loadPart C ?_ (Nat.zero_le _)
        simp only [VmConfig.ramPages, pagesFor, pageSize] at *
        omega
      intro j₂ s₂ _ hI₂
      cases hdtb : cfg.guestDtb with
      | none => trivial
      | some dtb =>
          have D := G.dtb dtb hdtb
          simp only [wp_pure]
          -- the device tree, and the RAM disk with every page of it
          refine wp_forRange (fun _ s' => ∃ l', Built ∅ m₀ l₀ r s' l') (by decide) ?_ hI₂
            fun _ _ _ h => h
          rintro k t hk ⟨l', B'⟩
          rw [Nat.zero_add] at hk ⊢
          simp only [wp_bind]
          refine wp_mono (B'.loadPart D ?_ (copySize_le _ _)) ?_ fun _ _ _ => trivial
          · simp only [pagesFor, pageSize] at *
            omega
          rintro _ u ⟨l'', B''⟩
          cases cfg.guestInitrd with
          | none => trivial
          | some initrd =>
              simp only [wp_pure]
              exact wp_mono B''.copy (fun _ _ h => ⟨l'', h⟩) fun _ _ _ => trivial

end loader

/-! ## A machine's pages -/

section machine
variable {start : ℕ} {m₀ : Mem} {l₀ l : List ℕ} {r : ℕ} {s s' : Ram} {io : Set ℕ}

/-- The pages of `l₀` lie behind the heap and the devices. -/
structure HighPages (start : ℕ) (l₀ : List ℕ) : Prop where
  device : ∀ p ∈ l₀, pl011Base < p
  heap : ∀ p ∈ l₀, start + configBlkSize ≤ p

/-- Writing to the heap changes no page. -/
theorem HeapWrites.page (h : HeapWrites start s s') (hl : HighPages start l₀) {p : ℕ}
    (hp : p ∈ l₀) : Set.EqOn s'.mem s.mem (block p pageSize) := by
  intro x hx
  apply h.mem
  intro hxh
  have hle := hl.heap p hp
  simp only [mem_block] at hx hxh
  omega

theorem HeapWrites.pool (h : HeapWrites start s s') (hl : HighPages start l₀)
    (H : s.Pool l) (hsub : ∀ p ∈ l, p ∈ l₀) : s'.Pool l :=
  H.frame h.pages fun _ hq _ hx => h.page hl (hsub _ hq) hx

/-- The tables do not have the interrupt controller's block, whatever is written to the heap. -/
theorem Built.noGicTable (B : Built io m₀ l₀ r s l) (hl : HighPages start l₀) :
    NoGicTable start s r := by
  intro s' h
  have hsame : ∀ p t, TableAt s.mem r p t → Set.EqOn s'.mem s.mem (block t pageSize) :=
    fun p t ht => h.page hl (B.tables p t ht)
  have hnone : follow (child s'.mem) r (tablePath gicdBase) = none := by
    rw [Option.eq_none_iff_forall_ne_some]
    intro t ht
    exact B.noGic t ((tableAt_frame hsame _ t).mp ((tableAt_tablePath _ _ _ _).mpr ht))
  have hpath : tablePath gicrBase = tablePath gicdBase := by decide
  rw [pteAt, pteAt, hpath, hnone]
  exact ⟨rfl, rfl⟩

/-- The pages taken while the tables were built hold them. -/
theorem Built.held (B : Built {pl011Base} m₀ l₀ r s l) :
    Held s.mem r {p | p ∈ l₀ ∧ p ∉ l} := by
  refine ⟨B.stage2.table, fun p t ht => ⟨B.tables p t ht, B.stage2.table_used p t ht⟩,
    fun ipa out a h => ?_, B.stage2.out_apart⟩
  rcases B.outs ipa out a h with hout | hout
  · exact Or.inl ⟨hout, B.stage2.out_used ipa out a h⟩
  · exact Or.inr hout

/-- What making a machine does to memory: its tables and pages are among those that left the
free list, and outside these, the heap and the first page nothing was written. -/
structure Placed (start : ℕ) (l₀ : List ℕ) (s : Ram) (r : ℕ) (s' : Ram) (l : List ℕ) : Prop where
  pool : s'.Pool l
  free : ∀ p ∈ l, p ∈ l₀
  held : Held s'.mem r {p | p ∈ l₀ ∧ p ∉ l}
  port : ∃ a, translate s'.mem r pl011Base = some (pl011Base, a)
  frame : ∀ x, pageSize ≤ x → x ∉ block start configBlkSize →
    (∀ p ∈ l₀, x ∉ block p pageSize) → s'.mem x = s.mem x

/-- **Making a machine** whose ranges are in place takes its tables and its memory off the
free list. -/
theorem BuildsTable.placed {cfg : VmConfig} (h : BuildsTable start cfg s r s')
    (G : GuestPlaced cfg) (H : s.Pool l₀) (hl : HighPages start l₀) :
    ∃ l, Placed start l₀ s r s' l := by
  obtain ⟨s₁, s₂, s₃, s₄, hw, hroot, hmemory, hdevice, hrest⟩ := h
  have H₁ := hw.pool hl H fun _ hp => hp
  have hend := ok_of_wp (built_root H₁) hroot
  obtain ⟨_, _, B₂⟩ := hend r rfl
  have hend := ok_of_wp (B₂.memory G) hmemory
  obtain ⟨_, B₃⟩ := hend
  have hend := ok_of_wp (B₃.device hl.device) hdevice
  obtain ⟨l, _, B₄, a, hport⟩ := hend
  have hw' := hrest (B₄.noGicTable hl)
  refine ⟨l, hw'.pool hl B₄.stage2.pool B₄.free, B₄.free,
    B₄.held.frame fun p hp => hw'.page hl hp.1, ⟨a, ?_⟩, fun x hx hxh hxl => ?_⟩
  · rw [← hport, translate, translate,
      leafEntry_frame fun p t ht => hw'.page hl (B₄.tables p t ht)]
  · rw [hw'.mem x hxh, B₄.frame x hx hxl, hw.mem x hxh]

end machine

end Xhyper
