import Xhyper.BlkRuns
import Xhyper.Stage2Map
import Xhyper.Vmmio

/-!
# When a region is trapped

`create_mmio_trap` should leave no page of its region mapped and send every access to
the functions it was given.  It unmaps the region only when the walk of the first page
finds a last-level table, and unmapping stops at the first page that is not mapped.  So it
does its work when all pages of the region are mapped, or when none is and the first has
no last-level table.

## Main definitions

* `TrapReady`, `IsTrap` — a virtual machine between two calls, and a region.
* `Traps` — what trapping a region should do.
* `unmapPage_frame`, `pageUnmap_frame` — unmapping pages of any kind.
* `createMmioTrap_traps` — when the region is trapped.
-/

namespace Xhyper

open Memory Prog Radix

/-! ## Unmapping -/

section unmapping
variable {s : Ram} {r va size : ℕ}

/-- All pages of the range are mapped. -/
def AllMapped (m : Mem) (r va size : ℕ) : Prop :=
  ∀ k, k * pageSize < size → leafEntry m r (va + k * pageSize) ≠ 0

/-- Unmapping a page whose output page is no table, wherever else that page is mapped. -/
theorem unmapPage_frame {E : Fault → Ram → Prop} (T : Table s.mem r)
    (hap : ∀ p t, TableAt s.mem r p t → t ≠ ptePa (leafEntry s.mem r va))
    (hl : s.pages.lock.word = 0) (h : leafEntry s.mem r va ≠ 0) :
    wp (unmapPage r va) (fun _ s' => Unmaps s.mem s'.mem r va (ptePa (leafEntry s.mem r va)) ∧
      s'.pages.lock.word = 0 ∧ s'.core = s.core) E s := by
  obtain ⟨u, hu, -⟩ := exists_tableAt_of_leafEntry h
  have hpage : IsPage (ptePa (leafEntry s.mem r va)) := ptePa_isPage _
  rw [wp_unmapPage hu h]
  by_cases h0 : ptePa (leafEntry s.mem r va) = 0
  · -- page 0 is not freed
    simp only [freeOnePage, h0, if_true, wp_pure]
    rw [h0] at hpage hap
    exact ⟨unmaps_of_eqOn T hu hpage hap fun _ _ => rfl, hl, trivial⟩
  · refine wp_mono (freeOnePage_frame hl h0) ?_ (fun _ _ h => h)
    rintro _ s₁ ⟨hl₁, _, _, hmem, hcore⟩
    exact ⟨unmaps_of_eqOn T hu hpage hap hmem, hl₁, hcore⟩

/-- Unmapping a page that is not mapped stops. -/
theorem unmapPage_stops {Q : Unit → Ram → Prop} {E : Fault → Ram → Prop}
    (h : leafEntry s.mem r va = 0) (hE : ∀ e, E e s) : wp (unmapPage r va) Q E s := by
  simp only [unmapPage, wp_bind, wp_pageWalk_false]
  cases hpte : pteAt s.mem r va with
  | none => exact hE _
  | some pte =>
      have h0 : read64 s.mem pte = 0 := by simpa only [leafEntry, hpte] using h
      simp only [wp_bind, wp_load64, h0, if_true]
      exact hE _

/-- What `page_unmap` leaves alone. -/
def UnmapFrame (m m' : Mem) (r : ℕ) : Prop :=
  ∀ x, (∀ p t, TableAt m r p t → x ∉ block t pageSize) →
    (∀ ipa out a, translate m r ipa = some (out, a) → x ∉ block out pageSize) → m' x = m x

/-- **Unmapping a range** returns if all of its pages are mapped, and only then. -/
theorem pageUnmap_frame (T : Table s.mem r)
    (hap : ∀ ipa out a p t, translate s.mem r ipa = some (out, a) → TableAt s.mem r p t → t ≠ out)
    (hl : s.pages.lock.word = 0) (hva : va % pageSize = 0) (hsize : size % pageSize = 0)
    (hb : va + size ≤ 2 ^ 48) :
    wp (pageUnmap r va size) (fun _ s' => AllMapped s.mem r va size ∧ Table s'.mem r ∧
        UnmapsRange s.mem s'.mem r va (size / pageSize) ∧ UnmapFrame s.mem s'.mem r ∧
        s'.pages.lock.word = 0 ∧ s'.core = s.core)
      (fun _ _ => ¬ AllMapped s.mem r va size) s := by
  have hpar : ¬ (va % pageSize ≠ 0 ∨ size % pageSize ≠ 0) := by simp [hva, hsize]
  simp only [pageUnmap, hpar, if_false, wp_bind]
  refine wp_forRange (fun k s' => (∀ j < k, leafEntry s.mem r (va + j * pageSize) ≠ 0) ∧
    Table s'.mem r ∧ UnmapsRange s.mem s'.mem r va k ∧ UnmapFrame s.mem s'.mem r ∧
    s'.pages.lock.word = 0 ∧ s'.core = s.core) (by decide) ?_ ?_ ?_
  · rintro k t hk ⟨hmapped, T', U, F, hl', hcore⟩
    simp only [Nat.zero_add] at hk ⊢
    have hva64 : (va + k * pageSize) % 2 ^ 64 = va + k * pageSize := by
      simp only [pageSize] at *
      omega
    have hbk : va + k * pageSize < 2 ^ 48 := by omega
    have hold := U.entry_next hva hbk
    rw [hva64]
    by_cases h0 : leafEntry s.mem r (va + k * pageSize) = 0
    · exact unmapPage_stops (hold.trans h0) fun _ hall => hall k hk h0
    · have htr := T.translate_of_ne h0
      have hap' : ∀ p u, TableAt t.mem r p u → u ≠ ptePa (leafEntry t.mem r (va + k * pageSize)) := by
        intro p u hu
        rw [hold]
        exact hap _ _ _ p u htr ((U.tables p u).mp hu)
      refine wp_mono (unmapPage_frame T' hap' hl' (hold.symm ▸ h0)) ?_ (fun _ _ h => absurd h id)
      rintro _ t' ⟨U', hl'', hcore'⟩
      rw [hold] at U'
      refine ⟨fun j hj => ?_, U'.table, U.next hva hbk U', ?_, hl'', hcore'.trans hcore⟩
      · rcases Nat.lt_succ_iff_lt_or_eq.mp hj with hj | rfl
        · exact hmapped j hj
        · exact h0
      · intro x htab hout
        rw [U'.frame x (fun p u hu => htab p u ((U.tables p u).mp hu)) (hout _ _ _ htr)]
        exact F x htab hout
  · exact ⟨fun j hj => absurd hj (Nat.not_lt_zero j), T,
      .zero s.mem r va, fun _ _ _ => rfl, hl, rfl⟩
  · rintro k t hk ⟨hmapped, T', U, F, hl', hcore⟩
    have hkeq : k = size / pageSize := by
      simp only [pageSize] at *
      omega
    refine ⟨fun j hj => hmapped j ?_, T', hkeq ▸ U, F, hl', hcore⟩
    simp only [pageSize] at *
    omega

end unmapping

/-! ## Trapping a region -/

/-- A virtual machine between two calls: the tables and the pages it maps are apart from
each other and from the heap, and no lock is held. -/
structure TrapReady (start : ℕ) (s : Hyp) (vm : ℕ) : Prop where
  ne_zero : vm ≠ 0
  table : Table s.ram.mem (s.vms vm).vttbr
  out_apart : ∀ ipa out a p t, translate s.ram.mem (s.vms vm).vttbr ipa = some (out, a) →
    TableAt s.ram.mem (s.vms vm).vttbr p t → t ≠ out
  table_heap : ∀ p t, TableAt s.ram.mem (s.vms vm).vttbr p t →
    Disjoint (block t pageSize) (block start configBlkSize)
  out_heap : ∀ ipa out a, translate s.ram.mem (s.vms vm).vttbr ipa = some (out, a) →
    Disjoint (block out pageSize) (block start configBlkSize)
  heap : ∃ live free, Blocks start (Hyp.heapPart.get s) live free
  pages_free : s.ram.pages.lock.word = 0
  vm_free : (s.vms vm).vmLock.word = 0
  heap_free : s.sysBlk.blkLock.word = 0

/-- A region of whole pages, and two functions for it. -/
structure IsTrap (ipa size vmmioRead vmmioWrite : ℕ) : Prop where
  aligned : ipa % pageSize = 0 ∧ size % pageSize = 0
  pos : 0 < size
  bound : ipa + size ≤ 2 ^ 48
  read : vmmioRead ≠ 0 ∧ vmmioRead < 2 ^ 64
  write : vmmioWrite ≠ 0 ∧ vmmioWrite < 2 ^ 64

/-- What trapping a region should do: no page of it is mapped any more, the other pages
are as before, and a data abort in it goes to the two functions. -/
structure Traps (H : VmmioHandlers) (s s' : Hyp) (vm ipa size vmmioRead vmmioWrite : ℕ) : Prop where
  unmapped : ∀ x, ipa ≤ x → x < ipa + size → translate s'.ram.mem (s'.vms vm).vttbr x = none
  outside : ∀ x < 2 ^ 48, x < ipa ∨ ipa + size ≤ x →
    translate s'.ram.mem (s'.vms vm).vttbr x = translate s.ram.mem (s.vms vm).vttbr x
  dispatch : ∀ (v : Fin ncpu) (x : ℕ) (esrIss far hpfar : BitVec 64), (s'.vcpus v).vm = vm →
    ipa ≤ x → x < ipa + size → FaultAt x far hpfar → esrIss >>> 10 &&& 0x1#64 = 0 →
    ∃ info : VmmioInfo, info.base = ipa ∧ info.vmmioRead = vmmioRead ∧
      info.vmmioWrite = vmmioWrite ∧
      dataAbortHandler H v esrIss far hpfar s' = info.serve H v (s'.vcpus v) esrIss x s'

section trap
variable {start : ℕ} {s : Hyp} {vm ipa size vmmioRead vmmioWrite : ℕ}

/-- The record of a region that was just registered. -/
structure Registered (s' : Hyp) (vm ipa size vmmioRead vmmioWrite : ℕ) : Prop where
  first : (s'.vms vm).vmmios ≠ 0
  base : (readVmmio s'.ram.mem (s'.vms vm).vmmios).base = ipa
  size : (readVmmio s'.ram.mem (s'.vms vm).vmmios).size = size
  read : (readVmmio s'.ram.mem (s'.vms vm).vmmios).vmmioRead = vmmioRead
  write : (readVmmio s'.ram.mem (s'.vms vm).vmmios).vmmioWrite = vmmioWrite

/-- Registering a region leaves the tables alone, which are apart from the heap. -/
theorem TrapReady.register (R : TrapReady start s vm)
    (ht : IsTrap ipa size vmmioRead vmmioWrite) :
    wp (vmmioHandlerRegister vm ipa size vmmioRead vmmioWrite) (fun _ s' =>
        s.sysBlk.HasRoom sizeofVmmioInfo ∧ (s'.vms vm).vttbr = (s.vms vm).vttbr ∧
        (∀ x, leafEntry s'.ram.mem (s.vms vm).vttbr x = leafEntry s.ram.mem (s.vms vm).vttbr x) ∧
        Registered s' vm ipa size vmmioRead vmmioWrite)
      (fun _ _ => ¬ s.sysBlk.HasRoom sizeofVmmioInfo) s := by
  obtain ⟨live, free, B⟩ := R.heap
  have hpos := ht.pos
  have hb := ht.bound
  refine wp_mono (vmmioHandlerRegister_spec B R.ne_zero (by omega)) ?_
    (fun _ _ h => h R.vm_free R.heap_free)
  rintro _ s' ⟨new, h', hroom, G, _, hs'⟩
  obtain ⟨free', B'⟩ := G.blocks
  obtain ⟨c, hc, hsize, _⟩ := G.carved
  have hheap := B'.block_heap hc hsize
  subst hs'
  have htables : ∀ p t, TableAt s.ram.mem (s.vms vm).vttbr p t →
      Set.EqOn (writeVmmio s.ram.mem new
        ⟨(s.vms vm).vmmios, ipa, size, vmmioRead, vmmioWrite⟩) s.ram.mem (block t pageSize) := by
    intro p t h x hx
    apply writeVmmio_of_notMem
    intro hxn
    exact Set.disjoint_left.mp (R.table_heap p t h) hx (hheap hxn)
  have hread : readVmmio (writeVmmio s.ram.mem new
      ⟨(s.vms vm).vmmios, ipa, size, vmmioRead, vmmioWrite⟩) new =
      ⟨(s.vms vm).vmmios % 2 ^ 64, ipa, size, vmmioRead, vmmioWrite⟩ := by
    rw [readVmmio_writeVmmio]
    simp only [Nat.mod_eq_of_lt (show ipa < 2 ^ 64 by omega),
      Nat.mod_eq_of_lt (show size < 2 ^ 64 by omega), Nat.mod_eq_of_lt ht.read.2,
      Nat.mod_eq_of_lt ht.write.2]
  refine ⟨hroom, by simp, leafEntry_frame htables, ?_⟩
  constructor
  · simpa using B'.ne_zero hc
  · simp [hread]
  · simp [hread]
  · simp [hread]
  · simp [hread]

/-- Unmapping writes nothing to the heap. -/
theorem TrapReady.unmap_heap (R : TrapReady start s vm) {m : Mem}
    (F : UnmapFrame s.ram.mem m (s.vms vm).vttbr) {x : ℕ} (hx : x ∈ block start configBlkSize) :
    m x = s.ram.mem x := by
  refine F x (fun p u hu hxu => ?_) (fun y out a h hxo => ?_)
  · exact Set.disjoint_left.mp (R.table_heap p u hu) hxu hx
  · exact Set.disjoint_left.mp (R.out_heap y out a h) hxo hx

/-- A heap that is only read has its blocks. -/
theorem blocks_of_eqOn {live : List ℕ} {free : Fin blkSliceBit → List ℕ}
    (B : Blocks start (Hyp.heapPart.get s) live free) {m : Mem} {core : ℕ}
    (hm : Set.EqOn m s.ram.mem (block start configBlkSize)) :
    Blocks start ⟨core, m, s.sysBlk⟩ live free := by
  have L : Layout start ⟨s.ram.core, m, s.sysBlk⟩ live free := by
    exact B.toLayout.frame fun c b hb => hm.mono (B.block_heap (B.free_carved c b hb) le_rfl)
  exact ⟨⟨L.region, L.start_eq, L.end_eq, L.blk_size, L.slice_le, L.slice_type, L.slice_sum,
    L.current, L.live_carved, L.live_nodup, L.chain, L.free_carved, L.free_apart, L.free_cnt⟩,
    B.nofree_cnt⟩

/-- Unmapping the region leaves the virtual machine ready. -/
theorem TrapReady.unmap (R : TrapReady start s vm) {t : Ram} {n : ℕ}
    (T : Table t.mem (s.vms vm).vttbr)
    (U : UnmapsRange s.ram.mem t.mem (s.vms vm).vttbr ipa n)
    (F : UnmapFrame s.ram.mem t.mem (s.vms vm).vttbr) (hl : t.pages.lock.word = 0) :
    TrapReady start { s with ram := t } vm := by
  have htrans : ∀ x out a, translate t.mem (s.vms vm).vttbr x = some (out, a) →
      translate s.ram.mem (s.vms vm).vttbr x = some (out, a) := by
    intro x out a h
    rw [translate, U.entry] at h
    by_cases hin : ipa / pageSize ≤ vpn x ∧ vpn x < ipa / pageSize + n
    · rw [if_pos hin] at h
      cases h
    · rw [if_neg hin] at h
      exact h
  obtain ⟨live, free, B⟩ := R.heap
  refine ⟨R.ne_zero, T, ?_, ?_, ?_, ⟨live, free, ?_⟩, hl, R.vm_free, R.heap_free⟩
  · exact fun x out a p u h hu => R.out_apart x out a p u (htrans x out a h) ((U.tables p u).mp hu)
  · exact fun p u hu => R.table_heap p u ((U.tables p u).mp hu)
  · exact fun x out a h => R.out_heap x out a (htrans x out a h)
  · exact blocks_of_eqOn B fun x hx => R.unmap_heap F hx

/-- The pages of the region are unmapped if the walk of its first page finds a last-level
table. -/
abbrev Walked (m : Mem) (r ipa : ℕ) : Prop := (pteAt m r ipa).isSome = true

/-- **What `create_mmio_trap` does.** -/
theorem createMmioTrap_spec (R : TrapReady start s vm)
    (ht : IsTrap ipa size vmmioRead vmmioWrite) :
    wp (createMmioTrap vm ipa size vmmioRead vmmioWrite) (fun _ s' =>
        (Walked s.ram.mem (s.vms vm).vttbr ipa →
          AllMapped s.ram.mem (s.vms vm).vttbr ipa size) ∧
        s.sysBlk.HasRoom sizeofVmmioInfo ∧ (s'.vms vm).vttbr = (s.vms vm).vttbr ∧
        (∀ x, leafEntry s'.ram.mem (s.vms vm).vttbr x =
          if Walked s.ram.mem (s.vms vm).vttbr ipa ∧ ipa / pageSize ≤ vpn x ∧
            vpn x < ipa / pageSize + size / pageSize then 0
          else leafEntry s.ram.mem (s.vms vm).vttbr x) ∧
        Registered s' vm ipa size vmmioRead vmmioWrite)
      (fun _ _ => (Walked s.ram.mem (s.vms vm).vttbr ipa ∧
          ¬ AllMapped s.ram.mem (s.vms vm).vttbr ipa size) ∨
        ¬ s.sysBlk.HasRoom sizeofVmmioInfo) s := by
  simp only [createMmioTrap, wp_bind, wp_derefVm R.ne_zero, wp_zoom, wp_pageWalk_false,
    Hyp.get_ramPart, Hyp.set_ramPart]
  by_cases hw : Walked s.ram.mem (s.vms vm).vttbr ipa
  · obtain ⟨pte, hpte⟩ := Option.isSome_iff_exists.mp hw
    simp only [Walked, hpte, Option.isSome_some, true_and, forall_const, wp_bind, wp_zoom,
      Hyp.get_ramPart, Hyp.set_ramPart, wp_pure]
    refine wp_mono (pageUnmap_frame R.table R.out_apart R.pages_free ht.aligned.1 ht.aligned.2
      ht.bound) ?_ (fun _ _ h => Or.inl h)
    rintro _ t ⟨hall, T, U, F, hl, _⟩
    refine wp_mono ((R.unmap T U F hl).register ht) ?_ (fun _ _ h => Or.inr h)
    rintro _ s' ⟨hroom, hvttbr, hentry, hreg⟩
    exact ⟨hall, hroom, hvttbr, fun x => (hentry x).trans (U.entry x), hreg⟩
  · have hpte : pteAt s.ram.mem (s.vms vm).vttbr ipa = none := by simpa using hw
    simp only [Walked, hpte, Option.isSome_none, Bool.false_eq_true, false_and, false_or,
      if_false, IsEmpty.forall_iff, true_and, wp_bind, wp_pure]
    exact R.register ht

/-- Blocks that an operation on the heap leaves in place, those in use with their bytes. -/
structure KeepsBlocks (s s' : Hyp) (live : List ℕ) : Prop where
  carved : ∀ c b, Carved s.sysBlk c b → Carved s'.sysBlk c b
  bytes : ∀ b ∈ live, ∀ c, Carved s.sysBlk c b → Set.EqOn s'.ram.mem s.ram.mem (block b (2 ^ c.val))

theorem KeepsBlocks.trans {s₁ s₂ s₃ : Hyp} {live live' : List ℕ} (h : KeepsBlocks s₁ s₂ live)
    (h' : KeepsBlocks s₂ s₃ live') (hsub : ∀ b ∈ live, b ∈ live') : KeepsBlocks s₁ s₃ live where
  carved c b hb := h'.carved c b (h.carved c b hb)
  bytes b hb c hc := (h'.bytes b (hsub b hb) c (h.carved c b hc)).trans (h.bytes b hb c hc)

/-- Writing to the heap leaves a virtual machine ready. -/
theorem TrapReady.heapWrite (R : TrapReady start s vm) {s' : Hyp}
    (hmem : Set.EqOn s'.ram.mem s.ram.mem (block start configBlkSize)ᶜ)
    (hvttbr : (s'.vms vm).vttbr = (s.vms vm).vttbr) (hlock : (s'.vms vm).vmLock.word = 0)
    (hpages : s'.ram.pages = s.ram.pages)
    (hheap : ∃ live free, Blocks start (Hyp.heapPart.get s') live free)
    (hfree : s'.sysBlk.blkLock.word = 0) : TrapReady start s' vm := by
  have htables : ∀ p t, TableAt s.ram.mem (s.vms vm).vttbr p t →
      Set.EqOn s'.ram.mem s.ram.mem (block t pageSize) := by
    intro p t h x hx
    exact hmem fun hin => Set.disjoint_left.mp (R.table_heap p t h) hx hin
  have htrans : ∀ x, translate s'.ram.mem (s.vms vm).vttbr x =
      translate s.ram.mem (s.vms vm).vttbr x := by
    intro x
    rw [translate, translate, leafEntry_frame htables]
  have htab := tableAt_frame htables
  constructor
  · exact R.ne_zero
  · rw [hvttbr]
    exact R.table.frame htables
  · intro x out a p t h ht
    rw [hvttbr] at h ht
    exact R.out_apart x out a p t ((htrans x).symm.trans h) ((htab p t).mp ht)
  · intro p t ht
    rw [hvttbr] at ht
    exact R.table_heap p t ((htab p t).mp ht)
  · intro x out a h
    rw [hvttbr] at h
    exact R.out_heap x out a ((htrans x).symm.trans h)
  · exact hheap
  · rw [hpages]
    exact R.pages_free
  · exact hlock
  · exact hfree

/-- **Registering a region** takes a block and leaves the others. -/
theorem TrapReady.register_kept (R : TrapReady start s vm) {live : List ℕ}
    {free : Fin blkSliceBit → List ℕ} (B : Blocks start (Hyp.heapPart.get s) live free)
    (hsize : size ≠ 0) :
    wp (vmmioHandlerRegister vm ipa size vmmioRead vmmioWrite) (fun _ s' =>
        TrapReady start s' vm ∧ KeepsBlocks s s' live ∧
        ∃ new free', Blocks start (Hyp.heapPart.get s') (new :: live) free')
      (fun _ _ => True) s := by
  refine wp_mono (vmmioHandlerRegister_spec B R.ne_zero hsize) ?_ fun _ _ _ => trivial
  rintro _ s' ⟨new, h', _, G, hfree, hs'⟩
  obtain ⟨free', B'⟩ := G.blocks
  obtain ⟨c, hc, hfit, _⟩ := G.carved
  have hin : block new sizeofVmmioInfo ⊆ block new (2 ^ c.val) :=
    block_subset le_rfl (Nat.add_le_add_left hfit new)
  have hmem : Set.EqOn s'.ram.mem s.ram.mem (block new sizeofVmmioInfo)ᶜ := by
    subst hs'
    exact fun x hx => writeVmmio_of_notMem hx
  have hpool : s'.sysBlk = h'.pool := by rw [hs']
  -- the record is written into the new block only
  have hother : ∀ c' b, Carved h'.pool c' b → b ≠ new →
      Set.EqOn s'.ram.mem s.ram.mem (block b (2 ^ c'.val)) := by
    intro c' b hb hne x hx
    exact hmem fun hnew => Set.disjoint_left.mp (hb.disjoint hc hne) hx (hin hnew)
  have hblocks : Blocks start (Hyp.heapPart.get s') (new :: live) free' := by
    have hfill : Blocks start { h' with mem := s'.ram.mem } (new :: live) free' := by
      refine B'.fill List.mem_cons_self hc fun x hx => ?_
      rw [G.mem_eq]
      exact hmem fun hnew => hx (hin hnew)
    have hget : Hyp.heapPart.get s' = { h' with mem := s'.ram.mem } := by
      rw [Hyp.get_heapPart, hpool, ← G.core_eq.trans (show (Hyp.heapPart.get s).core = s'.ram.core by
        rw [hs']
        rfl)]
    rw [hget]
    exact hfill
  refine ⟨R.heapWrite ?_ ?_ ?_ ?_ ⟨_, _, hblocks⟩ ?_, ⟨?_, ?_⟩, new, free', hblocks⟩
  · exact fun x hx => hmem fun hnew => hx (B'.block_heap hc hfit hnew)
  · rw [hs']
    simp
  · rw [hs']
    simp
  · rw [hs']
  · rw [hpool]
    exact hfree
  · intro c' b hb
    rw [hpool]
    exact G.keep c' b hb
  · intro b hb c' hc'
    refine hother c' b (G.keep c' b hc') fun heq => ?_
    exact (List.nodup_cons.mp B'.live_nodup).1 (heq ▸ hb)

/-- **Trapping a region** leaves the blocks in use. -/
theorem createMmioTrap_kept (R : TrapReady start s vm) {live : List ℕ}
    {free : Fin blkSliceBit → List ℕ} (B : Blocks start (Hyp.heapPart.get s) live free)
    (hipa : ipa % pageSize = 0) (hsize : size % pageSize = 0) (hpos : 0 < size)
    (hbound : ipa + size ≤ 2 ^ 48) :
    wp (createMmioTrap vm ipa size vmmioRead vmmioWrite) (fun _ s' =>
        TrapReady start s' vm ∧ KeepsBlocks s s' live ∧
        ∃ new free', Blocks start (Hyp.heapPart.get s') (new :: live) free')
      (fun _ _ => True) s := by
  simp only [createMmioTrap, wp_bind, wp_derefVm R.ne_zero, wp_zoom, wp_pageWalk_false,
    Hyp.get_ramPart, Hyp.set_ramPart]
  cases hpte : pteAt s.ram.mem (s.vms vm).vttbr ipa with
  | none =>
      simp only [wp_bind, wp_pure]
      exact R.register_kept B hpos.ne'
  | some pte =>
      simp only [wp_bind, wp_zoom, Hyp.get_ramPart, Hyp.set_ramPart, wp_pure]
      refine wp_mono (pageUnmap_frame R.table R.out_apart R.pages_free hipa hsize hbound) ?_
        fun _ _ _ => trivial
      rintro _ t ⟨_, T, U, F, hl, _⟩
      have hheap : Set.EqOn t.mem s.ram.mem (block start configBlkSize) := fun x hx =>
        R.unmap_heap F hx
      have B' : Blocks start (Hyp.heapPart.get { s with ram := t }) live free :=
        blocks_of_eqOn B hheap
      refine wp_mono ((R.unmap T U F hl).register_kept B' hpos.ne') ?_ fun _ _ h => h
      rintro _ s' ⟨R', K, hblocks⟩
      refine ⟨R', ⟨K.carved, fun b hb c hc => (K.bytes b hb c hc).trans ?_⟩, hblocks⟩
      exact hheap.mono (B.block_heap hc le_rfl)

/-- A data abort in a region that was just registered goes to its functions. -/
theorem Registered.dispatch {H : VmmioHandlers} {s' : Hyp}
    (hreg : Registered s' vm ipa size vmmioRead vmmioWrite) (hne : vm ≠ 0)
    (ht : IsTrap ipa size vmmioRead vmmioWrite) {v : Fin ncpu} {x : ℕ}
    {esrIss far hpfar : BitVec 64} (hv : (s'.vcpus v).vm = vm) (hlo : ipa ≤ x)
    (hhi : x < ipa + size) (hfault : FaultAt x far hpfar)
    (hfnv : esrIss >>> 10 &&& 0x1#64 = 0) :
    ∃ info : VmmioInfo, info.base = ipa ∧ info.vmmioRead = vmmioRead ∧
      info.vmmioWrite = vmmioWrite ∧
      dataAbortHandler H v esrIss far hpfar s' = info.serve H v (s'.vcpus v) esrIss x s' := by
  have hb := ht.bound
  refine ⟨_, hreg.base, hreg.read, hreg.write, ?_⟩
  refine dataAbortHandler_first (by omega) hfault hfnv (hv ▸ hne) (hv ▸ hreg.first)
    (by rw [hv]) ⟨hreg.base ▸ hlo, ?_⟩ (hreg.read ▸ ht.read.1) (hreg.write ▸ ht.write.1)
  rw [hreg.base, hreg.size, Nat.mod_eq_of_lt (by omega)]
  exact hhi

/-- The page numbers of a region. -/
theorem vpn_region {x : ℕ} (ht : IsTrap ipa size vmmioRead vmmioWrite) (hx : x < 2 ^ 48) :
    (ipa / pageSize ≤ vpn x ∧ vpn x < ipa / pageSize + size / pageSize) ↔
      ipa ≤ x ∧ x < ipa + size := by
  obtain ⟨hi, hs⟩ := ht.aligned
  simp only [vpn, pageSize] at *
  omega

theorem allMapped_iff (T : Table s.ram.mem (s.vms vm).vttbr) :
    AllMapped s.ram.mem (s.vms vm).vttbr ipa size ↔ ∀ k, k * pageSize < size →
      translate s.ram.mem (s.vms vm).vttbr (ipa + k * pageSize) ≠ none := by
  simp only [AllMapped, ne_eq, T.translate_eq_none_iff]

/-- **When a region is trapped**: the heap has room for its record, and all of its pages
are mapped, or none is and the walk of the first finds no last-level table. -/
theorem createMmioTrap_traps (H : VmmioHandlers) (R : TrapReady start s vm)
    (ht : IsTrap ipa size vmmioRead vmmioWrite) :
    (∃ s', createMmioTrap vm ipa size vmmioRead vmmioWrite s = .ok () s' ∧
      Traps H s s' vm ipa size vmmioRead vmmioWrite) ↔
    s.sysBlk.HasRoom sizeofVmmioInfo ∧
      ((∀ k, k * pageSize < size →
          translate s.ram.mem (s.vms vm).vttbr (ipa + k * pageSize) ≠ none) ∨
        (pteAt s.ram.mem (s.vms vm).vttbr ipa = none ∧ ∀ k, k * pageSize < size →
          translate s.ram.mem (s.vms vm).vttbr (ipa + k * pageSize) = none)) := by
  have hspec := createMmioTrap_spec R ht
  have hb := ht.bound
  have hpos := ht.pos
  rw [← allMapped_iff R.table]
  constructor
  · rintro ⟨s', hok, htraps⟩
    obtain ⟨hall, hroom, hvttbr, hentry, _⟩ := ok_of_wp hspec hok
    refine ⟨hroom, ?_⟩
    by_cases hw : Walked s.ram.mem (s.vms vm).vttbr ipa
    · exact Or.inl (hall hw)
    · refine Or.inr ⟨by simpa using hw, fun k hk => ?_⟩
      have hnone := htraps.unmapped (ipa + k * pageSize) (by omega) (by omega)
      rw [hvttbr, translate, hentry, if_neg fun h => hw h.1] at hnone
      exact hnone
  · rintro ⟨hroom, hpages⟩
    -- if the first page has a last-level table, all pages are mapped
    have hall : Walked s.ram.mem (s.vms vm).vttbr ipa →
        AllMapped s.ram.mem (s.vms vm).vttbr ipa size := by
      intro hw
      rcases hpages with hall | ⟨hnone, _⟩
      · exact hall
      · simp [Walked, hnone] at hw
    have hwalked : ¬ Walked s.ram.mem (s.vms vm).vttbr ipa → ∀ k, k * pageSize < size →
        translate s.ram.mem (s.vms vm).vttbr (ipa + k * pageSize) = none := by
      intro hw
      rcases hpages with hall | ⟨_, hnone⟩
      · have hpte : pteAt s.ram.mem (s.vms vm).vttbr ipa = none := by simpa using hw
        have h0 := hall 0 (by omega)
        rw [Nat.zero_mul, Nat.add_zero, leafEntry, hpte] at h0
        exact absurd rfl h0
      · exact hnone
    obtain ⟨_, s', hok, _, _, hvttbr, hentry, hreg⟩ := returns_of_wp hspec fun _ _ hE =>
      hE.elim (fun h => h.2 (hall h.1)) fun h => h hroom
    refine ⟨s', hok, ⟨fun x hlo hhi => ?_, fun x hx hout => ?_, ?_⟩⟩
    · have hin := (vpn_region ht (show x < 2 ^ 48 by omega)).mpr ⟨hlo, hhi⟩
      rw [hvttbr, translate, hentry]
      by_cases hw : Walked s.ram.mem (s.vms vm).vttbr ipa
      · rw [if_pos ⟨hw, hin⟩, decodeLeaf_zero]
      · rw [if_neg fun h => hw h.1]
        have hpage : vpn x = vpn (ipa + (x - ipa) / pageSize * pageSize) := by
          obtain ⟨hi, hs⟩ := ht.aligned
          simp only [vpn, pageSize] at *
          omega
        rw [leafEntry_congr hpage]
        exact hwalked hw _ (by simp only [pageSize]; omega)
    · have hnot : ¬ (ipa / pageSize ≤ vpn x ∧ vpn x < ipa / pageSize + size / pageSize) := by
        rw [vpn_region ht hx]
        omega
      rw [hvttbr, translate, translate, hentry, if_neg fun h => hnot h.2]
    · exact fun v x esrIss far hpfar hv hlo hhi hfault hfnv =>
        hreg.dispatch R.ne_zero ht hv hlo hhi hfault hfnv

end trap

/-- A virtual machine at `0x200` with one page mapped, at `0x80000000`. -/
theorem exists_onePage : ∃ s : Hyp, TrapReady 0x10000 s 0x200 ∧
    s.sysBlk.HasRoom sizeofVmmioInfo ∧
    ∀ x, translate s.ram.mem (s.vms 0x200).vttbr x ≠ none ↔ vpn x = vpn 0x80000000 := by
  have W := wellFormedAt_threeFree
  have hzero : ∀ i < 512, read64 threeFree.mem (0x1000 + 8 * i) = 0 := by
    intro i hi
    rw [threeFree, read64_write64_of_disjoint _ (by omega), read64_write64_of_disjoint _ (by omega)]
    exact readLe_eq_zero fun _ _ => rfl
  have hpage : IsPage 0x5000 := by constructor <;> decide
  have hattr : IsAttr 0xc4 := by constructor <;> decide
  have hmap := @mapPage_spec threeFree 0x1000 0x80000000 0x5000 0xc4 _ W.stage2 hpage hattr
    (by decide) fun p t ht => by
    rw [((tableAt_fresh hzero).mp ht).2]
    decide
  obtain ⟨_, t, _, _, used, l', hl, _, S, M, _⟩ := returns_of_wp hmap fun _ _ hE => by
    rcases hE with ⟨_, h⟩ | ⟨_, h⟩
    · exact h ((W.stage2.table.translate_eq_none_iff _).mp (translate_fresh hzero _))
    · exact absurd h (by decide)
  have htrans : ∀ x, translate t.mem 0x1000 x =
      if vpn x = vpn 0x80000000 then some (0x5000, 0xc4 ||| pteAf ||| pteV) else none := by
    intro x
    rw [M.translate hpage hattr, translate_fresh hzero]
  have hlow : ∀ p u, TableAt t.mem 0x1000 p u → u < 0x10000 - pageSize := by
    intro p u hu
    rcases M.new p u hu with hold | ⟨hmem, _⟩
    · rw [((tableAt_fresh hzero).mp hold).2]
      decide
    · have hin : u ∈ [0x2000, 0x3000, 0x4000] := by
        rw [hl]
        exact List.mem_append_left _ hmem
      simp only [List.mem_cons, List.not_mem_nil, or_false] at hin
      rcases hin with rfl | rfl | rfl <;> decide
  have hdisj : ∀ u, u < 0x10000 - pageSize →
      Disjoint (block u pageSize) (block 0x10000 configBlkSize) := by
    intro u hu
    rw [Set.disjoint_left]
    intro x hx hx'
    simp only [mem_block, pageSize] at *
    omega
  have hregion : IsRegion 0x10000 := by constructor <;> decide
  refine ⟨{ zeroHyp t (freshPool (.leftBy 0) 0x10000) with
    vms := fun _ => { zeroVm with vttbr := 0x1000 } }, ?_, ?_, ?_⟩
  · refine ⟨by decide, S.table, S.out_apart, fun p u hu => hdisj u (hlow p u hu), ?_,
      ⟨[], _, freshPool_blocks hregion _ _ _⟩, S.pool.lock_free, rfl, rfl⟩
    intro x out a h
    change translate t.mem 0x1000 x = some (out, a) at h
    rw [htrans] at h
    by_cases hv : vpn x = vpn 0x80000000
    · rw [if_pos hv, Option.some_inj, Prod.mk.injEq] at h
      exact h.1 ▸ hdisj 0x5000 (by decide)
    · rw [if_neg hv] at h
      cases h
  · exact ⟨9, by decide, Or.inr (Or.inl (show (0 : ℕ) ≠ blkSliceNum by decide))⟩
  · intro x
    change translate t.mem 0x1000 x ≠ none ↔ _
    rw [htrans]
    by_cases hv : vpn x = vpn 0x80000000 <;> simp [hv]

/-- Trapping the mapped page does its work. -/
theorem createMmioTrap_traps_mapped : ∃ s s' : Hyp,
    createMmioTrap 0x200 0x80000000 0x1000 0x40200000 0x40200100 s = .ok () s' ∧
    Traps ⟨fun _ _ _ _ _ => pure 0, fun _ _ _ _ _ => pure 0⟩ s s' 0x200 0x80000000 0x1000
      0x40200000 0x40200100 := by
  obtain ⟨s, R, hroom, hmapped⟩ := exists_onePage
  have ht : IsTrap 0x80000000 0x1000 0x40200000 0x40200100 := by constructor <;> decide
  refine ⟨s, (createMmioTrap_traps _ R ht).mpr ⟨hroom, Or.inl fun k hk => ?_⟩⟩
  have hk0 : k = 0 := by
    simp only [pageSize] at hk
    omega
  rw [hk0]
  exact (hmapped _).mpr rfl

/-- Trapping the page behind the mapped one, which is not mapped, stops. -/
theorem createMmioTrap_stops : ∃ s : Hyp, TrapReady 0x10000 s 0x200 ∧
    s.sysBlk.HasRoom sizeofVmmioInfo ∧ IsTrap 0x80001000 0x1000 0x40200000 0x40200100 ∧
    ¬ ∃ s', createMmioTrap 0x200 0x80001000 0x1000 0x40200000 0x40200100 s = .ok () s' := by
  obtain ⟨s, R, hroom, hmapped⟩ := exists_onePage
  have ht : IsTrap 0x80001000 0x1000 0x40200000 0x40200100 := by constructor <;> decide
  refine ⟨s, R, hroom, ht, fun ⟨s', hok⟩ => ?_⟩
  have hfirst : leafEntry s.ram.mem (s.vms 0x200).vttbr 0x80000000 ≠ 0 := by
    rw [ne_eq, ← R.table.translate_eq_none_iff]
    exact (hmapped _).mpr rfl
  obtain ⟨u, hu, _⟩ := exists_tableAt_of_leafEntry hfirst
  -- the two pages have the same last-level table
  have hpath : tablePath 0x80001000 = tablePath 0x80000000 := by decide
  have hw : Walked s.ram.mem (s.vms 0x200).vttbr 0x80001000 := by
    simp only [Walked, pteAt, hpath, hu.walk, Option.map_some, Option.isSome_some]
  have hall := (ok_of_wp (createMmioTrap_spec R ht) hok).1 hw 0 (by decide)
  rw [ne_eq, ← R.table.translate_eq_none_iff] at hall
  have hv := (hmapped _).mp hall
  revert hv
  decide

end Xhyper
