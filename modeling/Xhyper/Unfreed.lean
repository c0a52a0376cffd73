import Xhyper.BlkRuns
import Xhyper.Machine

/-!
# A heap that nothing was returned to

The hypervisor never calls `xfree`.  Its free lists stay empty, so that what the block
allocator does next is in its own variables and not in memory: the heap survives every
write, also one through a bad pointer.

## Main definitions

* `Unfreed` — the pool with the blocks `live` in use and no free one.
* `xmalloc_unfreed` — an allocation.
* `HeapWrites` — bytes of the heap are written, and nothing else in memory.
-/

namespace Xhyper

open Memory Prog

/-- The pool with the blocks `live` in use and no free one. -/
def Unfreed (start : ℕ) (h : Heap) (live : List ℕ) : Prop := Blocks start h live fun _ => []

/-- No block is on a free list. -/
def BlkPool.NoFree (p : BlkPool) : Prop := ∀ c, (p.blkList c).freeHead = 0

section unfreed
variable {start : ℕ} {h h' : Heap} {live : List ℕ} {free : Fin blkSliceBit → List ℕ}
  {E : Fault → Heap → Prop}

theorem Unfreed.noFree (U : Unfreed start h live) : h.pool.NoFree := fun c => U.chain c

/-- Empty free lists are the only ones that empty heads give. -/
theorem Blocks.unfreed (B : Blocks start h live free) (hno : h.pool.NoFree) :
    Unfreed start h live := by
  have hnil : free = fun _ => [] := by
    ext1 c
    exact (B.chain c).eq_nil_iff.mpr (hno c)
  rw [Unfreed, ← hnil]
  exact B

/-- **Memory does not matter**, nor which core looks at it. -/
theorem Unfreed.congr (U : Unfreed start h live) (hpool : h'.pool = h.pool) :
    Unfreed start h' live := by
  obtain ⟨core, m, pool⟩ := h'
  subst hpool
  have hnil : ∀ {P : ℕ → Prop}, ∀ b ∈ ([] : List ℕ), P b := fun b hb => absurd hb List.not_mem_nil
  exact ⟨⟨U.region, U.start_eq, U.end_eq, U.blk_size, U.slice_le, U.slice_type, U.slice_sum,
    U.current, U.live_carved, U.live_nodup, fun c => U.noFree c, fun c => hnil, fun c => hnil,
    U.free_cnt⟩, U.nofree_cnt⟩

theorem Unfreed.ne_zero (U : Unfreed start h live) {b : ℕ} (hb : b ∈ live) : b ≠ 0 := by
  obtain ⟨c, hc⟩ := U.live_carved b hb
  exact U.toLayout.ne_zero hc

/-- Changing one class keeps the heads at zero. -/
theorem BlkPool.NoFree.setList (hno : h.pool.NoFree) {c : Fin blkSliceBit} {l : BlkList}
    (hl : l.freeHead = 0) : (h.setList c l).pool.NoFree := by
  intro c'
  by_cases hc : c' = c
  · rw [hc, setList_self, hl]
  · rw [setList_of_ne h l hc, hno c']

/-- The search of an allocation puts nothing on a free list. -/
theorem blkAllocFrom_noFree (left : ℕ) : ∀ (bl : Option (Fin blkSliceBit)) (h : Heap),
    h.pool.NoFree →
    wp (blkAllocFrom left bl) (fun _ h' => h'.pool.NoFree) (fun _ h' => h'.pool.NoFree) h := by
  induction left with
  | zero => exact fun bl h hno => hno
  | succ left ih =>
      intro bl h hno
      simp only [blkAllocFrom, wp_bind, wp_get, wp_ite, wp_set, wp_pure]
      generalize (⟨9 - left, Nat.lt_of_le_of_lt (Nat.sub_le _ _) (by decide)⟩ :
        Fin blkSliceBit) = c
      have hcarve : ∀ g : Heap, g.pool.NoFree →
          wp (carve c) (fun _ h' => h'.pool.NoFree) (fun _ h' => h'.pool.NoFree) g := by
        intro g hg
        simp only [carve, wp_bind, wp_get, wp_set, wp_pure]
        exact hg.setList (hg c)
      refine ⟨fun hhead => absurd (hno c) hhead, fun _ => ⟨fun _ => ⟨fun _ => ih _ h hno,
        fun hroom => ?_⟩, fun _ => hcarve h hno⟩⟩
      simp only [newSlice, wp_bind, wp_get]
      by_cases hs : h.pool.sliceCnt < blkSliceNum
      · simp only [hs, dite_true, wp_set]
        refine hcarve _ fun c' => ?_
        by_cases hc : c' = c
        · subst hc
          simpa [BlkList.start] using hno c'
        · simpa [Function.update_of_ne hc] using hno c'
      · simp only [hs, dite_false, wp_throw]
        exact hno

theorem xmalloc_noFree {size : ℕ} (hno : h.pool.NoFree) :
    wp (xmalloc size) (fun _ h' => h'.pool.NoFree) (fun _ _ => True) h := by
  simp only [xmalloc, wp_bind, wp_get]
  refine wp_spinLock_of (fun _ => ?_) fun _ _ => trivial
  simp only [blkAlloc, wp_bind]
  refine wp_mono (blkAllocFrom_noFree _ none _ hno) ?_ fun _ _ _ => trivial
  intro r h₁ h1
  obtain ⟨bl, blk⟩ := r
  cases bl with
  | none =>
      simp only [wp_pure]
      exact spinUnlock_ends fun _ => h1
  | some c =>
      simp only [wp_ite, wp_abort, wp_bind, wp_get, wp_set, wp_pure]
      have hused : (h₁.setList c (h₁.pool.blkList c).use).pool.NoFree := h1.setList (h1 c)
      exact ⟨fun _ => trivial, fun _ => spinUnlock_ends fun _ => hused⟩

/-- **An allocation** that returns gives null or a block that was not in use. -/
theorem xmalloc_unfreed (U : Unfreed start h live) {size : ℕ} (h32 : size < 2 ^ 32) :
    wp (xmalloc size) (fun r h' => h'.mem = h.mem ∧ h'.core = h.core ∧
      ((r = none ∧ Unfreed start h' live) ∨
        ∃ b, r = some b ∧ b ∉ live ∧ Unfreed start h' (b :: live) ∧
          block b size ⊆ block start configBlkSize)) (fun _ _ => True) h := by
  have hspec : wp (xmalloc size) _ (fun _ _ => True) h :=
    wp_mono (xmalloc_spec U h32) (fun _ _ hQ => hQ) fun _ _ _ => trivial
  refine wp_mono (wp_and hspec (xmalloc_noFree U.noFree)) ?_ fun _ _ _ => trivial
  rintro r h' ⟨⟨_, hr⟩, hno⟩
  rcases hr with ⟨hr, B, hmem, hcore, _⟩ | ⟨b, hr, _, G⟩
  · exact ⟨hmem, hcore, Or.inl ⟨hr, B.unfreed hno⟩⟩
  · obtain ⟨free', B⟩ := G.blocks
    obtain ⟨c, hc, hsize, _⟩ := G.carved
    refine ⟨G.mem_eq, G.core_eq, Or.inr ⟨b, hr, (List.nodup_cons.mp B.live_nodup).1,
      B.unfreed hno, B.block_heap hc hsize⟩⟩

end unfreed

/-! ## Writing to blocks of the heap -/

/-- Only bytes of the heap were written, and no page was taken or given back. -/
structure HeapWrites (start : ℕ) (r r' : Ram) : Prop where
  pages : r'.pages = r.pages
  mem : ∀ x, x ∉ block start configBlkSize → r'.mem x = r.mem x

namespace HeapWrites

variable {start : ℕ} {r r' r'' : Ram}

theorem refl (r : Ram) : HeapWrites start r r := ⟨rfl, fun _ _ => rfl⟩

theorem trans (h : HeapWrites start r r') (h' : HeapWrites start r' r'') :
    HeapWrites start r r'' :=
  ⟨h'.pages.trans h.pages, fun x hx => (h'.mem x hx).trans (h.mem x hx)⟩

/-- A field of a block is written. -/
theorem store (h : HeapWrites start r r') {a n : ℕ} (v : ℕ)
    (hsub : block a n ⊆ block start configBlkSize) :
    HeapWrites start r { r' with mem := writeLe r'.mem a n v } := by
  refine ⟨h.pages, fun x hx => ?_⟩
  rw [← h.mem x hx]
  exact writeLe_of_notMem fun hxa => hx (hsub hxa)

end HeapWrites

/-- A field lies in its block. -/
theorem field_subset {b i n size : ℕ} (h : i + n ≤ size) : block (b + i) n ⊆ block b size :=
  block_subset (Nat.le_add_right b i) (by omega)

end Xhyper
