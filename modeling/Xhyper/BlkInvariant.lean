import Xhyper.Lib.Chain
import Xhyper.Xmalloc
import Mathlib.Algebra.BigOperators.Fin
import Mathlib.Algebra.Order.Interval.Finset.SuccPred
import Mathlib.Data.Finset.Card
import Mathlib.Order.Interval.Finset.Nat

/-!
# The invariant of the block allocator

The blocks of a class are cut at multiples of their size inside the slices of the
class.  `Carved p c b` says that `b` is such a block and has been cut already: in
the current slice of its class it lies in front of the cutting offset.  Two
different carved blocks share no byte, whatever their classes, because a slice
belongs to one class.

`Layout start h live free` is the state of the pool: the blocks in use are `live`,
the free list of class `c` is `free c`, all of them are carved, and none is twice
in these lists.  `Blocks` adds that the counters of blocks in use agree.

Every operation changes one class and leaves the class on its slice, or gives a
class the next slice.  `Layout.setList` is the first kind of change.

## Main definitions

* `Carved`, `Layout`, `Blocks` — the invariant.
* `Carved.typeOf`, `Carved.disjoint` — a block's class, and its bytes.
* `Layout.setList` — one class changes.
-/

namespace Xhyper

open Memory Prog

/-- Where the pool's bytes may lie. -/
structure IsRegion (start : ℕ) : Prop where
  ne_zero : start ≠ 0
  aligned : start % 8 = 0
  bound : start + configBlkSize < 2 ^ 64

/-- `b` is a block of class `c` that has been cut off a slice. -/
def Carved (p : BlkPool) (c : Fin blkSliceBit) (b : ℕ) : Prop :=
  ∃ i : Fin blkSliceNum, i < p.sliceCnt ∧ p.sliceType i = c ∧
    ∃ k, b = p.poolStart + i * 1024 + k * 2 ^ c.val ∧ (k + 1) * 2 ^ c.val ≤ 1024 ∧
      ((p.blkList c).sliceAddr = p.poolStart + i * 1024 →
        (k + 1) * 2 ^ c.val ≤ (p.blkList c).sliceOffset)

/-- The number of bytes of the block `b`. -/
def BlkPool.bytes (p : BlkPool) (b : ℕ) : ℕ :=
  match p.typeOf b with
  | some c => 2 ^ c.val
  | none => 0

/-- How class `c` uses its current slice. -/
def CurrentSlice (p : BlkPool) (c : Fin blkSliceBit) : Prop :=
  (p.blkList c).sliceAddr = 0 ∨ ∃ i : Fin blkSliceNum, i < p.sliceCnt ∧ p.sliceType i = c ∧
    (p.blkList c).sliceAddr = p.poolStart + i * 1024 ∧
    (p.blkList c).sliceOffset ≤ 1024 ∧ 2 ^ c.val ∣ (p.blkList c).sliceOffset

/-- The pool with the blocks `live` in use and the free lists `free`. -/
structure Layout (start : ℕ) (h : Heap) (live : List ℕ) (free : Fin blkSliceBit → List ℕ) :
    Prop where
  region : IsRegion start
  start_eq : h.pool.poolStart = start
  end_eq : h.pool.poolEnd = start + configBlkSize
  blk_size : ∀ c, (h.pool.blkList c).blkSize = 2 ^ c.val
  slice_le : h.pool.sliceCnt ≤ blkSliceNum
  slice_type : ∀ i : Fin blkSliceNum, i < h.pool.sliceCnt → 3 ≤ h.pool.sliceType i
  slice_sum : ∑ c, (h.pool.blkList c).sliceCnt = h.pool.sliceCnt
  current : ∀ c, CurrentSlice h.pool c
  live_carved : ∀ b ∈ live, ∃ c, Carved h.pool c b
  live_nodup : live.Nodup
  chain : ∀ c, Chain (read64 h.mem) (h.pool.blkList c).freeHead (free c)
  free_carved : ∀ c, ∀ b ∈ free c, Carved h.pool c b
  free_apart : ∀ c, ∀ b ∈ free c, b ∉ live
  free_cnt : ∀ c, (h.pool.blkList c).freelistCnt = (free c).length

/-- The number of blocks of class `c` in use. -/
def liveCount (p : BlkPool) (live : List ℕ) (c : Fin blkSliceBit) : ℕ :=
  live.countP fun b => p.typeOf b = some c

/-- The pool with its counters of blocks in use. -/
structure Blocks (start : ℕ) (h : Heap) (live : List ℕ) (free : Fin blkSliceBit → List ℕ) : Prop
    extends Layout start h live free where
  nofree_cnt : ∀ c, (h.pool.blkList c).nofreeCnt = liveCount h.pool live c

/-! ## Carved blocks -/

section carved
variable {p : BlkPool} {b b' : ℕ} {c c' : Fin blkSliceBit}

/-- A multiple of a class's size that starts in front of another one ends in front of it. -/
theorem mul_add_le {a k n : ℕ} (h : k < n) : k * a + a ≤ n * a := by
  calc k * a + a = (k + 1) * a := (Nat.succ_mul k a).symm
    _ ≤ n * a := Nat.mul_le_mul_right a h

/-- A block lies inside its slice. -/
theorem Carved.inside (h : Carved p c b) : ∃ i : Fin blkSliceNum, i < p.sliceCnt ∧
    p.poolStart + i * 1024 ≤ b ∧ b + 2 ^ c.val ≤ p.poolStart + i * 1024 + 1024 := by
  obtain ⟨i, hi, _, k, rfl, hk, _⟩ := h
  rw [Nat.succ_mul] at hk
  exact ⟨i, hi, by omega, by omega⟩

/-- A block lies inside the pool. -/
theorem Carved.bounds (h : Carved p c b) :
    p.poolStart ≤ b ∧ b + 2 ^ c.val ≤ p.poolStart + configBlkSize := by
  obtain ⟨i, _, hlo, hhi⟩ := h.inside
  have hi := i.isLt
  simp only [blkSliceNum, configBlkSize] at *
  omega

/-- **Freeing finds a block's class.** -/
theorem Carved.typeOf (h : Carved p c b) : p.typeOf b = some c := by
  obtain ⟨i, _, ht, k, hb, hk, _⟩ := h
  have hpos : 0 < 2 ^ c.val := Nat.two_pow_pos _
  rw [Nat.succ_mul] at hk
  have hi := i.isLt
  have hidx : p.sliceIdx b = i := by
    simp only [BlkPool.sliceIdx, blkSliceSize, blkSliceNum] at *
    omega
  simp only [BlkPool.typeOf, hidx, hi, Fin.eta, ht, c.isLt, dite_true]

theorem Carved.bytes (h : Carved p c b) : p.bytes b = 2 ^ c.val := by
  rw [BlkPool.bytes, h.typeOf]

/-- A block is of one class. -/
theorem Carved.unique (h : Carved p c b) (h' : Carved p c' b) : c = c' :=
  Option.some_inj.mp (h.typeOf.symm.trans h'.typeOf)

/-- **Different blocks share no byte.** -/
theorem Carved.disjoint (h : Carved p c b) (h' : Carved p c' b') (hne : b ≠ b') :
    Disjoint (block b (2 ^ c.val)) (block b' (2 ^ c'.val)) := by
  obtain ⟨i, _, ht, k, hb, hk, _⟩ := h
  obtain ⟨j, _, ht', k', hb', hk', _⟩ := h'
  have hs : (k + 1) * 2 ^ c.val = k * 2 ^ c.val + 2 ^ c.val := Nat.succ_mul _ _
  have hs' : (k' + 1) * 2 ^ c'.val = k' * 2 ^ c'.val + 2 ^ c'.val := Nat.succ_mul _ _
  rw [Set.disjoint_left]
  intro x hx hx'
  simp only [mem_block] at hx hx'
  by_cases hij : i = j
  · subst hij
    have hcc : c = c' := Fin.ext (ht.symm.trans ht')
    subst hcc
    rcases Nat.lt_trichotomy k k' with hlt | heq | hlt
    · have := mul_add_le (a := 2 ^ c.val) hlt
      omega
    · exact hne (by rw [hb, hb', heq])
    · have := mul_add_le (a := 2 ^ c.val) hlt
      omega
  · have hij' : i.val ≠ j.val := fun h => hij (Fin.ext h)
    omega

/-- The pool holds no more than its bytes. -/
theorem length_le_of_carved {l : List ℕ} (hnd : l.Nodup)
    (hl : ∀ b ∈ l, ∃ c, Carved p c b) : l.length ≤ configBlkSize := by
  have hsub : l.toFinset ⊆ Finset.Ico p.poolStart (p.poolStart + configBlkSize) := by
    intro b hb
    obtain ⟨c, hc⟩ := hl b (List.mem_toFinset.mp hb)
    have hpos : 0 < 2 ^ c.val := Nat.two_pow_pos _
    have := hc.bounds
    exact Finset.mem_Ico.mpr ⟨this.1, by omega⟩
  calc l.length = l.toFinset.card := (List.toFinset_card_of_nodup hnd).symm
    _ ≤ (Finset.Ico p.poolStart (p.poolStart + configBlkSize)).card :=
        Finset.card_le_card hsub
    _ = configBlkSize := by simp

end carved

namespace Layout

variable {start : ℕ} {h : Heap} {live : List ℕ} {free : Fin blkSliceBit → List ℕ}

theorem pool_ne_zero (L : Layout start h live free) : h.pool.poolStart ≠ 0 := by
  rw [L.start_eq]
  exact L.region.ne_zero

/-- A block has at least eight bytes. -/
theorem three_le (L : Layout start h live free) {c : Fin blkSliceBit} {b : ℕ}
    (hb : Carved h.pool c b) : 3 ≤ c.val := by
  obtain ⟨i, hi, ht, _⟩ := hb
  exact ht ▸ L.slice_type i hi

theorem eight_le (L : Layout start h live free) {c : Fin blkSliceBit} {b : ℕ}
    (hb : Carved h.pool c b) : 8 ≤ 2 ^ c.val := by
  have := Nat.pow_le_pow_right (show 0 < 2 by norm_num) (L.three_le hb)
  omega

/-- A block is aligned to eight bytes. -/
theorem aligned (L : Layout start h live free) {c : Fin blkSliceBit} {b : ℕ}
    (hb : Carved h.pool c b) : b % 8 = 0 := by
  have h3 := L.three_le hb
  obtain ⟨i, _, _, k, rfl, _⟩ := hb
  have hstart := L.region.aligned
  have hdvd : 8 ∣ k * 2 ^ c.val := Dvd.dvd.mul_left (pow_dvd_pow 2 h3) k
  rw [L.start_eq]
  omega

theorem ne_zero (L : Layout start h live free) {c : Fin blkSliceBit} {b : ℕ}
    (hb : Carved h.pool c b) : b ≠ 0 := by
  have := hb.bounds.1
  have := L.pool_ne_zero
  omega

/-- A block lies in the region of the heap. -/
theorem block_heap (L : Layout start h live free) {c : Fin blkSliceBit} {b n : ℕ}
    (hb : Carved h.pool c b) (hn : n ≤ 2 ^ c.val) : block b n ⊆ block start configBlkSize := by
  obtain ⟨hlo, hhi⟩ := hb.bounds
  rw [L.start_eq] at hlo hhi
  exact block_subset hlo ((Nat.add_le_add_left hn b).trans hhi)

theorem free_length_le (L : Layout start h live free) (c : Fin blkSliceBit) :
    (free c).length ≤ configBlkSize :=
  length_le_of_carved (L.chain c).nodup fun b hb => ⟨c, L.free_carved c b hb⟩

/-- Bytes outside the free blocks may change. -/
theorem frame (L : Layout start h live free) {m : Mem}
    (hm : ∀ c, ∀ b ∈ free c, Set.EqOn m h.mem (block b (2 ^ c.val))) :
    Layout start { h with mem := m } live free where
  region := L.region
  start_eq := L.start_eq
  end_eq := L.end_eq
  blk_size := L.blk_size
  slice_le := L.slice_le
  slice_type := L.slice_type
  slice_sum := L.slice_sum
  current := L.current
  live_carved := L.live_carved
  live_nodup := L.live_nodup
  chain c := by
    refine (L.chain c).congr fun b hb => readLe_congr ((hm c b hb).mono ?_)
    exact block_subset le_rfl (Nat.add_le_add_left (L.eight_le (L.free_carved c b hb)) b)
  free_carved := L.free_carved
  free_apart := L.free_apart
  free_cnt := L.free_cnt

end Layout

/-! ## Changing one class -/

section setList
variable {start : ℕ} {h : Heap} {live : List ℕ} {free : Fin blkSliceBit → List ℕ}
  {c : Fin blkSliceBit} {l : BlkList}

@[simp] theorem setList_self (h : Heap) (c : Fin blkSliceBit) (l : BlkList) :
    (h.setList c l).pool.blkList c = l := by simp [Heap.setList]

theorem setList_of_ne (h : Heap) {c c' : Fin blkSliceBit} (l : BlkList) (hne : c' ≠ c) :
    (h.setList c l).pool.blkList c' = h.pool.blkList c' := by simp [Heap.setList, hne]

/-- A field that one class keeps is kept by all. -/
theorem setList_field {β : Type} (f : BlkList → β) (hl : f l = f (h.pool.blkList c))
    (c' : Fin blkSliceBit) : f ((h.setList c l).pool.blkList c') = f (h.pool.blkList c') := by
  by_cases hc : c' = c
  · rw [hc, setList_self, hl]
  · rw [setList_of_ne h l hc]

/-- The class goes on with its current slice. -/
structure KeepsSlice (l l' : BlkList) (c : Fin blkSliceBit) : Prop where
  blk_size : l'.blkSize = l.blkSize
  slice_cnt : l'.sliceCnt = l.sliceCnt
  slice_addr : l'.sliceAddr = l.sliceAddr
  offset_le : l.sliceOffset ≤ l'.sliceOffset
  offset_max : l.sliceAddr ≠ 0 → l'.sliceOffset ≤ 1024 ∧ 2 ^ c.val ∣ l'.sliceOffset

theorem KeepsSlice.of_eq (L : Layout start h live free) (hsize : l.blkSize = (h.pool.blkList c).blkSize)
    (hcnt : l.sliceCnt = (h.pool.blkList c).sliceCnt)
    (haddr : l.sliceAddr = (h.pool.blkList c).sliceAddr)
    (hoff : l.sliceOffset = (h.pool.blkList c).sliceOffset) :
    KeepsSlice (h.pool.blkList c) l c := by
  refine ⟨hsize, hcnt, haddr, le_of_eq hoff.symm, fun hne => ?_⟩
  rcases L.current c with h0 | ⟨i, _, _, _, hle, hdvd⟩
  · exact absurd h0 hne
  · rw [hoff]
    exact ⟨hle, hdvd⟩

/-- The carved blocks stay when a class keeps its slice. -/
theorem Carved.setList {c' : Fin blkSliceBit} {b : ℕ} (hb : Carved h.pool c' b)
    (K : KeepsSlice (h.pool.blkList c) l c) : Carved (h.setList c l).pool c' b := by
  obtain ⟨i, hi, ht, k, hbk, hk, hcut⟩ := hb
  refine ⟨i, hi, ht, k, hbk, hk, ?_⟩
  by_cases hc : c' = c
  · subst hc
    rw [setList_self, K.slice_addr]
    exact fun heq => le_trans (hcut heq) K.offset_le
  · rw [setList_of_ne h l hc]
    exact hcut

/-- **One class changes.**  It keeps its slice and gets the free list `fc`; the
memory changes so that the free lists can be read off it. -/
theorem Layout.setList (L : Layout start h live free) {live' fc : List ℕ} {m : Mem}
    (K : KeepsSlice (h.pool.blkList c) l c)
    (hlive : ∀ b ∈ live', b ∈ live ∨ Carved (h.setList c l).pool c b) (hnd : live'.Nodup)
    (hchain : Chain (read64 m) l.freeHead fc)
    (hchains : ∀ c', c' ≠ c → Chain (read64 m) (h.pool.blkList c').freeHead (free c'))
    (hfc : ∀ b ∈ fc, Carved h.pool c b) (hfcl : ∀ b ∈ fc, b ∉ live')
    (hfree : ∀ c', c' ≠ c → ∀ b ∈ free c', b ∉ live') (hcnt : l.freelistCnt = fc.length) :
    Layout start { h.setList c l with mem := m } live' (Function.update free c fc) where
  region := L.region
  start_eq := L.start_eq
  end_eq := L.end_eq
  blk_size c' := (setList_field BlkList.blkSize K.blk_size c').trans (L.blk_size c')
  slice_le := L.slice_le
  slice_type := L.slice_type
  slice_sum := (Finset.sum_congr rfl fun c' _ =>
    setList_field BlkList.sliceCnt K.slice_cnt c').trans L.slice_sum
  current c' := by
    by_cases hc : c' = c
    · subst hc
      rcases L.current c' with h0 | ⟨i, hi, ht, haddr, _⟩
      · left
        rw [setList_self, K.slice_addr, h0]
      · have hne : (h.pool.blkList c').sliceAddr ≠ 0 := by
          have := L.pool_ne_zero
          omega
        obtain ⟨hmax, hdvd⟩ := K.offset_max hne
        refine Or.inr ⟨i, hi, ht, ?_⟩
        rw [setList_self, K.slice_addr]
        exact ⟨haddr, hmax, hdvd⟩
    · have hcur := L.current c'
      rw [CurrentSlice, setList_of_ne h l hc]
      exact hcur
  live_carved b hb := by
    rcases hlive b hb with hb | hb
    · obtain ⟨c', hc'⟩ := L.live_carved b hb
      exact ⟨c', hc'.setList K⟩
    · exact ⟨c, hb⟩
  live_nodup := hnd
  chain c' := by
    by_cases hc : c' = c
    · subst hc
      rw [setList_self, Function.update_self]
      exact hchain
    · rw [setList_of_ne h l hc, Function.update_of_ne hc]
      exact hchains c' hc
  free_carved c' b hb := by
    by_cases hc : c' = c
    · subst hc
      rw [Function.update_self] at hb
      exact (hfc b hb).setList K
    · rw [Function.update_of_ne hc] at hb
      exact (L.free_carved c' b hb).setList K
  free_apart c' b hb := by
    by_cases hc : c' = c
    · subst hc
      rw [Function.update_self] at hb
      exact hfcl b hb
    · rw [Function.update_of_ne hc] at hb
      exact hfree c' hc b hb
  free_cnt c' := by
    by_cases hc : c' = c
    · subst hc
      rw [setList_self, Function.update_self]
      exact hcnt
    · rw [setList_of_ne h l hc, Function.update_of_ne hc]
      exact L.free_cnt c'

end setList

end Xhyper
