import Xhyper.Lib.Oblivious
import Xhyper.BlkServe

/-!
# What the pool turns down

`blk_free` finds the slice of an address by a subtraction, a shift and a truncation to
32 bits, and the class of the slice in a table that is zero for slices not handed out.
Zero is a class, so an address in such a slice is taken for a block; and so is an address
whose distance from the pool agrees with that of a slice in the bits the truncation keeps.

`blk_pool_init` clears the region before it looks at it, and the pool always has eight
slices, however large the region is.

## Main definitions

* `Strange` — an address outside the slices handed out.
* `xfree_rejects_iff` — when a strange address is turned down.
* `PoolKept` — what accepting a pool, or not, should mean.
* `blkPoolInit_kept_iff` — when it does.
-/

namespace Xhyper

open Memory Prog

/-! ## What `blk_pool_init` leaves -/

/-- A region that `blk_pool_init` takes for a pool. -/
def Regular (start size : ℕ) : Prop := start % 8 = 0 ∧ size % blkSliceSize = 0

/-- The pool that `blk_pool_init` leaves on a region of `size` bytes. -/
def initPool (lock : Spinlock) (start size : ℕ) : BlkPool :=
  { freshPool lock start with poolEnd := (start + size) % 2 ^ 64 }

/-- `blk_pool_init` refuses the null pointer, and clears the region otherwise. -/
theorem wp_blkPoolInit_iff {start size : ℕ} {h : Heap} {Q : ℤ → Heap → Prop}
    {E : Fault → Heap → Prop} :
    wp (blkPoolInit start size) Q E h ↔
      (start = 0 → Q negEinval h) ∧
      (start ≠ 0 → ¬ Regular start size →
        Q negEinval { h with mem := fill h.mem start size 0 }) ∧
      (start ≠ 0 → Regular start size →
        Q 0 ⟨h.core, fill h.mem start size 0,
          initPool (archSpinlockInit h.pool.blkLock) start size⟩) := by
  by_cases h0 : start = 0
  · simp [blkPoolInit, h0]
  have hreg : Regular start size ↔
      ¬ (start % 8 ≠ 0 ∨ size % 8 ≠ 0) ∧ ¬ size % blkSliceSize ≠ 0 := by
    simp only [Regular, blkSliceSize]
    omega
  have hne : start ≠ 0 := h0
  simp only [hreg, blkPoolInit, wp_bind, wp_modify, wp_ite, wp_pure, h0]
  by_cases halign : start % 8 ≠ 0 ∨ size % 8 ≠ 0
  · simp [halign, hne]
  by_cases hsize : size % blkSliceSize ≠ 0
  · simp [halign, hsize, hne]
  · simp only [halign, hsize, hne, ne_eq, not_false_eq_true, and_self, true_implies,
      not_true_eq_false, false_implies, true_and]
    rfl

/-! ## Addresses that are not the pool's -/

/-- `a` lies in none of the slices that have a class. -/
def Strange (p : BlkPool) (a : ℕ) : Prop :=
  ∀ i : Fin blkSliceNum, i < p.sliceCnt → a ∉ block (p.poolStart + i * blkSliceSize) blkSliceSize

/-- `xfree` returns an error and only the lock has been written. -/
def Rejected (a : ℕ) (h : Heap) : Prop :=
  ∃ r h' l, xfree a h = .ok r h' ∧ r < 0 ∧ h' = Heap.blkLock.set l h

/-- Every slice is marked with a class, those not handed out too. -/
def ClassMarks (p : BlkPool) : Prop := ∀ i, p.sliceType i < blkSliceBit

/-- `blk_free` takes an address for a block when the bits it looks at say so. -/
theorem typeOf_eq_none_iff {p : BlkPool} (M : ClassMarks p) (a : ℕ) :
    p.typeOf a = none ↔ blkSliceNum ≤ p.sliceIdx a := by
  by_cases hi : p.sliceIdx a < blkSliceNum
  · simp only [BlkPool.typeOf, hi, dite_true, M _, reduceCtorEq, false_iff, not_le]
  · simp only [BlkPool.typeOf, hi, dite_false, true_iff]
    exact not_lt.mp hi

theorem classMarks_of_init {start size : ℕ} {h h₁ : Heap}
    (hinit : blkPoolInit start size h = .ok 0 h₁) : ClassMarks h₁.pool := by
  have hmarks : wp (blkPoolInit start size) (fun r h' => r = 0 → ClassMarks h'.pool)
      (fun _ _ => True) h := by
    refine wp_blkPoolInit_iff.mpr ⟨fun _ h0 => ?_, fun _ _ h0 => ?_, fun _ _ _ _ => ?_⟩
    · exact absurd h0 (by decide)
    · exact absurd h0 (by decide)
    · exact Nat.zero_lt_succ _
  exact ok_of_wp hmarks hinit rfl

/-- A class that hands out a block leaves the marks classes. -/
theorem Hands.classMarks {h h' : Heap} {c : Fin blkSliceBit} {b : ℕ} (H : Hands h c b h')
    (M : ClassMarks h.pool) : ClassMarks h'.pool := by
  cases H with
  | free _ => exact M
  | cut _ _ _ => exact M
  | slice hs _ _ _ =>
      intro i
      by_cases hi : i = ⟨h.pool.sliceCnt, hs⟩
      · rw [hi]
        simp
      · simpa [hi] using M i

theorem blkFree_classMarks {h : Heap} (M : ClassMarks h.pool) {b : ℕ} :
    wp (blkFree b) (fun _ h' => ClassMarks h'.pool) (fun _ _ => True) h := by
  simp only [blkFree, wp_bind, wp_get]
  cases h.pool.typeOf b with
  | none => exact M
  | some c => exact M

section runs
variable {start : ℕ} {s s' : Heap × List ℕ}

/-- A move leaves the marks classes. -/
theorem BlkStep.classMarks (step : BlkStep s s') (B : ∃ free, Blocks start s.1 s.2 free)
    (M : ClassMarks s.1.pool) : ClassMarks s'.1.pool := by
  obtain ⟨free, B⟩ := B
  cases step with
  | alloc size hexec =>
      obtain ⟨c, _, hands⟩ := hands_of_blkAlloc B size.isLt hexec
      exact hands.classMarks M
  | null size hexec =>
      rcases ok_of_wp (blkAlloc_blocks B size.isLt) hexec with ⟨_, hh, _⟩ | ⟨b, hr, _⟩
      · subst hh
        exact M
      · cases hr
  | free _ hexec => exact ok_of_wp (blkFree_classMarks M) hexec
  | write v _ _ => exact M

/-- **Every slice is marked with a class in every run.** -/
theorem BlkRun.classMarks (run : BlkRun s s') (B : ∃ free, Blocks start s.1 s.2 free)
    (M : ClassMarks s.1.pool) : ClassMarks s'.1.pool := by
  induction run with
  | refl => exact M
  | tail run step ih => exact step.classMarks (BlkRun.blocks run B) ih

end runs

/-! ## Freeing a strange address -/

section xfree
variable {h : Heap} {a : ℕ}

theorem rejected_zero (h : Heap) : Rejected 0 h :=
  ⟨negEinval, h, h.pool.blkLock, rfl, by decide, rfl⟩

/-- A core that waits for the lock returns nothing. -/
theorem not_rejected_of_locked (ha : a ≠ 0) (hlock : h.pool.blkLock.word ≠ 0) :
    ¬ Rejected a h := by
  rintro ⟨r, h', l, hexec, _⟩
  have hstop : wp (xfree a) (fun _ _ => False) (fun _ _ => True) h := by
    simp only [xfree, if_neg ha, wp_bind, wp_get]
    exact wp_spinLock_of (fun hfree => absurd hfree hlock) fun _ _ => trivial
  exact ok_of_wp hstop hexec

/-- With a free lock `xfree` frees. -/
theorem wp_xfree {Q : ℤ → Heap → Prop} {E : Fault → Heap → Prop} (ha : a ≠ 0)
    (hlock : h.pool.blkLock.word = 0) : wp (xfree a) Q E h ↔
      wp (blkFree a) (fun r h' => wp (spinUnlock Heap.blkLock h'.core) (fun _ h' => Q r h') E h') E
        (Heap.blkLock.set (.heldBy h.core) h) := by
  simp only [xfree, if_neg ha, wp_bind, wp_get]
  rw [wp_spinLock hlock]
  simp only [wp_pure]

theorem rejected_of_typeOf (ha : a ≠ 0) (hlock : h.pool.blkLock.word = 0)
    (htype : h.pool.typeOf a = none) : Rejected a h := by
  have htype' : (Heap.blkLock.set (.heldBy h.core) h).pool.typeOf a = none := htype
  have hrun : wp (xfree a) (fun r h' => r = negEperm ∧ h' = Heap.blkLock.set (.leftBy h.core) h)
      (fun _ _ => False) h := by
    simp only [wp_xfree ha hlock, blkFree, wp_bind, wp_get, htype', wp_pure]
    rw [wp_spinUnlock (by simp)]
    exact ⟨trivial, rfl⟩
  obtain ⟨r, h', hexec, hr, hh⟩ := exists_ok_of_wp hrun
  exact ⟨r, h', _, hexec, by rw [hr]; decide, hh⟩

/-- An address that looks like a block's becomes a free block. -/
theorem xfree_takes {c : Fin blkSliceBit} (ha : a ≠ 0) (hlock : h.pool.blkLock.word = 0)
    (htype : h.pool.typeOf a = some c) : ∃ h', xfree a h = .ok 0 h' ∧
      h'.pool.blkList c = (h.pool.blkList c).push a ∧
      h'.mem = write64 h.mem a (h.pool.blkList c).freeHead := by
  have htype' : (Heap.blkLock.set (.heldBy h.core) h).pool.typeOf a = some c := htype
  have hrun : wp (xfree a) (fun r h' => r = 0 ∧ h'.pool.blkList c = (h.pool.blkList c).push a ∧
      h'.mem = write64 h.mem a (h.pool.blkList c).freeHead) (fun _ _ => False) h := by
    simp only [wp_xfree ha hlock, blkFree, wp_bind, wp_get, htype', wp_set, wp_pure]
    rw [wp_spinUnlock (by simp [Heap.setList])]
    exact ⟨trivial, setList_self _ _ _, rfl⟩
  obtain ⟨r, h', hexec, rfl, htaken⟩ := exists_ok_of_wp hrun
  exact ⟨h', hexec, htaken⟩

theorem not_rejected_of_typeOf {c : Fin blkSliceBit} (ha : a ≠ 0)
    (hlock : h.pool.blkLock.word = 0) (htype : h.pool.typeOf a = some c) : ¬ Rejected a h := by
  rintro ⟨r, h', l, hexec, hneg, _⟩
  obtain ⟨h'', hexec', _⟩ := xfree_takes ha hlock htype
  rw [hexec'] at hexec
  cases hexec
  exact absurd hneg (lt_irrefl 0)

end xfree

/-- What `blk_free` looks at are the low 42 bits of the distance. -/
theorem sliceIdx_eq {p : BlkPool} (hp : p.poolStart < 2 ^ 64) (a : BitVec 64) :
    p.sliceIdx a.toNat = (a - BitVec.ofNat 64 p.poolStart).toNat % 2 ^ 42 / blkSliceSize := by
  have ha := a.isLt
  rw [BitVec.toNat_sub, BitVec.toNat_ofNat, Nat.mod_eq_of_lt hp]
  simp only [BlkPool.sliceIdx, blkSliceSize]
  omega

/-- Freeing, by the bits `blk_free` looks at. -/
theorem rejected_iff {h : Heap} (hp : h.pool.poolStart < 2 ^ 64) (M : ClassMarks h.pool)
    (a : BitVec 64) : Rejected a.toNat h ↔ a = 0 ∨ (h.pool.blkLock.word = 0 ∧
      configBlkSize ≤ (a - BitVec.ofNat 64 h.pool.poolStart).toNat % 2 ^ 42) := by
  by_cases ha : a = 0
  · rw [ha]
    exact iff_of_true (rejected_zero h) (Or.inl rfl)
  have hne : a.toNat ≠ 0 := fun h0 => ha (BitVec.eq_of_toNat_eq h0)
  by_cases hlock : h.pool.blkLock.word = 0
  · simp only [ha, hlock, true_and, false_or]
    have hidx : blkSliceNum ≤ h.pool.sliceIdx a.toNat ↔
        configBlkSize ≤ (a - BitVec.ofNat 64 h.pool.poolStart).toNat % 2 ^ 42 := by
      rw [sliceIdx_eq hp]
      exact Nat.le_div_iff_mul_le (by decide)
    rw [← hidx, ← typeOf_eq_none_iff M]
    refine ⟨fun hrej => ?_, rejected_of_typeOf hne hlock⟩
    cases htype : h.pool.typeOf a.toNat with
    | none => rfl
    | some c => exact absurd hrej (not_rejected_of_typeOf hne hlock htype)
  · refine iff_of_false (not_rejected_of_locked hne hlock) ?_
    rintro (h0 | ⟨hfree, _⟩)
    · exact ha h0
    · exact hlock hfree

/-- **A strange address is turned down only when its distance from the pool shows.**  In every
state that a run on a fresh pool reaches, an address outside the slices handed out is turned
down, with only the lock written, exactly when it is null, or the lock is free and the low 42
bits of its distance from the pool's start point behind the pool. -/
theorem xfree_rejects_iff {start : ℕ} {h₀ h₁ h : Heap} {live : List ℕ}
    (hinit : blkPoolInit start configBlkSize h₀ = .ok 0 h₁)
    (hend : start + configBlkSize < 2 ^ 64) (run : BlkRun (h₁, []) (h, live)) (a : BitVec 64) :
    (Strange h.pool a.toNat → Rejected a.toNat h) ↔
      (Strange h.pool a.toNat → a = 0 ∨ (h.pool.blkLock.word = 0 ∧
        configBlkSize ≤ (a - BitVec.ofNat 64 start).toNat % 2 ^ 42)) := by
  have B₁ : Blocks start h₁ [] fun _ => [] :=
    ok_of_wp (blkPoolInit_blocks (E := fun _ _ => True) hend) hinit rfl
  have M₁ : ClassMarks h₁.pool := classMarks_of_init hinit
  obtain ⟨free, B⟩ := run.blocks ⟨_, B₁⟩
  have M := BlkRun.classMarks run ⟨_, B₁⟩ M₁
  have hiff := rejected_iff (by rw [B.start_eq]; omega) M a
  rw [B.start_eq] at hiff
  exact imp_congr_right fun _ => hiff

/-- A fresh pool at 0x1000, whose lock is free. -/
theorem exists_fresh : ∃ h₁, blkPoolInit 0x1000 configBlkSize rawHeap = .ok 0 h₁ ∧
    h₁.pool = freshPool ⟨-1, 0⟩ 0x1000 := ⟨_, rfl, rfl⟩

/-- No address is in a slice that a fresh pool handed out. -/
theorem strange_freshPool (lock : Spinlock) (start a : ℕ) : Strange (freshPool lock start) a :=
  fun _ hi => absurd hi (Nat.not_lt_zero _)

/-- The first address behind a fresh pool is turned down. -/
theorem xfree_rejects_behind : ∃ h₁, blkPoolInit 0x1000 configBlkSize rawHeap = .ok 0 h₁ ∧
    Strange h₁.pool 0x3000 ∧ Rejected 0x3000 h₁ := by
  obtain ⟨h₁, hinit, hpool⟩ := exists_fresh
  have hstrange : Strange h₁.pool (0x3000#64).toNat := by
    rw [hpool]
    exact strange_freshPool _ _ _
  refine ⟨h₁, hinit, hstrange, ?_⟩
  refine (xfree_rejects_iff hinit (by decide) .refl 0x3000#64).mpr (fun _ => Or.inr ?_) hstrange
  rw [hpool]
  decide

/-- The first address of a fresh pool is not: a class gets it as a free block, and counts fewer
than no blocks in use. -/
theorem xfree_takes_fresh : ∃ h₁ h', blkPoolInit 0x1000 configBlkSize rawHeap = .ok 0 h₁ ∧
    Strange h₁.pool 0x1000 ∧ xfree 0x1000 h₁ = .ok 0 h' ∧
    (h'.pool.blkList 0).freeHead = 0x1000 ∧ (h'.pool.blkList 0).nofreeCnt = 2 ^ 32 - 1 ∧
    ¬ Rejected 0x1000 h₁ := by
  obtain ⟨h₁, hinit, hpool⟩ := exists_fresh
  have hlock : h₁.pool.blkLock.word = 0 := by rw [hpool]; rfl
  have htype : h₁.pool.typeOf 0x1000 = some 0 := by rw [hpool]; rfl
  have hne : 0x1000 ≠ 0 := by decide
  obtain ⟨h', hexec, hlist, _⟩ := xfree_takes hne hlock htype
  have hcnt : (h₁.pool.blkList 0).nofreeCnt = 0 := by rw [hpool]; rfl
  refine ⟨h₁, h', hinit, ?_, hexec, ?_, ?_, not_rejected_of_typeOf hne hlock htype⟩
  · rw [hpool]
    exact strange_freshPool _ _ _
  · rw [hlist, BlkList.push]
  · rw [hlist, BlkList.push, hcnt]
    rfl

/-! ## Regions of other sizes

No operation reads the end of the pool, so a pool on a larger region runs like one on a
region of eight slices. -/

/-- The pool with another end. -/
def Heap.withEnd (e : ℕ) (h : Heap) : Heap := { h with pool := { h.pool with poolEnd := e } }

section withEnd
variable {e : ℕ}

/-- The search does not read the end. -/
theorem oblivious_blkAllocFrom : ∀ (left : ℕ) (bl : Option (Fin blkSliceBit)),
    Oblivious (Heap.withEnd e) (blkAllocFrom left bl) := by
  intro left
  induction left with
  | zero => exact fun bl => .pure _
  | succ left ih =>
      intro bl
      refine .of_wp fun h Q E hrun => ?_
      simp only [blkAllocFrom, newSlice, carve, wp_bind, wp_get, wp_ite, wp_set, wp_pure] at hrun ⊢
      refine ⟨hrun.1, fun hhead => ?_⟩
      obtain ⟨hslice, hcut⟩ := hrun.2 hhead
      refine ⟨fun hcur => ?_, hcut⟩
      obtain ⟨hnext, hnew⟩ := hslice hcur
      refine ⟨fun hfull => (ih _).wp_iff.mpr (hnext hfull), fun hroom => ?_⟩
      by_cases hs : h.pool.sliceCnt < blkSliceNum
      · have hs' : (h.withEnd e).pool.sliceCnt < blkSliceNum := hs
        have hnew' := hnew hroom
        simp only [hs, hs', dite_true, wp_set] at hnew' ⊢
        exact hnew'
      · have hs' : ¬ (h.withEnd e).pool.sliceCnt < blkSliceNum := hs
        have hnew' := hnew hroom
        simp only [hs, hs', dite_false, wp_throw] at hnew' ⊢
        exact hnew'

theorem oblivious_blkAlloc (size : ℕ) : Oblivious (Heap.withEnd e) (blkAlloc size) := by
  refine (oblivious_blkAllocFrom _ _).bind ?_
  rintro ⟨_ | c, b⟩
  · exact .pure _
  · refine .ite (.throw _) (.of_wp fun h Q E hrun => ?_)
    simp only [wp_bind, wp_get, wp_set, wp_pure] at hrun ⊢
    exact hrun

theorem oblivious_blkFree (b : ℕ) : Oblivious (Heap.withEnd e) (blkFree b) := by
  refine .of_wp fun h Q E hrun => ?_
  have htype : (h.withEnd e).pool.typeOf b = h.pool.typeOf b := rfl
  simp only [blkFree, wp_bind, wp_get, htype] at hrun ⊢
  generalize h.pool.typeOf b = t at hrun ⊢
  cases t with
  | none => exact hrun
  | some c => exact hrun

/-- Runs of pools that differ in their ends are alike. -/
theorem BlkStep.withEnd {s s' : Heap × List ℕ} (step : BlkStep s s') :
    BlkStep (s.1.withEnd e, s.2) (s'.1.withEnd e, s'.2) := by
  cases step with
  | alloc size hexec => exact .alloc size (by rw [oblivious_blkAlloc, hexec]; rfl)
  | null size hexec => exact .null size (by rw [oblivious_blkAlloc, hexec]; rfl)
  | free hb hexec => exact .free hb (by rw [oblivious_blkFree, hexec]; rfl)
  | write v hb hx => exact .write v hb hx

theorem BlkRun.withEnd {s s' : Heap × List ℕ} (run : BlkRun s s') :
    BlkRun (s.1.withEnd e, s.2) (s'.1.withEnd e, s'.2) := by
  induction run with
  | refl => exact .refl
  | tail _ step ih => exact ih.tail step.withEnd

end withEnd

/-! ## Accepting a region -/

/-- What accepting or refusing a region should mean: a refused one is left as it was, and the
blocks that a pool on an accepted one hands out lie inside it. -/
def PoolKept (start size : ℕ) (h : Heap) : Prop :=
  (∀ r h', blkPoolInit start size h = .ok r h' → r ≠ 0 → h'.mem = h.mem) ∧
  ∀ h₁ h₂ live, blkPoolInit start size h = .ok 0 h₁ → BlkRun (h₁, []) (h₂, live) →
    ∀ (n : BitVec 32) (b : ℕ) (h₃ : Heap), blkAlloc n.toNat h₂ = .ok (some b) h₃ →
      block b (h₃.pool.bytes b) ⊆ block start size

section regions
variable {start size : ℕ} {h h₁ h₂ h₃ : Heap}

/-- **A region of at least eight slices holds the pool's blocks.** -/
theorem inside_of_large (hend : start + size < 2 ^ 64) (hlarge : configBlkSize ≤ size)
    (hinit : blkPoolInit start size h = .ok 0 h₁) {live : List ℕ}
    (run : BlkRun (h₁, []) (h₂, live)) {n : BitVec 32} {b : ℕ}
    (hexec : blkAlloc n.toNat h₂ = .ok (some b) h₃) :
    block b (h₃.pool.bytes b) ⊆ block start size := by
  -- the same run on a region of eight slices
  obtain ⟨e, he⟩ : ∃ e, e = (start + configBlkSize) % 2 ^ 64 := ⟨_, rfl⟩
  have hfresh : wp (blkPoolInit start size)
      (fun r h₁ => r = 0 → Blocks start (h₁.withEnd e) [] fun _ => []) (fun _ _ => True) h := by
    refine wp_blkPoolInit_iff.mpr ⟨fun _ h0 => ?_, fun _ _ h0 => ?_, fun hne hreg _ => ?_⟩
    · exact absurd h0 (by decide)
    · exact absurd h0 (by decide)
    · have hfresh := freshPool_blocks ⟨hne, hreg.1, by omega⟩ (archSpinlockInit h.pool.blkLock)
        h.core (fill h.mem start size 0)
      rw [freshPool, ← he] at hfresh
      exact hfresh
  have B₁ := ok_of_wp hfresh hinit rfl
  obtain ⟨free, B⟩ := BlkRun.blocks (run.withEnd (e := e)) ⟨_, B₁⟩
  have hexec' : blkAlloc n.toNat (h₂.withEnd e) = .ok (some b) (h₃.withEnd e) := by
    rw [oblivious_blkAlloc, hexec]
    rfl
  rcases ok_of_wp (blkAlloc_blocks B n.isLt) hexec' with ⟨hr, _⟩ | ⟨_, hr, _, A⟩
  · cases hr
  cases hr
  obtain ⟨c, hc, _⟩ := A.carved
  obtain ⟨free', B'⟩ := A.blocks
  have hstart := B'.start_eq
  have hbytes : h₃.pool.bytes b = 2 ^ c.val := hc.bytes
  obtain ⟨hlo, hhi⟩ := hc.bounds
  rw [hbytes]
  rintro x ⟨hxlo, hxhi⟩
  simp only [mem_block, configBlkSize] at *
  omega

/-- A pool from which `n` blocks of 512 bytes were taken and nothing else. -/
structure Halves (start n : ℕ) (p : BlkPool) : Prop where
  start_eq : p.poolStart = start
  slice_cnt : p.sliceCnt = (n + 1) / 2
  slice_type : ∀ i : Fin blkSliceNum, i < p.sliceCnt → p.sliceType i = 9
  blk_size : (p.blkList 9).blkSize = 512
  no_free : (p.blkList 9).freeHead = 0
  first : n = 0 → (p.blkList 9).sliceAddr = 0
  later : 0 < n → (p.blkList 9).sliceAddr = start + (n - 1) / 2 * blkSliceSize ∧
    (p.blkList 9).sliceOffset = 512 * ((n - 1) % 2 + 1)

theorem halves_initPool (lock : Spinlock) (start size : ℕ) :
    Halves start 0 (initPool lock start size) where
  start_eq := rfl
  slice_cnt := rfl
  slice_type _ hi := absurd hi (Nat.not_lt_zero _)
  blk_size := rfl
  no_free := rfl
  first _ := rfl
  later hn := absurd hn (lt_irrefl 0)

/-- The current slice is used up after an even number of blocks. -/
theorem Halves.used_iff {n : ℕ} {p : BlkPool} (H : Halves start n p) (h0 : start ≠ 0) :
    ((p.blkList 9).sliceAddr = 0 ∨ (p.blkList 9).sliceOffset = blkSliceSize) ↔ n % 2 = 0 := by
  rcases Nat.eq_zero_or_pos n with rfl | hpos
  · exact iff_of_true (Or.inl (H.first rfl)) rfl
  · obtain ⟨haddr, hoff⟩ := H.later hpos
    rw [haddr, hoff]
    simp only [blkSliceSize]
    omega

/-- The next block follows the ones before. -/
theorem Halves.step {n : ℕ} (H : Halves start n h.pool) (hn : n < 16) (h0 : start ≠ 0)
    (hend : start + n * 512 < 2 ^ 64) :
    wp (blkAlloc 512) (fun r h' => r = some (start + n * 512) ∧ Halves start (n + 1) h'.pool)
      (fun _ _ => False) h := by
  have hstart := H.start_eq
  have hcnt := H.slice_cnt
  have hno := H.no_free
  have hused := H.used_iff h0
  have hleft : blkSliceBit - blkSize2Type (if 512 < 8 then 8 else 512) = 1 := by decide
  have hnine : (⟨9 - 0, Nat.lt_of_le_of_lt (Nat.sub_le _ _) (by decide)⟩ : Fin blkSliceBit) = 9 :=
    rfl
  simp only [blkAlloc, hleft, blkAllocFrom, hnine, newSlice, carve, wp_bind, wp_get, wp_ite, wp_set,
    wp_pure, hno, ne_eq, not_true_eq_false, false_implies, true_and, not_false_eq_true,
    true_implies]
  refine ⟨fun hcur => ⟨fun hfull => ?_, fun _ => ?_⟩, fun hcur => ?_⟩
  · simp only [blkSliceNum] at hfull
    omega
  · have heven := hused.mp hcur
    have hs : h.pool.sliceCnt < blkSliceNum := by
      simp only [blkSliceNum]
      omega
    have haddr : (h.pool.poolStart + h.pool.sliceCnt * blkSliceSize) % 2 ^ 64 =
        start + n * 512 := by
      simp only [blkSliceSize]
      omega
    have hblk : ∀ l : BlkList, ((l.start (start + n * 512)).sliceAddr +
        (l.start (start + n * 512)).sliceOffset) % 2 ^ 64 = start + n * 512 :=
      fun _ => Nat.mod_eq_of_lt hend
    simp only [hs, dite_true, wp_set, Function.update_self, haddr, hblk, setList_setList,
      setList_self]
    refine ⟨fun habs => by omega, fun _ => ⟨trivial, ?_⟩⟩
    refine ⟨hstart, ?_, fun i hi => ?_, ?_, ?_, fun h => by omega, fun _ => ?_⟩
    · simp only [Heap.setList]
      omega
    · by_cases hlast : i = ⟨h.pool.sliceCnt, hs⟩
      · rw [hlast]
        exact Function.update_self _ _ _
      · have hlt : i.val ≠ h.pool.sliceCnt := fun h => hlast (Fin.ext h)
        simp only [Heap.setList] at hi ⊢
        rw [Function.update_of_ne hlast]
        exact H.slice_type i (by omega)
    · rw [setList_self]
      exact H.blk_size
    · rw [setList_self]
      exact hno
    · rw [setList_self]
      simp only [BlkList.use, BlkList.cut, BlkList.start, H.blk_size, blkSliceSize]
      omega
  · have hodd : n % 2 = 1 := by
      have := mt hused.mpr hcur
      omega
    obtain ⟨haddr, hoff⟩ := H.later (by omega)
    have hblk : ((h.pool.blkList 9).sliceAddr + (h.pool.blkList 9).sliceOffset) % 2 ^ 64 =
        start + n * 512 := by
      rw [haddr, hoff]
      simp only [blkSliceSize]
      omega
    simp only [hblk, setList_setList, setList_self]
    refine ⟨fun habs => by omega, fun _ => ⟨trivial, ?_⟩⟩
    refine ⟨hstart, by simp only [Heap.setList]; omega, H.slice_type, ?_, ?_, fun h => by omega,
      fun _ => ?_⟩
    · rw [setList_self]
      exact H.blk_size
    · rw [setList_self]
      exact hno
    · rw [setList_self]
      simp only [BlkList.use, BlkList.cut, haddr, hoff, H.blk_size, blkSliceSize]
      omega

/-- A run that takes `n` blocks of 512 bytes. -/
theorem exists_halves {n : ℕ} (H : Halves start 0 h.pool) (hn : n ≤ 16) (h0 : start ≠ 0)
    (hend : start + n * 512 < 2 ^ 64) :
    ∃ h' live, BlkRun (h, []) (h', live) ∧ Halves start n h'.pool := by
  induction n with
  | zero => exact ⟨h, [], .refl, H⟩
  | succ n ih =>
      have hlt : start + n * 512 < 2 ^ 64 := by
        rw [Nat.succ_mul] at hend
        exact Nat.lt_of_le_of_lt (Nat.add_le_add_left (Nat.le_add_right _ _) _) hend
      obtain ⟨h', live, run, H'⟩ := ih (Nat.le_of_succ_le hn) hlt
      obtain ⟨r, h'', hexec, rfl, H''⟩ := exists_ok_of_wp (H'.step hn h0 hlt)
      exact ⟨h'', _, run.tail (.alloc 512#32 hexec), H''⟩

/-- The class marks tell how large a block of a half slice is. -/
theorem Halves.bytes {n : ℕ} {p : BlkPool} (H : Halves start (n + 1) p) (hn : n < 16) :
    p.bytes (start + n * 512) = 512 := by
  have hstart := H.start_eq
  have hcnt := H.slice_cnt
  have hidx : p.sliceIdx (start + n * 512) = n / 2 := by
    simp only [BlkPool.sliceIdx, blkSliceSize, hstart]
    omega
  have hlt : n / 2 < blkSliceNum := by
    simp only [blkSliceNum]
    omega
  have hmark : p.sliceType ⟨n / 2, hlt⟩ = 9 := H.slice_type _ (by simp only; omega)
  have htype : p.typeOf (start + n * 512) = some 9 := by
    simp only [BlkPool.typeOf, hidx, hlt, dite_true, hmark]
    rfl
  rw [BlkPool.bytes, htype]
  rfl

/-- **A smaller region does not hold them.** -/
theorem outside_of_small (hend : start + size < 2 ^ 64) (h0 : start ≠ 0)
    (hreg : Regular start size) (hsmall : size < configBlkSize) : ¬ PoolKept start size h := by
  intro K
  have haccept : wp (blkPoolInit start size) (fun r h₁ => r = 0 ∧ Halves start 0 h₁.pool)
      (fun _ _ => False) h :=
    wp_blkPoolInit_iff.mpr ⟨fun h => absurd h h0, fun _ h => absurd hreg h,
      fun _ _ => ⟨rfl, halves_initPool _ start size⟩⟩
  obtain ⟨r, h₁, hinit, rfl, H₁⟩ := exists_ok_of_wp haccept
  obtain ⟨n, hn⟩ : ∃ n, size = n * 512 := by
    have hsize := hreg.2
    simp only [blkSliceSize] at hsize
    exact ⟨size / 512, by omega⟩
  have hn16 : n < 16 := by
    simp only [configBlkSize] at hsmall
    omega
  subst hn
  obtain ⟨h₂, live, run, H₂⟩ := exists_halves H₁ hn16.le h0 hend
  obtain ⟨r, h₃, hexec, rfl, H₃⟩ := exists_ok_of_wp (H₂.step hn16 h0 hend)
  have hin := K.2 h₁ h₂ live hinit run 512#32 _ h₃ hexec
  rw [H₃.bytes hn16] at hin
  have hb : start + n * 512 ∈ block start (n * 512) := hin ⟨le_rfl, by omega⟩
  exact absurd hb.2 (lt_irrefl _)

/-- **When `blk_pool_init` keeps its promise.**  It refuses the null pointer, or it accepts a
region of at least eight slices, or it refuses a region that was clear already. -/
theorem blkPoolInit_kept_iff (hend : start + size < 2 ^ 64) :
    PoolKept start size h ↔ start = 0 ∨ (Regular start size ∧ configBlkSize ≤ size) ∨
      (¬ Regular start size ∧ ∀ x ∈ block start size, h.mem x = 0) := by
  by_cases h0 : start = 0
  · refine iff_of_true ⟨?_, ?_⟩ (Or.inl h0)
    · intro r h' hexec _
      have hrefuse : wp (blkPoolInit start size) (fun _ h' => h'.mem = h.mem) (fun _ _ => True) h :=
        wp_blkPoolInit_iff.mpr ⟨fun _ => rfl, fun h => absurd h0 h, fun h => absurd h0 h⟩
      have hmem := ok_of_wp hrefuse hexec
      exact hmem
    · intro h₁ h₂ live hinit
      have hrefuse : wp (blkPoolInit start size) (fun r _ => r ≠ 0) (fun _ _ => True) h :=
        wp_blkPoolInit_iff.mpr ⟨fun _ => by decide, fun h => absurd h0 h, fun h => absurd h0 h⟩
      exact absurd rfl (ok_of_wp hrefuse hinit)
  by_cases hreg : Regular start size
  · simp only [h0, hreg, true_and, not_true_eq_false, false_and, or_false, false_or]
    constructor
    · intro K
      by_contra hsmall
      exact outside_of_small hend h0 hreg (not_le.mp hsmall) K
    · intro hlarge
      refine ⟨fun r h' hexec hr => ?_, ?_⟩
      · have haccept : wp (blkPoolInit start size) (fun r _ => r = 0) (fun _ _ => True) h :=
          wp_blkPoolInit_iff.mpr ⟨fun h => absurd h h0, fun _ h => absurd hreg h, fun _ _ => rfl⟩
        exact absurd (ok_of_wp haccept hexec) hr
      · intro h₁ h₂ live hinit run n b h₃ hexec
        exact inside_of_large hend hlarge hinit run hexec
  · have hrun : wp (blkPoolInit start size)
        (fun r h' => r = negEinval ∧ h'.mem = fill h.mem start size 0) (fun _ _ => False) h :=
      wp_blkPoolInit_iff.mpr ⟨fun h => absurd h h0, fun _ _ => ⟨rfl, rfl⟩, fun _ h => absurd h hreg⟩
    obtain ⟨r, h', hexec, rfl, hmem⟩ := exists_ok_of_wp hrun
    simp only [h0, hreg, false_and, not_false_eq_true, true_and, false_or]
    constructor
    · intro K x hx
      rw [← K.1 _ _ hexec (by decide), hmem]
      exact fill_of_mem hx
    · intro hclear
      refine ⟨fun r' h'' hexec' _ => ?_, fun h₁ h₂ live hinit => ?_⟩
      · rw [hexec] at hexec'
        cases hexec'
        rw [hmem]
        funext x
        by_cases hx : x ∈ block start size
        · rw [fill_of_mem hx, hclear x hx]
        · exact fill_of_notMem hx
      · rw [hexec] at hinit
        cases hinit

end regions

/-- A region of sixteen slices is kept. -/
theorem blkPoolInit_keeps_large : PoolKept 0x1000 0x4000 rawHeap := by
  have hend : 0x1000 + 0x4000 < 2 ^ 64 := by decide
  have hreg : Regular 0x1000 0x4000 := by unfold Regular; decide
  exact (blkPoolInit_kept_iff hend).mpr (Or.inr (Or.inl ⟨hreg, by decide⟩))

/-- A region of one slice is accepted and left by the third block; a region that is not aligned
is refused and cleared. -/
theorem blkPoolInit_breaks : ¬ PoolKept 0x1000 0x400 rawHeap ∧
    ∃ h', blkPoolInit 0x1001 8 { rawHeap with mem := fun _ => 1 } = .ok negEinval h' ∧
      h'.mem 0x1001 = 0 := by
  have hreg : Regular 0x1000 0x400 := by unfold Regular; decide
  exact ⟨outside_of_small (by decide) (by decide) hreg (by decide), _, rfl, rfl⟩

end Xhyper
