import Xhyper.BlkCalls
import Mathlib.Logic.Relation

/-!
# Safety of the block allocator over every run

The owners of blocks allocate, free blocks they hold and write bytes of blocks they
hold, in any order.  A run is any number of such moves, and keeps the invariant.
`blkAlloc_safe` says what the owners get from that.

## Main definitions

* `BlkStep`, `BlkRun` — what the owners may do.
* `PoolSafe`, `Untouched` — what they rely on.
* `blkAlloc_safe` — every run is safe.
-/

namespace Xhyper

open Memory Prog

/-! ## The start -/

/-- The pool that `blk_pool_init` leaves. -/
def freshPool (lock : Spinlock) (start : ℕ) : BlkPool where
  blkLock := lock
  poolStart := start
  poolEnd := (start + configBlkSize) % 2 ^ 64
  sliceCnt := 0
  sliceType := fun _ => 0
  blkList := fun c => {
    blkSize := blkType2Size c
    freelistCnt := 0
    nofreeCnt := 0
    sliceCnt := 0
    sliceAddr := 0
    sliceOffset := 0
    freeHead := 0 }

/-- A fresh pool has no block in use, whatever is in memory. -/
theorem freshPool_blocks {start : ℕ} (hstart : IsRegion start) (lock : Spinlock) (core : ℕ)
    (m : Mem) : Blocks start ⟨core, m, freshPool lock start⟩ [] fun _ => [] := by
  have hend : (start + configBlkSize) % 2 ^ 64 = start + configBlkSize :=
    Nat.mod_eq_of_lt hstart.bound
  have hnil : ∀ {P : ℕ → Prop}, ∀ b ∈ ([] : List ℕ), P b := fun b hb => absurd hb List.not_mem_nil
  refine ⟨⟨hstart, rfl, hend, fun c => ?_, Nat.zero_le _, ?_, by simp [freshPool],
    fun c => Or.inl rfl, hnil, List.nodup_nil, fun c => rfl, fun c => hnil, fun c => hnil,
    fun c => rfl⟩, fun c => rfl⟩
  · simp [freshPool, blkType2Size, Nat.shiftLeft_eq]
  · exact fun i hi => absurd hi (Nat.not_lt_zero _)

/-- A pool that `blk_pool_init` accepts is empty. -/
theorem blkPoolInit_blocks {start : ℕ} {h : Heap} {E : Fault → Heap → Prop}
    (hend : start + configBlkSize < 2 ^ 64) :
    wp (blkPoolInit start configBlkSize)
      (fun r h' => r = 0 → Blocks start h' [] fun _ => []) E h := by
  simp only [blkPoolInit, wp_bind, wp_ite, wp_modify, wp_pure]
  refine ⟨fun _ h0 => absurd h0 (by decide), fun hne => ⟨fun _ h0 => absurd h0 (by decide),
    fun halign => ⟨fun _ h0 => absurd h0 (by decide), fun _ _ => ?_⟩⟩⟩
  exact freshPool_blocks ⟨hne, by omega, hend⟩ _ _ _

/-- On a region that is aligned, `blk_pool_init` clears it and leaves a fresh pool. -/
theorem wp_blkPoolInit {start : ℕ} (hstart : IsRegion start) {h : Heap} {Q : ℤ → Heap → Prop}
    {E : Fault → Heap → Prop} :
    wp (blkPoolInit start configBlkSize) Q E h ↔
      Q 0 ⟨h.core, fill h.mem start configBlkSize 0,
        freshPool (archSpinlockInit h.pool.blkLock) start⟩ := by
  have halign : ¬ (start % 8 ≠ 0 ∨ configBlkSize % 8 ≠ 0) := by
    have halign := hstart.aligned
    simp only [configBlkSize]
    omega
  have hsize : ¬ configBlkSize % blkSliceSize ≠ 0 := by decide
  simp only [blkPoolInit, if_neg hstart.ne_zero, wp_bind, wp_modify, if_neg halign, if_neg hsize,
    wp_pure]
  rfl

/-! ## Runs -/

/-- One move of the owners of blocks: `live` are the blocks they hold. -/
inductive BlkStep : Heap × List ℕ → Heap × List ℕ → Prop
  | alloc {h h' : Heap} {live : List ℕ} {b : ℕ} (size : BitVec 32) :
      blkAlloc size.toNat h = .ok (some b) h' → BlkStep (h, live) (h', b :: live)
  | null {h h' : Heap} {live : List ℕ} (size : BitVec 32) :
      blkAlloc size.toNat h = .ok none h' → BlkStep (h, live) (h', live)
  | free {h h' : Heap} {live : List ℕ} {b : ℕ} {r : ℤ} :
      b ∈ live → blkFree b h = .ok r h' → BlkStep (h, live) (h', live.erase b)
  | write {h : Heap} {live : List ℕ} {b x : ℕ} (v : Byte) :
      b ∈ live → x ∈ block b (h.pool.bytes b) →
      BlkStep (h, live) ({ h with mem := Function.update h.mem x v }, live)

/-- Any number of moves. -/
abbrev BlkRun : Heap × List ℕ → Heap × List ℕ → Prop := Relation.ReflTransGen BlkStep

section runs
variable {start : ℕ} {h : Heap} {live : List ℕ} {free : Fin blkSliceBit → List ℕ}

/-- Writing into a block in use leaves the free lists alone. -/
theorem Blocks.fill (B : Blocks start h live free) {b : ℕ} {c : Fin blkSliceBit} (hb : b ∈ live)
    (hc : Carved h.pool c b) {m : Mem} (hm : Set.EqOn m h.mem (block b (2 ^ c.val))ᶜ) :
    Blocks start { h with mem := m } live free := by
  refine ⟨B.toLayout.frame fun c' b' hb' y hy => hm fun hin => ?_, B.nofree_cnt⟩
  have hne : b' ≠ b := fun heq => B.free_apart c' b' hb' (heq ▸ hb)
  exact Set.disjoint_left.mp ((B.free_carved c' b' hb').disjoint hc hne) hy hin

theorem Blocks.write (B : Blocks start h live free) {b x : ℕ} (v : Byte) (hb : b ∈ live)
    (hx : x ∈ block b (h.pool.bytes b)) :
    Blocks start { h with mem := Function.update h.mem x v } live free := by
  obtain ⟨c, hc⟩ := B.live_carved b hb
  rw [hc.bytes] at hx
  refine B.fill hb hc fun y hy => Function.update_of_ne ?_ _ _
  rintro rfl
  exact hy hx

/-- A move keeps the invariant. -/
theorem BlkStep.blocks {s s' : Heap × List ℕ} (step : BlkStep s s')
    (B : ∃ free, Blocks start s.1 s.2 free) : ∃ free, Blocks start s'.1 s'.2 free := by
  obtain ⟨free, B⟩ := B
  cases step with
  | alloc size hexec =>
      rcases ok_of_wp (blkAlloc_blocks B size.isLt) hexec with ⟨hr, _⟩ | ⟨b', hr, _, A⟩
      · cases hr
      · cases hr
        exact A.blocks
  | null size hexec =>
      rcases ok_of_wp (blkAlloc_blocks B size.isLt) hexec with ⟨_, hh, _⟩ | ⟨b', hr, _⟩
      · subst hh
        exact ⟨free, B⟩
      · cases hr
  | free hb hexec =>
      have hstep := ok_of_wp (blkFree_blocks (E := fun _ _ => True) B hb) hexec
      exact hstep.2.1
  | write v hb hx => exact ⟨free, B.write v hb hx⟩

/-- A run keeps the invariant. -/
theorem BlkRun.blocks {s s' : Heap × List ℕ} (run : BlkRun s s')
    (B : ∃ free, Blocks start s.1 s.2 free) : ∃ free, Blocks start s'.1 s'.2 free := by
  induction run with
  | refl => exact B
  | tail _ step ih => exact step.blocks ih

/-- What the owners rely on in a state. -/
structure PoolSafe (p : BlkPool) (m : Mem) (live : List ℕ) : Prop where
  aligned : ∀ b ∈ live, b % 8 = 0
  in_pool : ∀ b ∈ live, p.poolStart ≤ b ∧ b + p.bytes b ≤ p.poolEnd
  in_slice : ∀ b ∈ live, ∃ i < blkSliceNum, p.poolStart + i * blkSliceSize ≤ b ∧
    b + p.bytes b ≤ p.poolStart + (i + 1) * blkSliceSize
  disjoint : live.Pairwise fun b b' => Disjoint (block b (p.bytes b)) (block b' (p.bytes b'))
  nofree_cnt : ∀ c, (p.blkList c).nofreeCnt = liveCount p live c
  free_list : ∀ c, ∃ l, Chain (read64 m) (p.blkList c).freeHead l ∧ l.Nodup ∧
    (p.blkList c).freelistCnt = l.length
  slices : ∑ c, (p.blkList c).sliceCnt = p.sliceCnt ∧ p.sliceCnt ≤ blkSliceNum

theorem Blocks.safe (B : Blocks start h live free) : PoolSafe h.pool h.mem live := by
  refine ⟨?_, ?_, ?_, ?_, B.nofree_cnt, ?_, B.slice_sum, B.slice_le⟩
  · intro b hb
    obtain ⟨c, hc⟩ := B.live_carved b hb
    exact B.aligned hc
  · intro b hb
    obtain ⟨c, hc⟩ := B.live_carved b hb
    rw [hc.bytes, B.end_eq, ← B.start_eq]
    exact hc.bounds
  · intro b hb
    obtain ⟨c, hc⟩ := B.live_carved b hb
    obtain ⟨i, _, hlo, hhi⟩ := hc.inside
    refine ⟨i, i.isLt, hlo, ?_⟩
    rw [hc.bytes, Nat.succ_mul, ← Nat.add_assoc]
    exact hhi
  · refine B.live_nodup.imp_of_mem fun {b b'} hb hb' hne => ?_
    obtain ⟨c, hc⟩ := B.live_carved b hb
    obtain ⟨c', hc'⟩ := B.live_carved b' hb'
    rw [hc.bytes, hc'.bytes]
    exact hc.disjoint hc' hne
  · exact fun c => ⟨free c, B.chain c, (B.chain c).nodup, B.free_cnt c⟩

/-- A call leaves the blocks `live` as large as they were, with the bytes they had. -/
def Untouched (h h' : Heap) (live : List ℕ) : Prop :=
  ∀ b ∈ live, h'.pool.bytes b = h.pool.bytes b ∧
    Set.EqOn h'.mem h.mem (block b (h.pool.bytes b))

theorem bytes_keep {h' : Heap} {b : ℕ} {c : Fin blkSliceBit} (hb : Carved h.pool c b)
    (hkeep : ∀ c' b', Carved h.pool c' b' → Carved h'.pool c' b') :
    h'.pool.bytes b = h.pool.bytes b := by
  rw [(hkeep c b hb).bytes, hb.bytes]

end runs

/-- **The block allocator is safe over every run.**  In every state that a run on a
fresh pool reaches, the blocks in use are aligned, inside the pool and inside one
slice, share no byte, and the counters, the free lists and the slices agree with
them.  A further allocation hands out a block large enough for the request beside
the ones in use, and neither it nor freeing a block changes a byte of the others. -/
theorem blkAlloc_safe {start : ℕ} {h₀ h₁ h : Heap} {live : List ℕ}
    (hinit : blkPoolInit start configBlkSize h₀ = .ok 0 h₁)
    (hend : start + configBlkSize < 2 ^ 64) (run : BlkRun (h₁, []) (h, live)) :
    PoolSafe h.pool h.mem live ∧
    (∀ (size : BitVec 32) (b : ℕ) (h' : Heap), blkAlloc size.toNat h = .ok (some b) h' →
      max size.toNat 8 ≤ h'.pool.bytes b ∧ PoolSafe h'.pool h'.mem (b :: live) ∧
      Untouched h h' live) ∧
    (∀ (size : BitVec 32) (h' : Heap), blkAlloc size.toNat h = .ok none h' → h' = h) ∧
    (∀ (size : BitVec 32) (e : Fault) (h' : Heap), blkAlloc size.toNat h = .error e h' →
      e = blkOom ∧ h' = h) ∧
    (∀ b ∈ live, ∃ h', blkFree b h = .ok 0 h' ∧ PoolSafe h'.pool h'.mem (live.erase b) ∧
      Untouched h h' (live.erase b)) := by
  have B₁ : Blocks start h₁ [] fun _ => [] :=
    ok_of_wp (blkPoolInit_blocks (E := fun _ _ => True) hend) hinit rfl
  obtain ⟨free, B⟩ := run.blocks ⟨_, B₁⟩
  refine ⟨B.safe, ?_, ?_, ?_, ?_⟩
  · intro size b h' hexec
    rcases ok_of_wp (blkAlloc_blocks B size.isLt) hexec with ⟨hr, _⟩ | ⟨b', hr, _, A⟩
    · cases hr
    · cases hr
      obtain ⟨c, hc, hsize, h8⟩ := A.carved
      obtain ⟨free', B'⟩ := A.blocks
      refine ⟨?_, B'.safe, fun b' hb' => ?_⟩
      · rw [hc.bytes]
        exact max_le hsize h8
      · obtain ⟨c', hc'⟩ := B.live_carved b' hb'
        refine ⟨bytes_keep hc' A.keep, fun x _ => ?_⟩
        rw [A.mem_eq]
  · intro size h' hexec
    rcases ok_of_wp (blkAlloc_blocks B size.isLt) hexec with ⟨_, hh, _⟩ | ⟨b', hr, _⟩
    · exact hh
    · cases hr
  · intro size e h' hexec
    obtain ⟨he, hh, _⟩ := error_of_wp (blkAlloc_blocks B size.isLt) hexec
    exact ⟨he, hh⟩
  · intro b hb
    obtain ⟨r, h', hexec, hr, ⟨free', B'⟩, hkeep, hmem⟩ := exists_ok_of_wp (blkFree_blocks B hb)
    subst hr
    refine ⟨h', hexec, B'.safe, fun b' hb' => ?_⟩
    obtain ⟨hne, hb'⟩ := B.live_nodup.mem_erase_iff.mp hb'
    obtain ⟨c, hc⟩ := B.live_carved b hb
    obtain ⟨c', hc'⟩ := B.live_carved b' hb'
    refine ⟨bytes_keep hc' hkeep, fun x hx => hmem ?_⟩
    rw [hc'.bytes] at hx
    rw [hc.bytes]
    exact Set.disjoint_left.mp (hc'.disjoint hc hne) hx

/-- A pool before `blk_pool_init`, in zeroed memory. -/
def rawHeap : Heap where
  core := 0
  mem := fun _ => 0
  pool := {
    blkLock := .leftBy 0
    poolStart := 0
    poolEnd := 0
    sliceCnt := 0
    sliceType := fun _ => 0
    blkList := fun _ => ⟨0, 0, 0, 0, 0, 0, 0⟩ }

/-- A block of 300 bytes taken from a fresh pool and written to. -/
theorem blkAlloc_safe_write : ∃ h₁ h b, blkPoolInit 0x1000 configBlkSize rawHeap = .ok 0 h₁ ∧
    BlkRun (h₁, []) (h, [b]) ∧ h.mem (b + 7) = 42 ∧ PoolSafe h.pool h.mem [b] := by
  obtain ⟨h₁, hinit, hcnt⟩ : ∃ h₁, blkPoolInit 0x1000 configBlkSize rawHeap = .ok 0 h₁ ∧
      h₁.pool.sliceCnt = 0 := ⟨_, rfl, rfl⟩
  have hend : 0x1000 + configBlkSize < 2 ^ 64 := by decide
  have B : Blocks 0x1000 h₁ [] fun _ => [] :=
    ok_of_wp (blkPoolInit_blocks (E := fun _ _ => True) hend) hinit rfl
  have hroom : h₁.pool.HasRoom 300 :=
    ⟨9, by decide, Or.inr (Or.inl (by rw [hcnt]; decide))⟩
  obtain ⟨r, h₂, hexec, hr⟩ := returns_of_wp (blkAlloc_blocks B (show 300 < 2 ^ 32 by decide))
    fun _ _ h => h.2.2 hroom
  rcases hr with ⟨_, _, hbig⟩ | ⟨b, hr, _, A⟩
  · exact absurd hbig (by decide)
  subst hr
  obtain ⟨c, hc, _, h8⟩ := A.carved
  have run : BlkRun (h₁, []) ({ h₂ with mem := Function.update h₂.mem (b + 7) 42 }, [b]) := by
    refine .tail (.single (.alloc 300#32 hexec)) (.write 42 List.mem_cons_self ?_)
    rw [hc.bytes]
    simp only [mem_block]
    omega
  exact ⟨h₁, _, b, hinit, run, Function.update_self _ _ _, (blkAlloc_safe hinit hend run).1⟩

end Xhyper
