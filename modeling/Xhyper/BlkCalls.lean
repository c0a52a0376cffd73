import Xhyper.BlkInvariant
import Mathlib.Data.Nat.Log

/-!
# One call of the block allocator

`blkAlloc` goes through the classes from the request's own upwards, and takes a
block from the first that can serve: off its free list, off its current slice, or
off a new slice.  Each way is a `Served` step, after which counting the block makes
an `Allocated` one.  `blkFree` is one change of one class.

## Main definitions

* `Served`, `Allocated` — what a search and an allocation do.
* `BlkPool.HasRoom` — when an allocation succeeds.
* `blkAlloc_blocks`, `blkFree_blocks` — one call.
-/

namespace Xhyper

open Memory Prog

/-! ## The steps of `blk_alloc` -/

/-- The block `b` of class `c` was taken out of the pool, and only the counters of
blocks in use lag behind. -/
structure Served (start : ℕ) (h h' : Heap) (live : List ℕ) (c : Fin blkSliceBit) (b : ℕ) :
    Prop where
  layout : ∃ free', Layout start h' (b :: live) free'
  carved : Carved h'.pool c b
  keep : ∀ c' b', Carved h.pool c' b' → Carved h'.pool c' b'
  nofree : ∀ c', (h'.pool.blkList c').nofreeCnt = (h.pool.blkList c').nofreeCnt
  mem_eq : h'.mem = h.mem
  core_eq : h'.core = h.core
  lock_eq : h'.pool.blkLock = h.pool.blkLock

section alloc
variable {start : ℕ} {h : Heap} {live : List ℕ} {free : Fin blkSliceBit → List ℕ}
  {c : Fin blkSliceBit} {E : Fault → Heap → Prop}

/-- Taking the head of a free list. -/
theorem served_pop (L : Layout start h live free) (hne : (h.pool.blkList c).freeHead ≠ 0) :
    Served start h (h.setList c
      ((h.pool.blkList c).pop (read64 h.mem (h.pool.blkList c).freeHead)))
      live c (h.pool.blkList c).freeHead := by
  obtain ⟨rest, hrest, hchain⟩ := (L.chain c).pop hne
  have hhead : (h.pool.blkList c).freeHead ∈ free c := by rw [hrest]; exact List.mem_cons_self
  have hsub : ∀ b ∈ rest, b ∈ free c := fun b hb => hrest ▸ List.mem_cons_of_mem _ hb
  have hnd := (L.chain c).nodup
  have hcnt := L.free_cnt c
  rw [hrest] at hnd hcnt
  have K : KeepsSlice (h.pool.blkList c)
      ((h.pool.blkList c).pop (read64 h.mem (h.pool.blkList c).freeHead)) c :=
    .of_eq L rfl rfl rfl rfl
  have hcarved := (L.free_carved c _ hhead).setList K
  refine ⟨⟨Function.update free c rest, ?_⟩, hcarved, fun c' b' hb => hb.setList K,
    setList_field BlkList.nofreeCnt rfl, rfl, rfl, rfl⟩
  refine L.setList (m := h.mem) K ?_ ?_ hchain (fun c' _ => L.chain c')
    (fun b hb => L.free_carved c b (hsub b hb)) ?_ ?_ ?_
  · intro b hb
    rcases List.mem_cons.mp hb with rfl | hb
    · exact Or.inr hcarved
    · exact Or.inl hb
  · exact List.nodup_cons.mpr ⟨L.free_apart c _ hhead, L.live_nodup⟩
  · intro b hb hlive
    rcases List.mem_cons.mp hlive with rfl | hlive
    · exact (List.nodup_cons.mp hnd).1 hb
    · exact L.free_apart c b (hsub b hb) hlive
  · intro c' hc b hb hlive
    rcases List.mem_cons.mp hlive with rfl | hlive
    · exact hc ((L.free_carved c' _ hb).unique (L.free_carved c _ hhead))
    · exact L.free_apart c' b hb hlive
  · simp only [BlkList.pop, pred32, hcnt, List.length_cons, Nat.succ_ne_zero, if_false,
      Nat.add_sub_cancel]

/-- The next block to cut has not been cut. -/
theorem not_carved_of_offset {i : Fin blkSliceNum} {b : ℕ}
    (haddr : (h.pool.blkList c).sliceAddr = h.pool.poolStart + i * 1024)
    (hb : b = h.pool.poolStart + i * 1024 + (h.pool.blkList c).sliceOffset)
    (hroom : (h.pool.blkList c).sliceOffset < 1024) : ¬ Carved h.pool c b := by
  intro hcarved
  obtain ⟨j, _, _, k, hbk, hk, hcut⟩ := hcarved
  have hpos : 0 < 2 ^ c.val := Nat.two_pow_pos _
  rw [Nat.succ_mul] at hk hcut
  have hij : i.val = j.val := by omega
  have := hcut (by rw [haddr, hij])
  omega

/-- Cutting the next block. -/
theorem served_cut (L : Layout start h live free) (hcur : (h.pool.blkList c).sliceAddr ≠ 0)
    (hroom : (h.pool.blkList c).sliceOffset ≠ 1024) :
    Served start h (h.setList c (h.pool.blkList c).cut) live c
      (((h.pool.blkList c).sliceAddr + (h.pool.blkList c).sliceOffset) % 2 ^ 64) := by
  rcases L.current c with h0 | ⟨i, hi, ht, haddr, hle, q, hq⟩
  · exact absurd h0 hcur
  have hbound := L.region.bound
  have hstart := L.start_eq
  have hi8 := i.isLt
  have hlt : (h.pool.blkList c).sliceOffset < 1024 := lt_of_le_of_ne hle hroom
  have hq' : (h.pool.blkList c).sliceOffset = q * 2 ^ c.val := by rw [hq, Nat.mul_comm]
  -- the slice is a whole number of blocks, so one more fits
  have hmax : q * 2 ^ c.val + 2 ^ c.val ≤ 1024 := by
    obtain ⟨r, hr⟩ : 2 ^ c.val ∣ 2 ^ 10 := pow_dvd_pow 2 (Nat.le_of_lt c.isLt)
    have hqr : q < r := by
      apply Nat.lt_of_mul_lt_mul_left (a := 2 ^ c.val)
      omega
    have := mul_add_le (a := 2 ^ c.val) hqr
    rw [Nat.mul_comm r] at this
    omega
  have hcut : (h.pool.blkList c).cut.sliceOffset = (q + 1) * 2 ^ c.val := by
    rw [BlkList.cut, L.blk_size c, hq', Nat.succ_mul]
    exact Nat.mod_eq_of_lt (by omega)
  have hblk : ((h.pool.blkList c).sliceAddr + (h.pool.blkList c).sliceOffset) % 2 ^ 64
      = h.pool.poolStart + i * 1024 + (h.pool.blkList c).sliceOffset := by
    simp only [blkSliceNum, configBlkSize] at *
    omega
  have K : KeepsSlice (h.pool.blkList c) (h.pool.blkList c).cut c := by
    refine ⟨rfl, rfl, rfl, ?_, fun _ => ?_⟩
    · rw [hcut, hq', Nat.succ_mul]
      exact Nat.le_add_right _ _
    · rw [hcut, Nat.succ_mul]
      exact ⟨hmax, Dvd.intro_left (q + 1) (Nat.succ_mul q _)⟩
  have hcarved : Carved (h.setList c (h.pool.blkList c).cut).pool c
      (h.pool.poolStart + i * 1024 + (h.pool.blkList c).sliceOffset) := by
    refine ⟨i, hi, ht, q, by rw [hq']; rfl, by rw [Nat.succ_mul]; exact hmax, fun _ => ?_⟩
    rw [setList_self, hcut]
  have hnot := not_carved_of_offset haddr rfl hlt
  have hnot' : ∀ c', ¬ Carved h.pool c' (h.pool.poolStart + i * 1024 +
      (h.pool.blkList c).sliceOffset) := by
    intro c' hc'
    have hcc := (hc'.setList K).unique hcarved
    exact hnot (hcc ▸ hc')
  rw [hblk]
  refine ⟨⟨Function.update free c (free c), ?_⟩, hcarved, fun c' b' hb => hb.setList K,
    setList_field BlkList.nofreeCnt rfl, rfl, rfl, rfl⟩
  refine L.setList (m := h.mem) K ?_ ?_ (L.chain c) (fun c' _ => L.chain c')
    (L.free_carved c) ?_ ?_ (L.free_cnt c)
  · intro b hb
    rcases List.mem_cons.mp hb with rfl | hb
    · exact Or.inr hcarved
    · exact Or.inl hb
  · refine List.nodup_cons.mpr ⟨fun hmem => ?_, L.live_nodup⟩
    obtain ⟨c', hc'⟩ := L.live_carved _ hmem
    exact hnot' c' hc'
  · intro b hb hlive
    rcases List.mem_cons.mp hlive with rfl | hlive
    · exact hnot' c (L.free_carved c _ hb)
    · exact L.free_apart c b hb hlive
  · intro c' _ b hb hlive
    rcases List.mem_cons.mp hlive with rfl | hlive
    · exact hnot' c' (L.free_carved c' _ hb)
    · exact L.free_apart c' b hb hlive

/-- Taking the next slice leaves every block where it is. -/
theorem newSlice_spec (L : Layout start h live free) (hc3 : 3 ≤ c.val)
    (hs : h.pool.sliceCnt < blkSliceNum) :
    wp (newSlice c) (fun _ h' => Layout start h' live free ∧
      (h'.pool.blkList c).sliceAddr ≠ 0 ∧ (h'.pool.blkList c).sliceOffset ≠ 1024 ∧
      (∀ c' b', Carved h.pool c' b' → Carved h'.pool c' b') ∧
      (∀ c', (h'.pool.blkList c').nofreeCnt = (h.pool.blkList c').nofreeCnt) ∧
      h'.mem = h.mem ∧ h'.core = h.core ∧ h'.pool.blkLock = h.pool.blkLock) E h := by
  have hbound := L.region.bound
  have hstart := L.start_eq
  have hne := L.region.ne_zero
  have haddr : (h.pool.poolStart + h.pool.sliceCnt * blkSliceSize) % 2 ^ 64
      = h.pool.poolStart + h.pool.sliceCnt * 1024 := by
    simp only [blkSliceNum, blkSliceSize, configBlkSize] at *
    omega
  simp only [newSlice, wp_bind, wp_get, hs, dite_true, wp_set, haddr, Function.update_self]
  -- the new slice has the next index, so the types of the older ones stand
  have htype : ∀ i : Fin blkSliceNum, i < h.pool.sliceCnt →
      Function.update h.pool.sliceType ⟨h.pool.sliceCnt, hs⟩ c.val i = h.pool.sliceType i := by
    intro i hi
    apply Function.update_of_ne
    intro heq
    rw [heq] at hi
    exact Nat.lt_irrefl _ hi
  have hkeep : ∀ c' b', Carved h.pool c' b' → Carved { h.pool with
      sliceCnt := h.pool.sliceCnt + 1
      sliceType := Function.update h.pool.sliceType ⟨h.pool.sliceCnt, hs⟩ c
      blkList := Function.update h.pool.blkList c
        ((h.pool.blkList c).start (h.pool.poolStart + h.pool.sliceCnt * 1024)) } c' b' := by
    rintro c' b' ⟨i, hi, ht, k, hb, hk, hcut⟩
    refine ⟨i, Nat.lt_succ_of_lt hi, (htype i hi).trans ht, k, hb, hk, ?_⟩
    by_cases hc : c' = c
    · subst hc
      intro heq
      simp only [Function.update_self, BlkList.start] at heq
      omega
    · simpa only [Function.update_of_ne hc] using hcut
  have hfield : ∀ {β : Type} (f : BlkList → β), f ((h.pool.blkList c).start
      (h.pool.poolStart + h.pool.sliceCnt * 1024)) = f (h.pool.blkList c) →
      ∀ c', f (Function.update h.pool.blkList c ((h.pool.blkList c).start
        (h.pool.poolStart + h.pool.sliceCnt * 1024)) c') = f (h.pool.blkList c') :=
    fun f hf c' => setList_field f hf c'
  refine ⟨⟨L.region, L.start_eq, L.end_eq, ?_, hs, ?_, ?_, ?_, ?_, L.live_nodup, ?_, ?_,
    L.free_apart, ?_⟩, ?_, by simp [BlkList.start], hkeep, hfield BlkList.nofreeCnt rfl,
    trivial, trivial, trivial⟩
  · exact fun c' => (hfield BlkList.blkSize rfl c').trans (L.blk_size c')
  · intro i hi
    by_cases hic : i.val = h.pool.sliceCnt
    · have hi' : i = ⟨h.pool.sliceCnt, hs⟩ := Fin.ext hic
      simpa [hi'] using hc3
    · have hlt : i.val < h.pool.sliceCnt := by
        simp only at hi
        omega
      simp only [htype i hlt]
      exact L.slice_type i hlt
  · have hone : ∀ c', (Function.update h.pool.blkList c ((h.pool.blkList c).start
        (h.pool.poolStart + h.pool.sliceCnt * 1024)) c').sliceCnt
        = (h.pool.blkList c').sliceCnt + if c' = c then 1 else 0 := by
      intro c'
      by_cases hc : c' = c
      · simp [hc, BlkList.start]
      · simp [hc]
    simp only [hone, Finset.sum_add_distrib, Finset.sum_ite_eq', Finset.mem_univ, if_true,
      L.slice_sum]
  · intro c'
    by_cases hc : c' = c
    · subst hc
      refine Or.inr ⟨⟨h.pool.sliceCnt, hs⟩, Nat.lt_succ_self _, by simp, ?_⟩
      simp [BlkList.start]
    · have hcur := L.current c'
      rw [CurrentSlice] at hcur ⊢
      simp only [Function.update_of_ne hc]
      refine hcur.imp_right ?_
      rintro ⟨i, hi, ht, hrest⟩
      exact ⟨i, Nat.lt_succ_of_lt hi, (htype i hi).trans ht, hrest⟩
  · intro b hb
    obtain ⟨c', hc'⟩ := L.live_carved b hb
    exact ⟨c', hkeep c' b hc'⟩
  · exact fun c' => (hfield BlkList.freeHead rfl c').symm ▸ L.chain c'
  · exact fun c' b hb => hkeep c' b (L.free_carved c' b hb)
  · exact fun c' => (hfield BlkList.freelistCnt rfl c').trans (L.free_cnt c')
  · simp only [BlkList.start]
    omega

/-- Class `c` can serve a request. -/
def BlkPool.Serves (p : BlkPool) (c : Fin blkSliceBit) : Prop :=
  (p.blkList c).freeHead ≠ 0 ∨ p.sliceCnt ≠ blkSliceNum ∨
    ((p.blkList c).sliceAddr ≠ 0 ∧ (p.blkList c).sliceOffset ≠ blkSliceSize)

/-- **The search.**  It takes a block from a class that can serve, or finds none and
leaves the pool as it is. -/
theorem blkAllocFrom_spec : ∀ (left : ℕ) (bl : Option (Fin blkSliceBit)), left ≤ 7 →
    Layout start h live free →
    wp (blkAllocFrom left bl) (fun r h' =>
      (r = (if left = 0 then bl else some 9, 0) ∧ h' = h ∧
        ∀ c : Fin blkSliceBit, 10 - left ≤ c.val → ¬ h.pool.Serves c) ∨
      ∃ c b, r = (some c, b) ∧ 10 - left ≤ c.val ∧ h.pool.Serves c ∧
        Served start h h' live c b) E h := by
  intro left
  induction left with
  | zero =>
      intro bl _ _
      refine Or.inl ⟨rfl, rfl, fun c hc => ?_⟩
      exact absurd c.isLt (by simp only [blkSliceBit]; omega)
  | succ left ih =>
      intro bl hleft L
      have hval : (⟨9 - left, Nat.lt_of_le_of_lt (Nat.sub_le _ _) (by decide)⟩ :
          Fin blkSliceBit).val = 9 - left := rfl
      simp only [blkAllocFrom, wp_bind, wp_get, wp_ite, wp_set, wp_pure]
      generalize (⟨9 - left, Nat.lt_of_le_of_lt (Nat.sub_le _ _) (by decide)⟩ :
        Fin blkSliceBit) = c at *
      refine ⟨fun hhead => ?_, fun hhead => ⟨fun hcur => ⟨fun hfull => ?_, fun hroom => ?_⟩,
        fun hcur => ?_⟩⟩
      · exact Or.inr ⟨c, _, rfl, by omega, Or.inl hhead, served_pop L hhead⟩
      · -- nothing in this class and no slice left
        refine wp_mono (ih (some c) (by omega) L) ?_ (fun _ _ h => h)
        intro r h' hr
        rcases hr with ⟨hr, hh, hno⟩ | ⟨c', b, hr, hc', hserve, hS⟩
        · refine Or.inl ⟨?_, hh, fun c' hc' => ?_⟩
          · rw [hr, if_neg (Nat.succ_ne_zero left)]
            by_cases h0 : left = 0
            · have hc9 : c = 9 := Fin.ext (by rw [hval, h0]; rfl)
              rw [if_pos h0, hc9]
            · rw [if_neg h0]
          · by_cases heq : c' = c
            · subst heq
              intro hserve
              rcases hserve with hserve | hserve | ⟨h1, h2⟩
              · exact hhead hserve
              · exact hserve hfull
              · exact hcur.elim h1 h2
            · have hne : c'.val ≠ c.val := fun h => heq (Fin.ext h)
              exact hno c' (by omega)
        · exact Or.inr ⟨c', b, hr, by omega, hserve, hS⟩
      · have hs : h.pool.sliceCnt < blkSliceNum := lt_of_le_of_ne L.slice_le hroom
        refine wp_mono (newSlice_spec L (by omega) hs) ?_ (fun _ _ h => h)
        rintro _ h₁ ⟨L₁, haddr, hoff, hkeep, hnofree, hmem, hcore, hlock⟩
        simp only [carve, wp_bind, wp_get, wp_set, wp_pure]
        have hS := served_cut L₁ haddr hoff
        exact Or.inr ⟨c, _, rfl, by omega, Or.inr (Or.inl hroom), hS.layout, hS.carved,
          fun c' b' hb => hS.keep c' b' (hkeep c' b' hb),
          fun c' => (hS.nofree c').trans (hnofree c'), hS.mem_eq.trans hmem,
          hS.core_eq.trans hcore, hS.lock_eq.trans hlock⟩
      · simp only [carve, wp_bind, wp_get, wp_set, wp_pure]
        have haddr : (h.pool.blkList c).sliceAddr ≠ 0 := fun h0 => hcur (Or.inl h0)
        have hoff : (h.pool.blkList c).sliceOffset ≠ 1024 := fun h0 => hcur (Or.inr h0)
        exact Or.inr ⟨c, _, rfl, by omega, Or.inr (Or.inr ⟨haddr, hoff⟩), served_cut L haddr hoff⟩

/-- A request's class holds it. -/
theorem le_of_blkSize2Type (size : ℕ) (h8 : 8 ≤ size) (h32 : size < 2 ^ 32) :
    3 ≤ blkSize2Type size ∧ size ≤ 2 ^ blkSize2Type size := by
  have hne : size - 1 ≠ 0 := by omega
  have hlog : Nat.log2 (size - 1) < 32 := by
    rw [Nat.log2_lt hne]
    omega
  have htype : blkSize2Type size = Nat.log2 (size - 1) + 1 := by
    simp only [blkSize2Type, clz32]
    omega
  have hlt : size - 1 < 2 ^ (Nat.log2 (size - 1) + 1) := Nat.lt_log2_self
  have hge : 2 ≤ Nat.log2 (size - 1) := by
    rw [Nat.le_log2 hne]
    omega
  rw [htype]
  exact ⟨by omega, by omega⟩

/-- The message of an exhausted pool. -/
abbrev blkOom : Fault := .abort "xmalloc failed to get available blk"

/-- Some class that holds `size` bytes can serve. -/
def BlkPool.HasRoom (p : BlkPool) (size : ℕ) : Prop :=
  ∃ c : Fin blkSliceBit, blkSize2Type (if size < 8 then 8 else size) ≤ c.val ∧ p.Serves c

/-- What an allocation does, less what becomes of the lock. -/
structure Given (start : ℕ) (h h' : Heap) (live : List ℕ) (size b : ℕ) : Prop where
  blocks : ∃ free', Blocks start h' (b :: live) free'
  carved : ∃ c, Carved h'.pool c b ∧ size ≤ 2 ^ c.val ∧ 8 ≤ 2 ^ c.val
  keep : ∀ c' b', Carved h.pool c' b' → Carved h'.pool c' b'
  mem_eq : h'.mem = h.mem
  core_eq : h'.core = h.core

/-- What an allocation does. -/
structure Allocated (start : ℕ) (h h' : Heap) (live : List ℕ) (size b : ℕ) : Prop
    extends Given start h h' live size b where
  lock_eq : h'.pool.blkLock = h.pool.blkLock

/-- Counting one more block in use ends an allocation. -/
theorem Served.use {h' : Heap} {size b : ℕ} (S : Served start h h' live c b)
    (hcnt : ∀ c, (h.pool.blkList c).nofreeCnt = liveCount h.pool live c)
    (hlive : ∀ b ∈ live, ∃ c, Carved h.pool c b) (hsize : size ≤ 2 ^ c.val) :
    Allocated start h (h'.setList c (h'.pool.blkList c).use) live size b := by
  obtain ⟨free', L⟩ := S.layout
  have K : KeepsSlice (h'.pool.blkList c) (h'.pool.blkList c).use c := .of_eq L rfl rfl rfl rfl
  have hcarved := S.carved.setList K
  have hlayout : Layout start (h'.setList c (h'.pool.blkList c).use) (b :: live)
      (Function.update free' c (free' c)) :=
    L.setList (m := h'.mem) K (fun _ hb => Or.inl hb) L.live_nodup (L.chain c)
      (fun c' _ => L.chain c') (L.free_carved c) (L.free_apart c) (fun c' _ => L.free_apart c')
      (L.free_cnt c)
  have hkeep : ∀ c' b', Carved h.pool c' b' →
      Carved (h'.setList c (h'.pool.blkList c).use).pool c' b' :=
    fun c' b' hb => (S.keep c' b' hb).setList K
  refine ⟨⟨⟨_, hlayout, fun c' => ?_⟩, ⟨c, hcarved, hsize, L.eight_le S.carved⟩, hkeep, S.mem_eq,
    S.core_eq⟩, S.lock_eq⟩
  have hsame : liveCount (h'.setList c (h'.pool.blkList c).use).pool live c'
      = liveCount h.pool live c' := by
    apply List.countP_congr
    intro b' hb'
    obtain ⟨c'', hc''⟩ := hlive b' hb'
    simp only [(hkeep c'' b' hc'').typeOf, hc''.typeOf]
  have hcons : liveCount (h'.setList c (h'.pool.blkList c).use).pool (b :: live) c'
      = liveCount h.pool live c' + if c = c' then 1 else 0 := by
    rw [liveCount, List.countP_cons, ← hsame]
    simp only [hcarved.typeOf, Option.some_inj, decide_eq_true_eq]
    rfl
  rw [hcons]
  have hbound := length_le_of_carved L.live_nodup L.live_carved
  have hle : liveCount h.pool live c ≤ live.length := List.countP_le_length
  simp only [List.length_cons, configBlkSize] at hbound
  by_cases hc : c = c'
  · subst hc
    rw [setList_self, BlkList.use, if_pos rfl, S.nofree, hcnt, succ32]
    exact Nat.mod_eq_of_lt (by omega)
  · rw [setList_of_ne h' _ (Ne.symm hc), if_neg hc, S.nofree, hcnt, Nat.add_zero]

/-- **One allocation.**  It returns null for sizes no class holds, stops when no
class that holds the size can serve, and otherwise hands out a block. -/
theorem blkAlloc_blocks (B : Blocks start h live free) {size : ℕ} (h32 : size < 2 ^ 32) :
    wp (blkAlloc size) (fun r h' =>
        (r = none ∧ h' = h ∧ 10 ≤ blkSize2Type (if size < 8 then 8 else size)) ∨
        ∃ b, r = some b ∧ h.pool.HasRoom size ∧ Allocated start h h' live size b)
      (fun e h' => e = blkOom ∧ h' = h ∧ ¬ h.pool.HasRoom size) h := by
  have hcnt := B.nofree_cnt
  have hlive := B.live_carved
  have hmax : size ≤ (if size < 8 then 8 else size) := by
    by_cases h8 : size < 8
    · rw [if_pos h8]
      omega
    · rw [if_neg h8]
  obtain ⟨h3, hle⟩ := le_of_blkSize2Type (if size < 8 then 8 else size)
    (by by_cases h8 : size < 8 <;> simp only [h8, if_true, if_false] <;> omega)
    (by by_cases h8 : size < 8 <;> simp only [h8, if_true, if_false] <;> omega)
  simp only [blkAlloc, BlkPool.HasRoom, wp_bind]
  generalize blkSize2Type (if size < 8 then 8 else size) = t at *
  refine wp_mono (blkAllocFrom_spec (blkSliceBit - t) none (by simp only [blkSliceBit]; omega)
    B.toLayout) ?_ (fun _ _ h => h)
  intro r h' hr
  rcases hr with ⟨hr, hh, hno⟩ | ⟨c, b, hr, hc, hserve, S⟩
  · subst hr
    subst hh
    by_cases ht : blkSliceBit - t = 0
    · rw [if_pos ht]
      exact Or.inl ⟨rfl, rfl, by simp only [blkSliceBit] at ht; omega⟩
    · rw [if_neg ht]
      simp only [if_true, wp_abort, true_and]
      rintro ⟨c, hc, hserve⟩
      exact hno c (by simp only [blkSliceBit] at *; omega) hserve
  · subst hr
    obtain ⟨free', L'⟩ := S.layout
    have htc : t ≤ c.val := by
      have := c.isLt
      simp only [blkSliceBit] at *
      omega
    have hsize : size ≤ 2 ^ c.val :=
      le_trans (le_trans hmax hle) (Nat.pow_le_pow_right (by norm_num) htc)
    simp only [L'.ne_zero S.carved, if_false, wp_bind, wp_get, wp_set, wp_pure]
    exact Or.inr ⟨b, rfl, ⟨c, htc, hserve⟩, S.use hcnt hlive hsize⟩

/-- The search tries the smallest class first. -/
theorem blkAllocFrom_first : ∀ (left : ℕ) (bl : Option (Fin blkSliceBit)) (h : Heap),
    wp (blkAllocFrom left bl) (fun r _ => ∀ c, r.1 = some c →
      ∀ c' : Fin blkSliceBit, 10 - left ≤ c'.val → c'.val < c.val → ¬ h.pool.Serves c')
      (fun _ _ => True) h := by
  intro left
  induction left with
  | zero =>
      intro bl h c _ c' hc'
      exact absurd c'.isLt (by simp only [blkSliceBit]; omega)
  | succ left ih =>
      intro bl h
      have hval : (⟨9 - left, Nat.lt_of_le_of_lt (Nat.sub_le _ _) (by decide)⟩ :
          Fin blkSliceBit).val = 9 - left := rfl
      simp only [blkAllocFrom, wp_bind, wp_get, wp_ite, wp_set, wp_pure]
      generalize (⟨9 - left, Nat.lt_of_le_of_lt (Nat.sub_le _ _) (by decide)⟩ :
        Fin blkSliceBit) = c at *
      -- the class that is tried has none below it
      have hself : ∀ d, some c = some d → ∀ c' : Fin blkSliceBit,
          10 - (left + 1) ≤ c'.val → c'.val < d.val → ¬ h.pool.Serves c' := by
        intro d hd c' hlo hhi
        obtain rfl : c = d := Option.some.inj hd
        omega
      refine ⟨fun _ => hself, fun hhead => ⟨fun hcur => ⟨fun hfull => ?_, fun _ => ?_⟩,
        fun _ => ?_⟩⟩
      · refine wp_mono (ih (some c) h) ?_ fun _ _ h => h
        intro r _ hr d hd c' hlo hhi
        by_cases heq : c' = c
        · rintro (hserve | hserve | ⟨h1, h2⟩)
          · exact hserve (heq ▸ not_not.mp hhead)
          · exact hserve hfull
          · exact hcur.elim (heq ▸ h1) (heq ▸ h2)
        · have hne : c'.val ≠ c.val := fun h => heq (Fin.ext h)
          exact hr d hd c' (by omega) hhi
      · simp only [newSlice, carve, wp_bind, wp_get]
        by_cases hs : h.pool.sliceCnt < blkSliceNum
        · simp only [hs, dite_true, wp_set, wp_pure]
          exact hself
        · simp only [hs, dite_false, wp_throw]
      · simp only [carve, wp_bind, wp_get, wp_set, wp_pure]
        exact hself

/-- A block of the smallest class that can serve. -/
structure FirstFit (p : BlkPool) (size : ℕ) (c : Fin blkSliceBit) : Prop where
  fits : blkSize2Type (if size < 8 then 8 else size) ≤ c.val
  serves : p.Serves c
  first : ∀ c' : Fin blkSliceBit, blkSize2Type (if size < 8 then 8 else size) ≤ c'.val →
    c' < c → ¬ p.Serves c'

/-- **An allocation is a first fit.** -/
theorem blkAlloc_first (B : Blocks start h live free) {size : ℕ} (h32 : size < 2 ^ 32) :
    wp (blkAlloc size) (fun r h' => ∀ b, r = some b →
      ∃ c, FirstFit h.pool size c ∧ Carved h'.pool c b) (fun _ _ => True) h := by
  obtain ⟨h3, _⟩ := le_of_blkSize2Type (if size < 8 then 8 else size)
    (by by_cases h8 : size < 8 <;> simp only [h8, if_true, if_false] <;> omega)
    (by by_cases h8 : size < 8 <;> simp only [h8, if_true, if_false] <;> omega)
  have hfind := wp_and (E := fun _ _ => True)
    (blkAllocFrom_spec (blkSliceBit - blkSize2Type (if size < 8 then 8 else size)) none
      (by simp only [blkSliceBit]; omega) B.toLayout)
    (blkAllocFrom_first (blkSliceBit - blkSize2Type (if size < 8 then 8 else size)) none h)
  simp only [blkAlloc, wp_bind]
  refine wp_mono hfind ?_ fun _ _ h => h
  rintro r h' ⟨hr, hfirst⟩
  rcases hr with ⟨rfl, _, _⟩ | ⟨c, b, rfl, hc, hserve, S⟩
  · by_cases ht : blkSliceBit - blkSize2Type (if size < 8 then 8 else size) = 0
    · rw [if_pos ht]
      intro b hb
      cases hb
    · rw [if_neg ht]
      simp only [if_true, wp_abort]
  · obtain ⟨free', L'⟩ := S.layout
    have K : KeepsSlice (h'.pool.blkList c) (h'.pool.blkList c).use c := .of_eq L' rfl rfl rfl rfl
    simp only [L'.ne_zero S.carved, if_false, wp_bind, wp_get, wp_set, wp_pure]
    intro b' hb'
    obtain rfl : b = b' := Option.some.inj hb'
    refine ⟨c, ⟨?_, hserve, fun c' hc' hlt => hfirst c rfl c' ?_ hlt⟩, S.carved.setList K⟩
    · have hlt := c.isLt
      simp only [blkSliceBit] at *
      omega
    · simp only [blkSliceBit]
      omega

/-- The invariant does not speak of the lock. -/
theorem Blocks.withLock (B : Blocks start h live free) (l : Spinlock) :
    Blocks start (Heap.blkLock.set l h) live free :=
  ⟨⟨B.region, B.start_eq, B.end_eq, B.blk_size, B.slice_le, B.slice_type, B.slice_sum, B.current,
    B.live_carved, B.live_nodup, B.chain, B.free_carved, B.free_apart, B.free_cnt⟩, B.nofree_cnt⟩

/-- **`xmalloc`** is an allocation under the lock, which has to be free. -/
theorem xmalloc_spec (B : Blocks start h live free) {size : ℕ} (h32 : size < 2 ^ 32) :
    wp (xmalloc size) (fun r h' => h'.pool.blkLock.word = 0 ∧
        ((r = none ∧ Blocks start h' live free ∧ h'.mem = h.mem ∧ h'.core = h.core ∧
          10 ≤ blkSize2Type (if size < 8 then 8 else size)) ∨
        ∃ b, r = some b ∧ h.pool.HasRoom size ∧ Given start h h' live size b))
      (fun e _ => h.pool.blkLock.word = 0 → e = blkOom ∧ ¬ h.pool.HasRoom size) h := by
  simp only [xmalloc, wp_bind, wp_get]
  refine wp_spinLock_of (fun _ => ?_) (fun hl _ h0 => absurd h0 hl)
  refine wp_mono (blkAlloc_blocks (B.withLock _) h32) ?_ ?_
  · intro r h₁ hr
    simp only [wp_pure]
    rcases hr with ⟨hr, hh, hbig⟩ | ⟨b, hr, hroom, A⟩
    · subst hh
      rw [wp_spinUnlock (by simp)]
      exact ⟨rfl, Or.inl ⟨hr, (B.withLock _).withLock _, rfl, rfl, hbig⟩⟩
    · have hlock := A.lock_eq
      have hcore := A.core_eq
      simp only [Heap.set_blkLock] at hlock hcore
      rw [wp_spinUnlock (by rw [Heap.get_blkLock, hlock, hcore])]
      obtain ⟨free', B'⟩ := A.blocks
      exact ⟨rfl, Or.inr ⟨b, hr, hroom, ⟨_, B'.withLock _⟩, A.carved, A.keep, A.mem_eq, hcore⟩⟩
  · rintro e h' ⟨he, _, hroom⟩ _
    exact ⟨he, hroom⟩

/-- Under the lock too. -/
theorem xmalloc_first (B : Blocks start h live free) {size : ℕ} (h32 : size < 2 ^ 32) :
    wp (xmalloc size) (fun r h' => ∀ b, r = some b →
      ∃ c, FirstFit h.pool size c ∧ Carved h'.pool c b) (fun _ _ => True) h := by
  simp only [xmalloc, wp_bind, wp_get]
  refine wp_spinLock_of (fun _ => ?_) fun _ _ => trivial
  refine wp_mono (blkAlloc_first (B.withLock _) h32) ?_ fun _ _ _ => trivial
  intro r h₁ hr
  simp only [wp_pure]
  refine spinUnlock_ends fun l b hb => ?_
  obtain ⟨c, F, hc⟩ := hr b hb
  exact ⟨c, ⟨F.fits, F.serves, F.first⟩, hc⟩

/-! ## Freeing -/

/-- **Freeing a block in use** returns it to the list of its class and writes its
first word only. -/
theorem blkFree_blocks (B : Blocks start h live free) {b : ℕ} (hb : b ∈ live) :
    wp (blkFree b) (fun r h' => r = 0 ∧ (∃ free', Blocks start h' (live.erase b) free') ∧
      (∀ c' b', Carved h.pool c' b' → Carved h'.pool c' b') ∧
      Set.EqOn h'.mem h.mem (block b (h.pool.bytes b))ᶜ) E h := by
  obtain ⟨c, hc⟩ := B.live_carved b hb
  have h8 := B.eight_le hc
  have hbound := length_le_of_carved B.live_nodup B.live_carved
  have hfbound := B.free_length_le c
  have hpos : 0 < liveCount h.pool live c := by
    rw [liveCount, List.countP_pos_iff]
    exact ⟨b, hb, by simp [hc.typeOf]⟩
  have hmem : ∀ x, x ∉ block b (2 ^ c.val) →
      write64 h.mem b (h.pool.blkList c).freeHead x = h.mem x := by
    intro x hx
    apply writeLe_of_notMem
    simp only [mem_block] at hx ⊢
    omega
  have hlink : read64 (write64 h.mem b (h.pool.blkList c).freeHead) b
      = (h.pool.blkList c).freeHead := by
    apply read64_write64
    cases hf : free c with
    | nil =>
        have h0 := B.chain c
        rw [hf] at h0
        have : (h.pool.blkList c).freeHead = 0 := h0
        omega
    | cons q l =>
        have hq := B.chain c
        rw [hf] at hq
        have heq : (h.pool.blkList c).freeHead = q := hq.1
        have hqb := (B.free_carved c q (hf ▸ List.mem_cons_self)).bounds.2
        have hreg := B.region.bound
        rw [B.start_eq] at hqb
        omega
  -- the other free blocks keep their links
  have hother : ∀ c' b', Carved h.pool c' b' → b' ≠ b →
      read64 (write64 h.mem b (h.pool.blkList c).freeHead) b' = read64 h.mem b' := by
    intro c' b' hc' hne
    refine readLe_congr fun x hx => hmem x fun hxb => ?_
    have h8' := B.eight_le hc'
    refine Set.disjoint_left.mp (hc'.disjoint hc hne) ?_ hxb
    exact block_subset le_rfl (Nat.add_le_add_left h8' b') hx
  have K : KeepsSlice (h.pool.blkList c) ((h.pool.blkList c).push b) c :=
    .of_eq B.toLayout rfl rfl rfl rfl
  have hnotfree : ∀ c', ∀ b' ∈ free c', b' ≠ b := fun c' b' hb' heq =>
    B.free_apart c' b' hb' (heq ▸ hb)
  simp only [blkFree, wp_bind, wp_get, hc.typeOf, wp_set, wp_pure, hc.bytes, true_and]
  have hL : Layout start { h.setList c ((h.pool.blkList c).push b) with
      mem := write64 h.mem b (h.pool.blkList c).freeHead } (live.erase b)
      (Function.update free c (b :: free c)) := by
    refine B.setList K (fun x hx => Or.inl (List.mem_of_mem_erase hx)) (B.live_nodup.erase b) ?_ ?_
      ?_ ?_ ?_ ?_
    · exact (B.chain c).push (B.ne_zero hc) hlink fun q hq =>
        hother c q (B.free_carved c q hq) (hnotfree c q hq)
    · exact fun c' _ => (B.chain c').congr fun q hq =>
        hother c' q (B.free_carved c' q hq) (hnotfree c' q hq)
    · intro b' hb'
      rcases List.mem_cons.mp hb' with rfl | hb'
      · exact hc
      · exact B.free_carved c b' hb'
    · intro b' hb' hlive
      have hne := (B.live_nodup.mem_erase_iff.mp hlive)
      rcases List.mem_cons.mp hb' with heq | hb'
      · exact hne.1 heq
      · exact B.free_apart c b' hb' hne.2
    · exact fun c' _ b' hb' hlive => B.free_apart c' b' hb' (List.mem_of_mem_erase hlive)
    · simp only [BlkList.push, succ32, List.length_cons, B.free_cnt c]
      exact Nat.mod_eq_of_lt (by simp only [configBlkSize] at hfbound; omega)
  have hkeep : ∀ c' b', Carved h.pool c' b' →
      Carved (h.setList c ((h.pool.blkList c).push b)).pool c' b' := fun c' b' hb' => hb'.setList K
  refine ⟨⟨_, hL, fun c' => ?_⟩, hkeep, fun x hx => hmem x hx⟩
  have hsame : liveCount (h.setList c ((h.pool.blkList c).push b)).pool (live.erase b) c'
      = liveCount h.pool (live.erase b) c' := by
    apply List.countP_congr
    intro b' hb'
    obtain ⟨c'', hc''⟩ := B.live_carved b' (List.mem_of_mem_erase hb')
    simp only [(hkeep c'' b' hc'').typeOf, hc''.typeOf]
  have herase : liveCount h.pool (live.erase b) c'
      = liveCount h.pool live c' - if c = c' then 1 else 0 := by
    rw [liveCount, liveCount, List.countP_erase]
    simp only [hb, true_and, hc.typeOf, Option.some_inj, decide_eq_true_eq]
  change ((h.setList c ((h.pool.blkList c).push b)).pool.blkList c').nofreeCnt
    = liveCount (h.setList c ((h.pool.blkList c).push b)).pool (live.erase b) c'
  rw [hsame, herase]
  by_cases hcc : c = c'
  · subst hcc
    rw [setList_self, BlkList.push, if_pos rfl, pred32, B.nofree_cnt,
      if_neg (Nat.pos_iff_ne_zero.mp hpos)]
  · rw [setList_of_ne h _ (Ne.symm hcc), if_neg hcc, B.nofree_cnt, Nat.sub_zero]

end alloc

end Xhyper
