import Xhyper.BlkRuns

/-!
# Which block an allocation hands out

`blk_alloc` tries the classes from the request's own upwards.  A class serves from
its free list, else from the rest of its current slice, else from the next slice of
the pool; `Hands` says which, and what becomes of the class.  The first class that
can serve does, so the search fails only when none can.

The class of a request is computed with `clz32`.  `blkSize2Type_le_iff` says that it
is the smallest one whose blocks are large enough.

## Main definitions

* `Heap.HasFree`, `Heap.HasCut`, `Heap.CanServe` — what a class has left.
* `Hands` — a class hands out a block.
* `blkAlloc_exhausted` — an allocation fails only when the pool is exhausted.
-/

namespace Xhyper

open Memory Prog

/-! ## The class of a request -/

/-- **A class is at least the one computed when its blocks are large enough.** -/
theorem blkSize2Type_le_iff {n : ℕ} (h2 : 2 ≤ n) (h32 : n ≤ 2 ^ 32) (c : ℕ) :
    blkSize2Type n ≤ c ↔ n ≤ 2 ^ c := by
  have hne : n - 1 ≠ 0 := by omega
  have hlog : Nat.log2 (n - 1) < 32 := by
    rw [Nat.log2_lt hne]
    omega
  have htype : blkSize2Type n = Nat.log2 (n - 1) + 1 := by
    simp only [blkSize2Type, clz32]
    omega
  have hlt : Nat.log2 (n - 1) < c ↔ n - 1 < 2 ^ c := Nat.log2_lt hne
  rw [htype, Nat.succ_le_iff, hlt]
  omega

/-- The size that `blk_alloc` looks for. -/
theorem size_eq_max (size : ℕ) : (if size < 8 then 8 else size) = max size 8 := by
  by_cases h8 : size < 8
  · rw [if_pos h8, max_eq_right (by omega)]
  · rw [if_neg h8, max_eq_left (by omega)]

/-- The least class that holds `size` bytes is the one `blk_alloc` starts with. -/
theorem blkSize2Type_eq {size c : ℕ} (h32 : size < 2 ^ 32)
    (hc : IsLeast {c | max size 8 ≤ 2 ^ c} c) :
    blkSize2Type (if size < 8 then 8 else size) = c := by
  have hiff := blkSize2Type_le_iff (n := max size 8) (by omega) (by omega)
  rw [size_eq_max]
  apply le_antisymm
  · exact (hiff c).mpr hc.1
  · exact hc.2 ((hiff _).mp le_rfl)

/-! ## What a class has left -/

namespace Heap

/-- Class `c` has a free block. -/
def HasFree (h : Heap) (c : Fin blkSliceBit) : Prop :=
  ∃ b rest, Chain (read64 h.mem) (h.pool.blkList c).freeHead (b :: rest)

/-- The current slice of class `c` has room for a block. -/
def HasCut (h : Heap) (c : Fin blkSliceBit) : Prop :=
  (h.pool.blkList c).sliceAddr ≠ 0 ∧
    (h.pool.blkList c).sliceOffset + (h.pool.blkList c).blkSize ≤ blkSliceSize

/-- Class `c` has a free block, room in its current slice, or a slice to start. -/
def CanServe (h : Heap) (c : Fin blkSliceBit) : Prop :=
  h.HasFree c ∨ h.HasCut c ∨ h.pool.sliceCnt < blkSliceNum

end Heap

/-- Class `c` hands out the block `b`. -/
inductive Hands (h : Heap) (c : Fin blkSliceBit) : ℕ → Heap → Prop
  /-- The head of the free list. -/
  | free {b : ℕ} {rest : List ℕ} :
      Chain (read64 h.mem) (h.pool.blkList c).freeHead (b :: rest) →
      Hands h c b (h.setList c ((h.pool.blkList c).pop (read64 h.mem b)).use)
  /-- The next block of the current slice. -/
  | cut {b : ℕ} : ¬ h.HasFree c → h.HasCut c →
      b = (h.pool.blkList c).sliceAddr + (h.pool.blkList c).sliceOffset →
      Hands h c b (h.setList c (h.pool.blkList c).cut.use)
  /-- The first block of the pool's next slice. -/
  | slice {b : ℕ} (hs : h.pool.sliceCnt < blkSliceNum) : ¬ h.HasFree c → ¬ h.HasCut c →
      b = h.pool.poolStart + h.pool.sliceCnt * blkSliceSize →
      Hands h c b { h with
        pool := { h.pool with
          sliceCnt := h.pool.sliceCnt + 1
          sliceType := Function.update h.pool.sliceType ⟨h.pool.sliceCnt, hs⟩ c
          blkList := Function.update h.pool.blkList c
            ((h.pool.blkList c).start b).cut.use } }

section layout
variable {start : ℕ} {h : Heap} {live : List ℕ} {free : Fin blkSliceBit → List ℕ}
  {c : Fin blkSliceBit}

theorem Layout.hasFree_iff (L : Layout start h live free) :
    h.HasFree c ↔ (h.pool.blkList c).freeHead ≠ 0 := by
  constructor
  · rintro ⟨b, rest, heq, hne, _⟩
    rw [heq]
    exact hne
  · intro hne
    obtain ⟨rest, _, hrest⟩ := (L.chain c).pop hne
    exact ⟨_, rest, rfl, hne, hrest⟩

/-- A slice is a whole number of blocks, so what is left of it holds one. -/
theorem Layout.hasCut_iff (L : Layout start h live free) :
    h.HasCut c ↔ (h.pool.blkList c).sliceAddr ≠ 0 ∧
      (h.pool.blkList c).sliceOffset ≠ blkSliceSize := by
  have hpos : 0 < 2 ^ c.val := Nat.two_pow_pos _
  rw [Heap.HasCut, L.blk_size]
  constructor
  · rintro ⟨hne, hle⟩
    exact ⟨hne, by omega⟩
  · rintro ⟨hne, hoff⟩
    refine ⟨hne, ?_⟩
    rcases L.current c with h0 | ⟨i, _, _, _, hle, q, hq⟩
    · exact absurd h0 hne
    obtain ⟨r, hr⟩ : 2 ^ c.val ∣ 2 ^ 10 := pow_dvd_pow 2 (Nat.le_of_lt c.isLt)
    have hqr : q < r := by
      apply Nat.lt_of_mul_lt_mul_left (a := 2 ^ c.val)
      simp only [blkSliceSize] at hoff
      omega
    have hmul := Nat.mul_le_mul_left (2 ^ c.val) (Nat.succ_le_of_lt hqr)
    rw [Nat.mul_succ] at hmul
    simp only [blkSliceSize]
    omega

theorem Layout.canServe_iff (L : Layout start h live free) :
    h.CanServe c ↔ h.pool.Serves c := by
  have hle := L.slice_le
  rw [Heap.CanServe, BlkPool.Serves, L.hasFree_iff, L.hasCut_iff]
  have hlt : h.pool.sliceCnt < blkSliceNum ↔ h.pool.sliceCnt ≠ blkSliceNum := by omega
  rw [hlt]
  tauto

/-- The next block of the current slice does not run over the end of memory. -/
theorem Layout.cut_addr (L : Layout start h live free) (hcut : h.HasCut c) :
    ((h.pool.blkList c).sliceAddr + (h.pool.blkList c).sliceOffset) % 2 ^ 64 =
      (h.pool.blkList c).sliceAddr + (h.pool.blkList c).sliceOffset := by
  have hbound := L.region.bound
  have hstart := L.start_eq
  rcases L.current c with h0 | ⟨i, _, _, haddr, hle, _⟩
  · exact absurd h0 hcut.1
  have hi := i.isLt
  apply Nat.mod_eq_of_lt
  simp only [blkSliceNum, configBlkSize] at *
  omega

/-- Nor does the next slice. -/
theorem Layout.slice_addr (L : Layout start h live free) (hs : h.pool.sliceCnt < blkSliceNum) :
    (h.pool.poolStart + h.pool.sliceCnt * blkSliceSize) % 2 ^ 64 =
      h.pool.poolStart + h.pool.sliceCnt * blkSliceSize := by
  have hbound := L.region.bound
  have hstart := L.start_eq
  apply Nat.mod_eq_of_lt
  simp only [blkSliceNum, blkSliceSize, configBlkSize] at *
  omega

/-! ## The search -/

theorem tried_lt (left : ℕ) : 9 - left < blkSliceBit := by
  rw [blkSliceBit]
  omega

/-- The class that the search tries with `left` classes to go. -/
def tried (left : ℕ) : Fin blkSliceBit := ⟨9 - left, tried_lt left⟩

/-- The search goes on when a class cannot serve. -/
theorem blkAllocFrom_skip {left : ℕ} (bl : Option (Fin blkSliceBit))
    (hno : ¬ h.pool.Serves (tried left)) :
    blkAllocFrom (left + 1) bl h = blkAllocFrom left (some (tried left)) h := by
  rw [BlkPool.Serves] at hno
  push Not at hno
  obtain ⟨hhead, hfull, hcur⟩ := hno
  refine eq_of_wp fun Q E hrest => ?_
  simp only [blkAllocFrom, wp_bind, wp_get, wp_ite]
  change ((h.pool.blkList (tried left)).freeHead ≠ 0 → _) ∧
    (¬ (h.pool.blkList (tried left)).freeHead ≠ 0 → _)
  refine ⟨fun hne => absurd hhead hne, fun _ => ⟨fun _ => ⟨fun _ => hrest, ?_⟩, ?_⟩⟩
  · exact fun hne => absurd hfull hne
  · intro hroom
    by_cases h0 : (h.pool.blkList (tried left)).sliceAddr = 0
    · exact absurd (Or.inl h0) hroom
    · exact absurd (Or.inr (hcur h0)) hroom

/-- Replacing a class twice is replacing it once. -/
theorem setList_setList (h : Heap) (c : Fin blkSliceBit) (l l' : BlkList) :
    (h.setList c l).setList c l' = h.setList c l' := by
  simp [Heap.setList]

/-- **A class that can serve does**, and counting the block makes it handed out. -/
theorem blkAllocFrom_hands (L : Layout start h live free) {left : ℕ}
    (bl : Option (Fin blkSliceBit)) (hserve : h.CanServe (tried left)) :
    wp (blkAllocFrom (left + 1) bl) (fun r h₁ => r.1 = some (tried left) ∧ r.2 ≠ 0 ∧
      Hands h (tried left) r.2
        (h₁.setList (tried left) (h₁.pool.blkList (tried left)).use))
      (fun _ _ => False) h := by
  have hstart := L.pool_ne_zero
  simp only [blkAllocFrom, carve, wp_bind, wp_get, wp_ite, wp_set, wp_pure]
  rw [← tried]
  generalize tried left = c at *
  have hcut := L.hasCut_iff (c := c)
  refine ⟨fun hne => ⟨rfl, hne, ?_⟩, fun hhead => ?_⟩
  · obtain ⟨rest, _, hrest⟩ := (L.chain c).pop hne
    rw [setList_setList, setList_self]
    exact .free ⟨rfl, hne, hrest⟩
  have hfree : ¬ h.HasFree c := fun hf => hhead (L.hasFree_iff.mp hf)
  refine ⟨fun hcur => ?_, fun hcur => ?_⟩
  · -- the slice is used up, so a class that can serve takes the next one
    have hno : ¬ h.HasCut c := by
      rw [hcut]
      rintro ⟨hne, hoff⟩
      exact hcur.elim hne hoff
    have hs : h.pool.sliceCnt < blkSliceNum := (hserve.resolve_left hfree).resolve_left hno
    refine ⟨fun hfull => absurd hfull (by omega), fun _ => ?_⟩
    have hfirst : ∀ a, ((h.pool.blkList c).start a).sliceAddr +
        ((h.pool.blkList c).start a).sliceOffset = a := fun _ => rfl
    simp only [newSlice, wp_bind, wp_get, hs, dite_true, wp_set, L.slice_addr hs,
      Function.update_self, hfirst]
    refine ⟨trivial, by omega, ?_⟩
    simpa only [Heap.setList, Function.update_self, Function.update_idem] using
      Hands.slice hs hfree hno rfl
  · have hroom : h.HasCut c := by
      rw [hcut]
      tauto
    have hne := hroom.1
    rw [L.cut_addr hroom, setList_setList, setList_self]
    exact ⟨rfl, by omega, .cut hfree hroom rfl⟩

/-- The search gets to the first class that can serve. -/
theorem blkAllocFrom_reach {c : Fin blkSliceBit} : ∀ (left : ℕ) (bl : Option (Fin blkSliceBit)),
    left ≤ 10 → 10 - left ≤ c.val →
      (∀ d : Fin blkSliceBit, 10 - left ≤ d.val → d < c → ¬ h.pool.Serves d) →
    ∃ bl', blkAllocFrom left bl h = blkAllocFrom (9 - c.val + 1) bl' h := by
  have hc := c.isLt
  intro left
  induction left with
  | zero =>
      intro bl _ hle _
      simp only [blkSliceBit] at hc
      omega
  | succ left ih =>
      intro bl hleft hle hno
      have hval : (tried left).val = 9 - left := rfl
      by_cases heq : tried left = c
      · have hleft : left = 9 - c.val := by
          rw [← heq, hval]
          simp only [blkSliceBit] at hc
          omega
        exact ⟨bl, by rw [hleft]⟩
      · have hne : (tried left).val ≠ c.val := fun h => heq (Fin.ext h)
        have hskip := hno (tried left) (by omega) (by rw [Fin.lt_def]; omega)
        rw [blkAllocFrom_skip bl hskip]
        exact ih _ (by omega) (by omega) fun d hd hlt => hno d (by omega) hlt

/-- **The first class that can serve hands out a block.** -/
theorem blkAlloc_hands (L : Layout start h live free) {size : ℕ} {c : Fin blkSliceBit}
    (hfits : blkSize2Type (if size < 8 then 8 else size) ≤ c.val) (hserve : h.CanServe c)
    (hfirst : ∀ d : Fin blkSliceBit, blkSize2Type (if size < 8 then 8 else size) ≤ d.val →
      d < c → ¬ h.CanServe d) :
    ∃ b h', blkAlloc size h = .ok (some b) h' ∧ Hands h c b h' := by
  have hc := c.isLt
  obtain ⟨bl, hreach⟩ := blkAllocFrom_reach (c := c) (h := h)
    (blkSliceBit - blkSize2Type (if size < 8 then 8 else size)) none
    (by simp only [blkSliceBit]; omega) (by simp only [blkSliceBit] at *; omega)
    (fun d hd hlt hs => hfirst d (by simp only [blkSliceBit] at *; omega) hlt
      (L.canServe_iff.mpr hs))
  have htried : tried (9 - c.val) = c := by
    apply Fin.ext
    change 9 - (9 - c.val) = c.val
    simp only [blkSliceBit] at hc
    omega
  have hserve : h.CanServe (tried (9 - c.val)) := by rwa [htried]
  have hhands := blkAllocFrom_hands L bl hserve
  rw [htried, wp_congr hreach.symm] at hhands
  obtain ⟨r, h₁, hrun, hr, hne, hH⟩ := exists_ok_of_wp hhands
  have hr' : r = (some c, r.2) := Prod.ext hr rfl
  refine ⟨r.2, _, ?_, hH⟩
  rw [blkAlloc, bind_of_ok hrun, hr']
  simp only [if_neg hne]
  rfl

/-- What a successful allocation did. -/
theorem hands_of_blkAlloc (B : Blocks start h live free) {size b : ℕ} {h' : Heap}
    (h32 : size < 2 ^ 32) (hexec : blkAlloc size h = .ok (some b) h') :
    ∃ c, FirstFit h.pool size c ∧ Hands h c b h' := by
  rcases ok_of_wp (blkAlloc_blocks B h32) hexec with ⟨hr, _⟩ | ⟨_, _, ⟨d, hd, hserve⟩, _⟩
  · cases hr
  -- the classes that can serve have a least one
  obtain ⟨c, ⟨hfits, hc⟩, hmin⟩ := wellFounded_lt.has_min
    {c : Fin blkSliceBit | blkSize2Type (if size < 8 then 8 else size) ≤ c.val ∧ h.pool.Serves c}
    ⟨d, hd, hserve⟩
  obtain ⟨b', h'', hrun, hands⟩ := blkAlloc_hands B.toLayout hfits (B.canServe_iff.mpr hc)
    fun d hd hlt hs => hmin d ⟨hd, B.canServe_iff.mp hs⟩ hlt
  rw [hrun] at hexec
  cases hexec
  exact ⟨c, ⟨hfits, hc, fun d hd hlt hs => hmin d ⟨hd, hs⟩ hlt⟩, hands⟩

end layout

/-- **An allocation fails only when the pool is exhausted.**  In every state that a run on a
fresh pool reaches, let `c` be the smallest class whose blocks hold the request.  There is no
such class below the tenth and nothing happens, or the smallest class from `c` on that has a
free block, room in its slice or a slice to start hands out a block, or there is none and the
allocation stops. -/
theorem blkAlloc_exhausted {start : ℕ} {h₀ h₁ h : Heap} {live : List ℕ}
    (hinit : blkPoolInit start configBlkSize h₀ = .ok 0 h₁)
    (hend : start + configBlkSize < 2 ^ 64) (run : BlkRun (h₁, []) (h, live))
    (size : BitVec 32) {c : ℕ} (hc : IsLeast {c | max size.toNat 8 ≤ 2 ^ c} c) :
    (9 < c → blkAlloc size.toNat h = .ok none h) ∧
    (∀ c' : Fin blkSliceBit, IsLeast {d : Fin blkSliceBit | c ≤ d.val ∧ h.CanServe d} c' →
      ∃ b h', blkAlloc size.toNat h = .ok (some b) h' ∧ Hands h c' b h') ∧
    (c ≤ 9 → (blkAlloc size.toNat h = .error blkOom h ↔
      h.pool.sliceCnt = blkSliceNum ∧
        ∀ d : Fin blkSliceBit, c ≤ d.val → ¬ h.HasFree d ∧ ¬ h.HasCut d)) := by
  have B₁ : Blocks start h₁ [] fun _ => [] :=
    ok_of_wp (blkPoolInit_blocks (E := fun _ _ => True) hend) hinit rfl
  obtain ⟨free, B⟩ := run.blocks ⟨_, B₁⟩
  have hclass := blkSize2Type_eq size.isLt hc
  have hcall := blkAlloc_blocks B size.isLt
  rw [hclass] at hcall
  have hroom : h.pool.HasRoom size.toNat ↔ ∃ d : Fin blkSliceBit, c ≤ d.val ∧ h.CanServe d := by
    rw [BlkPool.HasRoom, hclass]
    exact exists_congr fun d => and_congr_right fun _ => B.canServe_iff.symm
  refine ⟨fun hbig => ?_, fun c' hc' => ?_, fun hle => ⟨fun hexec => ?_, fun hno => ?_⟩⟩
  · have hleft : blkSliceBit - c = 0 := by
      simp only [blkSliceBit]
      omega
    rw [blkAlloc, hclass, hleft]
    rfl
  · refine blkAlloc_hands B.toLayout ?_ hc'.1.2 fun d hd hlt hs => ?_
    · rw [hclass]
      exact hc'.1.1
    · rw [hclass] at hd
      exact absurd (hc'.2 ⟨hd, hs⟩) (not_le.mpr hlt)
  · obtain ⟨_, _, hnone⟩ := error_of_wp hcall hexec
    have hno : ∀ d : Fin blkSliceBit, c ≤ d.val → ¬ h.CanServe d :=
      fun d hd hs => hnone (hroom.mpr ⟨d, hd, hs⟩)
    refine ⟨?_, fun d hd => ⟨fun hf => hno d hd (Or.inl hf), fun hcut =>
      hno d hd (Or.inr (Or.inl hcut))⟩⟩
    by_contra hne
    exact hno 9 hle (Or.inr (Or.inr (lt_of_le_of_ne B.slice_le hne)))
  · obtain ⟨hfull, hno⟩ := hno
    have hnone : ¬ h.pool.HasRoom size.toNat := by
      rw [hroom]
      rintro ⟨d, hd, hfree | hcut | hs⟩
      · exact (hno d hd).1 hfree
      · exact (hno d hd).2 hcut
      · exact absurd hfull (Nat.ne_of_lt hs)
    cases hexec : blkAlloc size.toNat h with
    | error e h' =>
        obtain ⟨he, hh, _⟩ := error_of_wp hcall hexec
        rw [he, hh]
    | ok r h' =>
        rcases ok_of_wp hcall hexec with ⟨_, _, hbig⟩ | ⟨b, _, hroom', _⟩
        · omega
        · exact absurd hroom' hnone

/-- A first request of 300 bytes is of class 9 and gets the first slice. -/
theorem blkAlloc_exhausted_first : ∃ h₁ b h', blkPoolInit 0x1000 configBlkSize rawHeap = .ok 0 h₁ ∧
    blkAlloc 300 h₁ = .ok (some b) h' ∧ Hands h₁ 9 b h' := by
  obtain ⟨h₁, hinit, hcnt⟩ : ∃ h₁, blkPoolInit 0x1000 configBlkSize rawHeap = .ok 0 h₁ ∧
      h₁.pool.sliceCnt = 0 := ⟨_, rfl, rfl⟩
  have hleast : IsLeast {c | max (300#32).toNat 8 ≤ 2 ^ c} 9 := by
    refine ⟨by decide, fun c hc => ?_⟩
    by_contra hlt
    have hpow : 2 ^ c ≤ 2 ^ 8 := Nat.pow_le_pow_right (by norm_num) (by omega)
    have hmax : 300 ≤ 2 ^ c := hc
    omega
  have hserve : IsLeast {d : Fin blkSliceBit | 9 ≤ d.val ∧ h₁.CanServe d} 9 := by
    refine ⟨⟨le_rfl, Or.inr (Or.inr (by rw [hcnt]; decide))⟩, fun d hd => ?_⟩
    exact Fin.le_def.mpr hd.1
  obtain ⟨b, h', hexec, hhands⟩ :=
    (blkAlloc_exhausted hinit (by decide) .refl 300#32 hleast).2.1 9 hserve
  exact ⟨h₁, b, h', hinit, hexec, hhands⟩

end Xhyper
