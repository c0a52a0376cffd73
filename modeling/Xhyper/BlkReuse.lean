import Xhyper.BlkServe

/-!
# Freeing a block and asking for one again

A block that is freed goes in front of the list of its slice's class, which need not be the
class it was asked for.  The next request of the same size goes the way of the first: what
could not serve then cannot serve now, and the class that served has the block in front.

## Main definitions

* `Heap.freed` — what `blk_free` does to a block.
* `Hands.of_head` — a class with a free block hands out the first.
* `blkAlloc_reuses` — a request after a free gets the block back.
-/

namespace Xhyper

open Memory Prog

/-! ## One class -/

theorem pred32_succ32 {n : ℕ} (h : n < 2 ^ 32) : pred32 (succ32 n) = n := by
  simp only [pred32, succ32]
  grind

theorem succ32_pred32 {n : ℕ} (h : n < 2 ^ 32) : succ32 (pred32 n) = n := by
  simp only [pred32, succ32]
  grind

/-- Handing a block out takes back what putting it in front did. -/
theorem use_pop_push {l : BlkList} (hfree : l.freelistCnt < 2 ^ 32)
    (hnofree : l.nofreeCnt < 2 ^ 32) (b : ℕ) : ((l.push b).pop l.freeHead).use = l := by
  simp only [BlkList.push, BlkList.pop, BlkList.use, pred32_succ32 hfree, succ32_pred32 hnofree]

/-- The block `b` of class `c` put in front of the list of its class. -/
def Heap.freed (h : Heap) (c : Fin blkSliceBit) (b : ℕ) : Heap :=
  { h.setList c ((h.pool.blkList c).push b) with mem := write64 h.mem b (h.pool.blkList c).freeHead }

section reuse
variable {start : ℕ} {h h' : Heap} {live : List ℕ} {free : Fin blkSliceBit → List ℕ}
  {c d : Fin blkSliceBit} {b size : ℕ}

/-- `blk_free` puts a block in front of the list of its slice's class. -/
theorem blkFree_eq (hc : h.pool.typeOf b = some c) : blkFree b h = .ok 0 (h.freed c b) := by
  have hfree : wp (blkFree b) (fun r h' => r = 0 ∧ h' = h.freed c b) (fun _ _ => False) h := by
    simp only [blkFree, wp_bind, wp_get, hc, wp_set, wp_pure]
    exact ⟨trivial, rfl⟩
  obtain ⟨_, _, hrun, rfl, rfl⟩ := exists_ok_of_wp hfree
  exact hrun

/-- A class with a free block hands out the first one. -/
theorem Hands.of_head (H : Hands h c b h') (hne : (h.pool.blkList c).freeHead ≠ 0)
    (L : Layout start h live free) : b = (h.pool.blkList c).freeHead ∧
      h' = h.setList c ((h.pool.blkList c).pop (read64 h.mem b)).use := by
  have hfree : h.HasFree c := L.hasFree_iff.mpr hne
  cases H with
  | free hchain => exact ⟨hchain.1.symm, rfl⟩
  | cut hno _ _ => exact absurd hfree hno
  | slice _ hno _ _ => exact absurd hfree hno

/-- The smallest class that can serve is one. -/
theorem FirstFit.unique {p : BlkPool} (F : FirstFit p size c) (F' : FirstFit p size d) : c = d := by
  rcases lt_trichotomy c d with hlt | heq | hlt
  · exact absurd F.serves (F'.first c F.fits hlt)
  · exact heq
  · exact absurd F'.serves (F.first d F'.fits hlt)

/-- A class that could not serve before another one handed out a block, and its block came
back, still cannot. -/
theorem Hands.still_empty (H : Hands h c b h') (hne : d ≠ c) (hno : ¬ h.pool.Serves d) :
    ¬ (h'.freed c b).pool.Serves d := by
  rw [BlkPool.Serves] at hno ⊢
  cases H with
  | free _ =>
      simp only [Heap.freed, setList_setList, setList_of_ne _ _ hne]
      exact hno
  | cut _ _ _ =>
      simp only [Heap.freed, setList_setList, setList_of_ne _ _ hne]
      exact hno
  | slice hs _ _ _ =>
      -- there was a slice to start, so every class could serve
      exact absurd (Or.inr (Or.inl (Nat.ne_of_lt hs))) hno

/-- **The class that served is the first to serve again.** -/
theorem FirstFit.freed (F : FirstFit h.pool size c) (H : Hands h c b h') (hb : b ≠ 0) {size' : ℕ}
    (hclass : blkSize2Type (if size' < 8 then 8 else size') =
      blkSize2Type (if size < 8 then 8 else size)) :
    FirstFit (h'.freed c b).pool size' c where
  fits := hclass ▸ F.fits
  serves := by
    left
    rw [Heap.freed, setList_self]
    exact hb
  first d hd hlt := H.still_empty (ne_of_lt hlt) (F.first d (hclass ▸ hd) hlt)

/-- The head of a list is an address. -/
theorem Layout.freeHead_lt (L : Layout start h live free) (c : Fin blkSliceBit) :
    (h.pool.blkList c).freeHead < 2 ^ 64 := by
  have hbound := L.region.bound
  have hstart := L.start_eq
  by_cases h0 : (h.pool.blkList c).freeHead = 0
  · omega
  · obtain ⟨rest, hrest, _⟩ := (L.chain c).pop h0
    have hhead := (L.free_carved c _ (hrest ▸ List.mem_cons_self)).bounds.2
    have hpos : 0 < 2 ^ c.val := Nat.two_pow_pos _
    omega

/-- Handing the block out again leaves its old link in it, and nothing else. -/
theorem Blocks.setList_freed (B : Blocks start h live free) (c : Fin blkSliceBit) (b : ℕ) :
    (h.freed c b).setList c
        (((h.freed c b).pool.blkList c).pop (read64 (h.freed c b).mem b)).use =
      { h with mem := write64 h.mem b (h.pool.blkList c).freeHead } := by
  have hlen := B.free_length_le c
  have hlive := length_le_of_carved B.live_nodup B.live_carved
  have hle : liveCount h.pool live c ≤ live.length := List.countP_le_length
  simp only [configBlkSize] at hlen hlive
  have hfree : (h.pool.blkList c).freelistCnt < 2 ^ 32 := by
    rw [B.free_cnt]
    omega
  have hnofree : (h.pool.blkList c).nofreeCnt < 2 ^ 32 := by
    rw [B.nofree_cnt]
    omega
  have hlink : read64 (h.freed c b).mem b = (h.pool.blkList c).freeHead :=
    read64_write64 _ _ (B.freeHead_lt c)
  have hlist : (h.freed c b).pool.blkList c = (h.pool.blkList c).push b := setList_self _ _ _
  rw [hlink, hlist, use_pop_push hfree hnofree]
  simp only [Heap.freed, Heap.setList, Function.update_idem, Function.update_eq_self]

end reuse

/-- **Freeing and asking again is stable.**  In every state that a run on a fresh pool reaches,
let a request get the block `b`.  After `b` is freed, a request of the same size class gets `b`
again, and the pool and all bytes but the first word of `b` are as the first request left them. -/
theorem blkAlloc_reuses {start : ℕ} {h₀ h₁ h h' : Heap} {live : List ℕ}
    (hinit : blkPoolInit start configBlkSize h₀ = .ok 0 h₁)
    (hend : start + configBlkSize < 2 ^ 64) (run : BlkRun (h₁, []) (h, live))
    {size size' : BitVec 32}
    (hclass : ∀ c, max size.toNat 8 ≤ 2 ^ c ↔ max size'.toNat 8 ≤ 2 ^ c) {b : ℕ}
    (hexec : blkAlloc size.toNat h = .ok (some b) h') :
    ∃ h'' m, blkFree b h' = .ok 0 h'' ∧
      blkAlloc size'.toNat h'' = .ok (some b) { h' with mem := m } ∧
      Set.EqOn m h'.mem (block b 8)ᶜ := by
  have B₁ : Blocks start h₁ [] fun _ => [] :=
    ok_of_wp (blkPoolInit_blocks (E := fun _ _ => True) hend) hinit rfl
  obtain ⟨free, B⟩ := run.blocks ⟨_, B₁⟩
  -- both requests are of one class
  obtain ⟨k, hk⟩ : ∃ k, IsLeast {c | max size.toNat 8 ≤ 2 ^ c} k := by
    have hsize := size.isLt
    have hmem : ∃ c, max size.toNat 8 ≤ 2 ^ c := ⟨32, by omega⟩
    exact ⟨Nat.find hmem, Nat.find_spec hmem, fun c hc => Nat.find_min' hmem hc⟩
  have hk' : IsLeast {c | max size'.toNat 8 ≤ 2 ^ c} k := by
    simpa only [hclass] using hk
  have htype := (blkSize2Type_eq size'.isLt hk').trans (blkSize2Type_eq size.isLt hk).symm
  -- the class that handed out the block is that of its slice
  obtain ⟨c, F, H⟩ := hands_of_blkAlloc B size.isLt hexec
  obtain ⟨c', F', hcarved⟩ := ok_of_wp (blkAlloc_first B size.isLt) hexec b rfl
  obtain rfl := F.unique F'
  rcases ok_of_wp (blkAlloc_blocks B size.isLt) hexec with ⟨hr, _⟩ | ⟨b', hr, _, A⟩
  · cases hr
  obtain rfl : b = b' := Option.some.inj hr
  obtain ⟨free', B'⟩ := A.blocks
  have hfree := blkFree_eq hcarved.typeOf
  have hb : b ≠ 0 := B'.ne_zero hcarved
  obtain ⟨_, ⟨free'', B''⟩, _⟩ := ok_of_wp
    (blkFree_blocks (E := fun _ _ => True) B' List.mem_cons_self) hfree
  -- the second request finds it in front
  have F'' := F.freed H hb htype
  have hhead : ((h'.freed c b).pool.blkList c).freeHead = b := by
    rw [Heap.freed, setList_self]
    rfl
  obtain ⟨b₂, h₃, hrun, H₂⟩ := blkAlloc_hands B''.toLayout F''.fits
    (B''.canServe_iff.mpr F''.serves) fun d hd hlt hs => F''.first d hd hlt (B''.canServe_iff.mp hs)
  obtain ⟨hb₂, hh₃⟩ := H₂.of_head (by rw [hhead]; exact hb) B''.toLayout
  rw [hhead] at hb₂
  subst hb₂
  rw [B'.setList_freed] at hh₃
  subst hh₃
  refine ⟨_, _, hfree, hrun, fun x hx => writeLe_of_notMem hx⟩

/-- A block of 300 bytes, freed and asked for again as one of 400. -/
theorem blkAlloc_reuses_second : ∃ h₁ b h' h'' m,
    blkPoolInit 0x1000 configBlkSize rawHeap = .ok 0 h₁ ∧ blkAlloc 300 h₁ = .ok (some b) h' ∧
    blkFree b h' = .ok 0 h'' ∧ blkAlloc 400 h'' = .ok (some b) { h' with mem := m } ∧
    Set.EqOn m h'.mem (block b 8)ᶜ := by
  obtain ⟨h₁, hinit, b, h', hexec⟩ : ∃ h₁, blkPoolInit 0x1000 configBlkSize rawHeap = .ok 0 h₁ ∧
      ∃ b h', blkAlloc 300 h₁ = .ok (some b) h' := ⟨_, rfl, _, _, rfl⟩
  have hclass : ∀ c, max (300#32).toNat 8 ≤ 2 ^ c ↔ max (400#32).toNat 8 ≤ 2 ^ c := by
    intro c
    have hmono : c ≤ 8 → 2 ^ c ≤ 2 ^ 8 := Nat.pow_le_pow_right (by norm_num)
    have hmono' : 9 ≤ c → 2 ^ 9 ≤ 2 ^ c := Nat.pow_le_pow_right (by norm_num)
    simp only [BitVec.toNat_ofNat]
    omega
  obtain ⟨h'', m, hfree, hagain, hm⟩ :=
    blkAlloc_reuses hinit (by decide) .refl hclass hexec
  exact ⟨h₁, b, h', h'', m, hinit, hexec, hfree, hagain, hm⟩

end Xhyper
