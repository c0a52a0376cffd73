import Xhyper.Base

/-!
# The block allocator

`xmalloc.c` serves small requests from a pool of eight slices of one kilobyte.  A
slice belongs to one of ten classes, whose blocks are of size `2 ^ type`.  A class
keeps a list of freed blocks, threaded through their first words, and cuts further
blocks off the front of its current slice.  When neither a freed block nor room in
the slice is left, it takes the next slice of the pool, and when there is none the
next larger class is tried.

Freeing finds the class of a block from the slice the block lies in.

The counters are kept as numbers, with the width of the C field written at each
change.  The pool's name is left out.

## Main definitions

* `BlkList`, `BlkPool`, `Heap` — a class, the pool, the pool with the memory.
* `blkPoolInit`, `blkAlloc`, `blkFree` — the operations.
* `xmalloc`, `xfree` — the operations under the pool's lock.
-/

namespace Xhyper

open Memory Prog

/-- `CONFIG_BLK_SIZE`. -/
abbrev configBlkSize : ℕ := 8192

/-- `BLK_SLICE_BIT`, which is also the number of classes. -/
abbrev blkSliceBit : ℕ := 10

/-- `BLK_SLICE_SIZE`, which is `1 << BLK_SLICE_BIT`. -/
abbrev blkSliceSize : ℕ := 1024

/-- `BLK_SLICE_NUM`, which is `CONFIG_BLK_SIZE / BLK_SLICE_SIZE`. -/
abbrev blkSliceNum : ℕ := 8

/-- `-EPERM`. -/
abbrev negEperm : ℤ := -1

/-- `-EINVAL`. -/
abbrev negEinval : ℤ := -22

/-- `clz32`, which the code uses above zero only. -/
def clz32 (x : ℕ) : ℕ := 31 - Nat.log2 x

/-- `BLK_SIZE2TYPE(size)`. -/
def blkSize2Type (size : ℕ) : ℕ := 32 - clz32 (size - 1)

/-- `BLK_TYPE2SIZE(type)`. -/
def blkType2Size (type : ℕ) : ℕ := 1 <<< type

/-- `ALIGN_UP(a)`. -/
def alignUp (a : ℕ) : ℕ := (a + 7) / 8 * 8

/-- Add one to a `uint32_t`. -/
def succ32 (x : ℕ) : ℕ := (x + 1) % 2 ^ 32

/-- Take one off a `uint32_t`. -/
def pred32 (x : ℕ) : ℕ := if x = 0 then 2 ^ 32 - 1 else x - 1

/-- `blk_list_t`: one class. -/
structure BlkList where
  blkSize : ℕ
  freelistCnt : ℕ
  nofreeCnt : ℕ
  sliceCnt : ℕ
  sliceAddr : ℕ
  sliceOffset : ℕ
  freeHead : ℕ

namespace BlkList

/-- Drop the head of the free list; `next` follows it. -/
def pop (l : BlkList) (next : ℕ) : BlkList :=
  { l with freeHead := next, freelistCnt := pred32 l.freelistCnt }

/-- Cut one block off the current slice. -/
def cut (l : BlkList) : BlkList :=
  { l with sliceOffset := (l.sliceOffset + l.blkSize) % 2 ^ 64 }

/-- Count one more block in use. -/
def use (l : BlkList) : BlkList := { l with nofreeCnt := succ32 l.nofreeCnt }

/-- Put `blk` in front of the free list, one block less being in use. -/
def push (l : BlkList) (blk : ℕ) : BlkList :=
  { l with
    freeHead := blk
    nofreeCnt := pred32 l.nofreeCnt
    freelistCnt := succ32 l.freelistCnt }

/-- Start to cut the slice at `addr`. -/
def start (l : BlkList) (addr : ℕ) : BlkList :=
  { l with sliceAddr := addr, sliceOffset := 0, sliceCnt := l.sliceCnt + 1 }

end BlkList

/-- `blk_pool_t`, less its name. -/
structure BlkPool where
  blkLock : Spinlock
  poolStart : ℕ
  poolEnd : ℕ
  sliceCnt : ℕ
  sliceType : Fin blkSliceNum → ℕ
  blkList : Fin blkSliceBit → BlkList

/-- What the block allocator works on. -/
structure Heap where
  /-- `coreid()`. -/
  core : ℕ
  mem : Mem
  pool : BlkPool

namespace Heap

/-- The pool's lock as a part of the state. -/
def blkLock : Lens Heap Spinlock where
  get h := h.pool.blkLock
  set l h := { h with pool := { h.pool with blkLock := l } }
  get_set _ _ := rfl
  set_get _ := rfl
  set_set _ _ _ := rfl

@[simp] theorem get_blkLock (h : Heap) : blkLock.get h = h.pool.blkLock := rfl
@[simp] theorem set_blkLock (l : Spinlock) (h : Heap) :
    blkLock.set l h = { h with pool := { h.pool with blkLock := l } } := rfl

/-- Replace one class. -/
def setList (h : Heap) (c : Fin blkSliceBit) (l : BlkList) : Heap :=
  { h with pool := { h.pool with blkList := Function.update h.pool.blkList c l } }

end Heap

/-! ## The operations -/

/-- `blk_pool_init`.  The region is cleared before it is checked. -/
def blkPoolInit (poolStart poolSize : ℕ) : Exec Heap ℤ := do
  if poolStart = 0 then pure negEinval
  else do
    modify fun h => { h with mem := fill h.mem poolStart poolSize 0 }
    if poolStart % 8 ≠ 0 ∨ poolSize % 8 ≠ 0 then pure negEinval
    else if poolSize % blkSliceSize ≠ 0 then pure negEinval
    else do
      modify fun h => { h with
        pool := {
          blkLock := archSpinlockInit h.pool.blkLock
          poolStart := poolStart
          poolEnd := (poolStart + poolSize) % 2 ^ 64
          sliceCnt := 0
          sliceType := fun _ => 0
          blkList := fun c => {
            blkSize := blkType2Size c
            freelistCnt := 0
            nofreeCnt := 0
            sliceCnt := 0
            sliceAddr := 0
            sliceOffset := 0
            freeHead := 0 } } }
      pure 0

/-- Take the pool's next slice for class `c`. -/
def newSlice (c : Fin blkSliceBit) : Exec Heap Unit := do
  let h ← get
  let l := h.pool.blkList c
  if hs : h.pool.sliceCnt < blkSliceNum then
    set { h with
      pool := { h.pool with
        sliceCnt := h.pool.sliceCnt + 1
        sliceType := Function.update h.pool.sliceType ⟨h.pool.sliceCnt, hs⟩ c
        blkList := Function.update h.pool.blkList c
          (l.start ((h.pool.poolStart + h.pool.sliceCnt * blkSliceSize) % 2 ^ 64)) } }
  else throw .outOfBounds

/-- Cut the next block off the current slice of class `c`. -/
def carve (c : Fin blkSliceBit) : Exec Heap ℕ := do
  let h ← get
  let l := h.pool.blkList c
  set (h.setList c l.cut)
  pure ((l.sliceAddr + l.sliceOffset) % 2 ^ 64)

/-- The loop of `blk_alloc` with `left` classes still to try; it returns `blk_list`
and `avail_blk`. -/
def blkAllocFrom : ℕ → Option (Fin blkSliceBit) → Exec Heap (Option (Fin blkSliceBit) × ℕ)
  | 0, blkList => pure (blkList, 0)
  | left + 1, _ => do
      let c : Fin blkSliceBit := ⟨9 - left, Nat.lt_of_le_of_lt (Nat.sub_le _ _) (by decide)⟩
      let h ← get
      let l := h.pool.blkList c
      if l.freeHead ≠ 0 then do
        set (h.setList c (l.pop (read64 h.mem l.freeHead)))
        pure (some c, l.freeHead)
      else if l.sliceAddr = 0 ∨ l.sliceOffset = blkSliceSize then
        if h.pool.sliceCnt = blkSliceNum then
          -- no slice is left: try the next larger class
          blkAllocFrom left (some c)
        else do
          newSlice c
          let blk ← carve c
          pure (some c, blk)
      else do
        let blk ← carve c
        pure (some c, blk)

/-- `blk_alloc`. -/
def blkAlloc (size : ℕ) : Exec Heap (Option ℕ) := do
  let size := if size < 8 then 8 else size
  let r ← blkAllocFrom (blkSliceBit - blkSize2Type size) none
  match r with
  | (none, _) => pure none
  | (some c, availBlk) =>
      if availBlk = 0 then abort "xmalloc failed to get available blk"
      else do
        let h ← get
        set (h.setList c (h.pool.blkList c).use)
        pure (some availBlk)

/-- The slice that `blk_free` takes a block to be in. -/
def BlkPool.sliceIdx (p : BlkPool) (blk : ℕ) : ℕ :=
  (((blk : ℤ) - p.poolStart) % 2 ^ 64).toNat / blkSliceSize % 2 ^ 32

/-- The class that `blk_free` takes a block to be of. -/
def BlkPool.typeOf (p : BlkPool) (blk : ℕ) : Option (Fin blkSliceBit) :=
  if hi : p.sliceIdx blk < blkSliceNum then
    if ht : p.sliceType ⟨p.sliceIdx blk, hi⟩ < blkSliceBit then some ⟨_, ht⟩ else none
  else none

/-- `blk_free`. -/
def blkFree (blk : ℕ) : Exec Heap ℤ := do
  let h ← get
  match h.pool.typeOf blk with
  | none => pure negEperm
  | some c => do
      let l := h.pool.blkList c
      set { h.setList c (l.push blk) with mem := write64 h.mem blk l.freeHead }
      pure 0

/-- `xmalloc`: `blk_alloc` on the system's pool, under its lock. -/
def xmalloc (size : ℕ) : Exec Heap (Option ℕ) := do
  spinLock Heap.blkLock (← get).core
  let availBlk ← blkAlloc size
  spinUnlock Heap.blkLock (← get).core
  pure availBlk

/-- `xfree`: `blk_free` on the system's pool, under its lock. -/
def xfree (ptr : ℕ) : Exec Heap ℤ := do
  if ptr = 0 then pure negEinval
  else do
    spinLock Heap.blkLock (← get).core
    let ret ← blkFree ptr
    spinUnlock Heap.blkLock (← get).core
    pure ret

/-- `sizeof(blk_pool_t)`. -/
abbrev sizeofBlkPool : ℕ := 536

/-- `xmalloc_init` on the region that starts at `blk_pool_start`. -/
def xmallocInit (blkPoolStart : ℕ) : Exec Heap ℤ :=
  blkPoolInit (blkPoolStart + alignUp sizeofBlkPool) configBlkSize

end Xhyper
