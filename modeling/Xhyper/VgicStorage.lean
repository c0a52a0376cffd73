import Xhyper.Creation
import Xhyper.MmioTrap
import Xhyper.VgicContain

/-!
# The storage of the shared interrupts

`create_vgic_dist` takes two blocks of the heap: one for the distributor, and one for the records
of its shared interrupts.  A record has four bytes, and the second block is asked for with one
byte for each interrupt.  It is large enough only if `xmalloc` has no block of the size asked
for, nor of twice that size, and gives one of four times that size.

The records are not initialised either.  And a write to a clear-enable register counts interrupts
from 1024 on, whose records are behind any block.

## Main definitions

* `StorageFits` — what the storage should be.
* `guestWrites` — a sequence of guest writes, `SpiRegister` the registers they are to.
* `createVgicDist_made` — what creation leaves.
* `vgic_storage` — when the storage is as it should be.
-/

namespace Xhyper

open Memory Prog Radix

/-! ## What the storage should be -/

/-- The record of a shared interrupt. -/
def spiRecord (spis n : ℕ) : ℕ := spis + sizeofIrqConfig * (n - 32)

/-- A set-enable, clear-enable, priority or target register of shared interrupts up to `max`. -/
def SpiRegister (max offset : ℕ) : Prop :=
  0x104 ≤ offset ∧ offset < 0x100 + (max + 1) / 8 ∨
    0x184 ≤ offset ∧ offset < 0x180 + (max + 1) / 8 ∨
    0x420 ≤ offset ∧ offset < 0x400 + (max + 1) ∨
    0x820 ≤ offset ∧ offset < 0x800 + (max + 1)

/-- A sequence of guest writes, each an offset and a value. -/
def guestWrites (v : Fin ncpu) : List (ℕ × BitVec 64) → Exec Hyp Unit
  | [] => pure ()
  | w :: ws => do
      let _ ← vgicdWrite v w.1 w.2
      guestWrites v ws

/-- The bytes in front of the pool, where the pool's own record is, and those of all blocks but
`spis`, free or in use, less those of the distributor's lock. -/
def otherBytes (p : BlkPool) (vgicDist spis : ℕ) : Set ℕ :=
  ({x | x < p.poolStart} ∪ {x | ∃ c b, Carved p c b ∧ b ≠ spis ∧ x ∈ block b (2 ^ c.val)}) \
    block (vgicDist + 16) 8

/-- **What the storage should be**, in the state `s` after creation: the records are in the block,
writes to registers of implemented interrupts change no other byte, and no interrupt is enabled. -/
structure StorageFits (s : Hyp) (vgicDist max : ℕ) : Prop where
  inside : ∀ n, 32 ≤ n → n ≤ max →
    block (spiRecord (read64 s.ram.mem (vgicDist + 8)) n) sizeofIrqConfig ⊆
      block (read64 s.ram.mem (vgicDist + 8)) (s.sysBlk.bytes (read64 s.ram.mem (vgicDist + 8)))
  writes : ∀ (t : Hyp) (v : Fin ncpu), VgicFree t v → t.dist v = vgicDist →
    t.ram.mem = s.ram.mem → ∀ ws, (∀ w ∈ ws, SpiRegister max w.1) →
      wp (guestWrites v ws) (fun _ t' => Set.EqOn t'.ram.mem s.ram.mem
        (otherBytes s.sysBlk vgicDist (read64 s.ram.mem (vgicDist + 8)))) (fun _ _ => True) t
  disabled : ∀ n, 32 ≤ n → n ≤ max →
    s.ram.mem (spiRecord (read64 s.ram.mem (vgicDist + 8)) n + 2) = 0

/-! ## Creation -/

/-- What creation leaves: the two blocks, and the heap's other bytes as they were. -/
structure MadeDist (start : ℕ) (s s' : Hyp) (vgicDist spis : ℕ) (c : Fin blkSliceBit) : Prop where
  heap : ∃ live free, Blocks start (Hyp.heapPart.get s') live free
  first : ∃ h₁, xmalloc sizeofVgicDist (Hyp.heapPart.get s) = .ok (some vgicDist) h₁ ∧
    FirstFit h₁.pool ((s.gicMaxSpi - 31) % 2 ^ 32).toNat c
  carved : Carved s'.sysBlk c spis
  dist : ∃ d, Carved s'.sysBlk d vgicDist ∧ sizeofVgicDist ≤ 2 ^ d.val
  ne : vgicDist ≠ spis
  ptr : read64 s'.ram.mem (vgicDist + 8) = spis
  mem : Set.EqOn s'.ram.mem s.ram.mem (block spis (2 ^ c.val))

section creation
variable {start vm : ℕ} {s : Hyp} {P : Platform}

/-- A block of `n` bytes has been taken from the heap, and the machine `vm` is ready as before. -/
structure Taken (start vm : ℕ) (s s' : Hyp) (live : List ℕ) (n b : ℕ) : Prop where
  run : xmalloc n (Hyp.heapPart.get s) = .ok (some b) (Hyp.heapPart.get s')
  ready : TrapReady start s' vm
  blocks : ∃ free, Blocks start (Hyp.heapPart.get s') (b :: live) free
  first : ∃ c, FirstFit s.sysBlk n c ∧ Carved s'.sysBlk c b
  room : ∃ c, Carved s'.sysBlk c b ∧ n ≤ 2 ^ c.val
  carved : ∀ c b', Carved s.sysBlk c b' → Carved s'.sysBlk c b'
  mem : s'.ram.mem = s.ram.mem
  gicMaxSpi : s'.gicMaxSpi = s.gicMaxSpi

theorem TrapReady.xmalloc (R : TrapReady start s vm) {live : List ℕ}
    {free : Fin blkSliceBit → List ℕ} (B : Blocks start (Hyp.heapPart.get s) live free) {n : ℕ}
    (hn : n < 2 ^ 32) :
    wp (zoom Hyp.heapPart (Xhyper.xmalloc n)) (fun r s' => ∀ b, r = some b →
      Taken start vm s s' live n b) (fun _ _ => True) s := by
  have hself : wp (Xhyper.xmalloc n)
      (fun r h => Xhyper.xmalloc n (Hyp.heapPart.get s) = .ok r h) (fun _ _ => True)
      (Hyp.heapPart.get s) := wp_partial.mpr fun _ _ h => h
  have hspec := wp_mono (xmalloc_spec B hn) (fun _ _ h => h) fun _ _ _ => trivial
  rw [wp_zoom]
  refine wp_mono (wp_and (wp_and hself (xmalloc_first B hn)) hspec) ?_ fun _ _ _ => trivial
  rintro r h ⟨⟨hrun, hfirst⟩, hfree, hcases⟩ b rfl
  obtain ⟨b', hb', _, G⟩ := hcases.resolve_left fun hnone => absurd hnone.1 (by simp)
  obtain rfl := Option.some.inj hb'
  obtain ⟨free', B'⟩ := G.blocks
  obtain ⟨c, hc, hsize, _⟩ := G.carved
  have hmem : (Hyp.heapPart.set h s).ram.mem = s.ram.mem := G.mem_eq
  refine ⟨hrun, R.heapWrite (fun x _ => ?_) rfl R.vm_free rfl ⟨_, _, B'⟩ hfree, ⟨free', B'⟩,
    hfirst b rfl, ⟨c, hc, hsize⟩, G.keep, hmem, rfl⟩
  rw [hmem]

theorem Taken.notMem {s' : Hyp} {live : List ℕ} {n b : ℕ} (T : Taken start vm s s' live n b) :
    b ∉ live := by
  obtain ⟨_, B⟩ := T.blocks
  exact (List.nodup_cons.mp B.live_nodup).1

theorem Taken.keeps {s' : Hyp} {live : List ℕ} {n b : ℕ} (T : Taken start vm s s' live n b) :
    KeepsBlocks s s' live where
  carved := T.carved
  bytes _ _ _ _ := by
    rw [T.mem]
    exact Set.eqOn_refl _ _

/-- Writing to a block in use leaves a virtual machine ready, and the other blocks. -/
theorem TrapReady.store (R : TrapReady start s vm) {live : List ℕ}
    {free : Fin blkSliceBit → List ℕ} (B : Blocks start (Hyp.heapPart.get s) live free) {b n : ℕ}
    {c : Fin blkSliceBit} (hb : b ∈ live) (hc : Carved s.sysBlk c b) (hn : n ≤ 2 ^ c.val) {m : Mem}
    (hm : Set.EqOn m s.ram.mem (block b n)ᶜ) :
    TrapReady start (s.withMem m) vm ∧ Blocks start (Hyp.heapPart.get (s.withMem m)) live free ∧
      ∀ others : List ℕ, b ∉ others → KeepsBlocks s (s.withMem m) others := by
  have hsub : block b n ⊆ block b (2 ^ c.val) := block_subset le_rfl (by omega)
  have hm' : Set.EqOn m s.ram.mem (block b (2 ^ c.val))ᶜ := hm.mono (Set.compl_subset_compl.mpr hsub)
  have hblocks : Blocks start (Hyp.heapPart.get (s.withMem m)) live free := B.fill hb hc hm'
  have hheap := B.block_heap hc hn
  refine ⟨R.heapWrite (fun x hx => hm fun hin => hx (hheap hin)) rfl R.vm_free rfl
    ⟨_, _, hblocks⟩ R.heap_free, hblocks,
    fun others hother => ⟨fun _ _ h => h, fun b' hb' c' hc' x hx => ?_⟩⟩
  · have hne : b' ≠ b := fun heq => hother (heq ▸ hb')
    exact hm' (Set.disjoint_left.mp (hc'.disjoint hc hne) hx)

/-- **What `create_vgic_dist` leaves**, with the blocks that were in use. -/
theorem createVgicDist_kept (R : TrapReady start s vm) {live : List ℕ}
    {free : Fin blkSliceBit → List ℕ} (B : Blocks start (Hyp.heapPart.get s) live free) :
    wp (createVgicDist P vm) (fun vgicDist s' =>
        (∃ spis c, MadeDist start s s' vgicDist spis c) ∧ KeepsBlocks s s' live ∧
        vgicDist ∉ live ∧ ∃ live' free', Blocks start (Hyp.heapPart.get s') live' free' ∧
          vgicDist ∈ live' ∧ ∀ b ∈ live, b ∈ live')
      (fun _ _ => True) s := by
  rw [createVgicDist, wp_bind]
  refine wp_mono (R.xmalloc B (by decide)) ?_ fun _ _ _ => trivial
  intro r a hr
  cases r with
  | none => trivial
  | some vgicDist =>
  have T := hr vgicDist rfl
  obtain ⟨d, hd, hdsize⟩ := T.room
  obtain ⟨free₁, Ba⟩ := T.blocks
  simp only [wp_bind, wp_get, wp_storeLe]
  have hn : ((a.gicMaxSpi - 31) % 2 ^ 32).toNat < 2 ^ 32 := by omega
  obtain ⟨n, hnspis⟩ : ∃ n, n = ((a.gicMaxSpi - 31) % 2 ^ 32).toNat := ⟨_, rfl⟩
  rw [← hnspis] at hn ⊢
  -- the number of interrupts and the switch
  obtain ⟨m₁, hm₁⟩ : ∃ m₁, m₁ = writeLe (writeLe a.ram.mem vgicDist 4 n) (vgicDist + 4) 1 0 :=
    ⟨_, rfl⟩
  have hmem₁ : Set.EqOn m₁ a.ram.mem (block vgicDist sizeofVgicDist)ᶜ := by
    intro x hx
    rw [hm₁, writeLe_of_notMem, writeLe_of_notMem] <;>
    · simp only [Set.mem_compl_iff, mem_block, sizeofVgicDist] at hx ⊢
      omega
  obtain ⟨R₁, B₁, K₁⟩ := T.ready.store Ba List.mem_cons_self hd hdsize hmem₁
  rw [← hm₁]
  change wp (zoom Hyp.heapPart (xmalloc n)) _ _ (a.withMem m₁)
  refine wp_mono (R₁.xmalloc B₁ hn) ?_ fun _ _ _ => trivial
  intro r b hr
  cases r with
  | none => simp only [wp_bind, wp_storeLe, wp_abort]
  | some spis =>
  -- the block of the records
  have T₂ := hr spis rfl
  obtain ⟨c, hfit, hc⟩ := T₂.first
  obtain ⟨free₂, B₂⟩ := T₂.blocks
  have hd₂ := T₂.carved d vgicDist hd
  have hne : vgicDist ≠ spis := fun heq => T₂.notMem (heq ▸ List.mem_cons_self)
  simp only [wp_bind, wp_storeLe]
  -- the pointer to the records
  obtain ⟨m₂, hm₂⟩ : ∃ m₂, m₂ = writeLe b.ram.mem (vgicDist + 8) 8 spis := ⟨_, rfl⟩
  have hmem₂ : Set.EqOn m₂ b.ram.mem (block vgicDist sizeofVgicDist)ᶜ := by
    intro x hx
    rw [hm₂, writeLe_of_notMem]
    simp only [Set.mem_compl_iff, mem_block, sizeofVgicDist] at hx ⊢
    omega
  obtain ⟨R₃, B₃, K₃⟩ :=
    T₂.ready.store B₂ (List.mem_cons_of_mem _ List.mem_cons_self) hd₂ hdsize hmem₂
  rw [← hm₂]
  change wp (createMmioTrap vm gicdBase gicdSize P.vgicdRead P.vgicdWrite) _ _ (b.withMem m₂)
  refine wp_mono (createMmioTrap_kept R₃ B₃ (by decide) (by decide) (by decide) (by decide)) ?_
    fun _ _ _ => trivial
  rintro _ t ⟨R₄, K₄, _, free₄, B₄⟩
  refine wp_mono (createMmioTrap_kept R₄ B₄ (by decide) (by decide) (by decide) (by decide)) ?_
    fun _ _ _ => trivial
  rintro _ s' ⟨R₅, K₅, _, free₅, B₅⟩
  rw [wp_pure]
  -- what is in use has been kept all the way
  have K := K₄.trans K₅ fun b hb => List.mem_cons_of_mem _ hb
  have hlive : ∀ b ∈ live, b ∈ spis :: vgicDist :: live :=
    fun b hb => List.mem_cons_of_mem _ (List.mem_cons_of_mem _ hb)
  have hkept : KeepsBlocks s s' live :=
    (((T.keeps.trans (K₁ live T.notMem) fun _ h => h).trans T₂.keeps
      fun b hb => List.mem_cons_of_mem _ hb).trans (K₃ live T.notMem) fun _ h => h).trans K hlive
  have hout : ∀ x ∈ block spis (2 ^ c.val), x ∉ block vgicDist sizeofVgicDist := by
    intro x hx hin
    refine Set.disjoint_left.mp (hc.disjoint hd₂ hne.symm) hx ?_
    exact block_subset le_rfl (Nat.add_le_add_left hdsize vgicDist) hin
  refine ⟨⟨spis, c, ⟨_, _, B₅⟩, ⟨_, T.run, ?_⟩, K.carved c spis hc,
    ⟨d, K.carved d vgicDist hd₂, hdsize⟩, hne, ?_, fun x hx => ?_⟩, hkept, T.notMem, _, free₅, B₅,
    ?_, ?_⟩
  · rw [← T.gicMaxSpi, ← hnspis]
    exact hfit
  · have hbytes := K.bytes vgicDist (List.mem_cons_of_mem _ List.mem_cons_self) d hd₂
    have hsame : read64 s'.ram.mem (vgicDist + 8) = read64 m₂ (vgicDist + 8) := by
      refine readLe_congr (hbytes.mono ?_)
      exact (ptr_subset_dist vgicDist).trans (block_subset le_rfl (by omega))
    have hbounds := hc.bounds
    have hstart := B₂.start_eq
    have hregion := B₂.region.bound
    simp only [Hyp.get_heapPart] at hstart
    have hlt : spis < 2 ^ 64 := by
      have hpos : 0 < 2 ^ c.val := Nat.two_pow_pos _
      omega
    rw [hsame, hm₂]
    exact read64_write64 _ _ hlt
  · rw [K.bytes spis List.mem_cons_self c hc hx]
    change m₂ x = s.ram.mem x
    rw [hmem₂ (hout x hx), T₂.mem]
    change m₁ x = s.ram.mem x
    rw [hmem₁ (hout x hx), T.mem]
  · exact List.mem_cons_of_mem _ (List.mem_cons_of_mem _
      (List.mem_cons_of_mem _ List.mem_cons_self))
  · exact fun b' hb' => List.mem_cons_of_mem _ (List.mem_cons_of_mem _ (hlive b' hb'))

theorem createVgicDist_made (R : TrapReady start s vm) :
    wp (createVgicDist P vm) (fun vgicDist s' => ∃ spis c, MadeDist start s s' vgicDist spis c)
      (fun _ _ => True) s := by
  obtain ⟨live, free, B⟩ := R.heap
  refine wp_mono (createVgicDist_kept R B) ?_ fun _ _ h => h
  exact fun _ _ h => h.1

end creation

/-! ## Guest writes -/

/-- `t` has the records of `s`, and its bytes in `keep`. -/
structure SameOn (keep : Set ℕ) (s t : Hyp) : Prop where
  mem : Set.EqOn t.ram.mem s.ram.mem keep
  vms : t.vms = s.vms
  vcpus : t.vcpus = s.vcpus
  core : t.ram.core = s.ram.core

/-- In `keep` the loop stores only what is there. -/
def RegLoop.Harmless (L : RegLoop) (v : Fin ncpu) (s : Hyp) (keep : Set ℕ) : Prop :=
  ∀ i < L.n, L.sel i = true → L.addr v s i ∈ keep → s.ram.mem (L.addr v s i) = L.byte i

section writes
variable {keep : Set ℕ} {s t : Hyp} {v : Fin ncpu} {L : RegLoop} {offset : ℕ} {val : BitVec 64}

theorem SameOn.dist (h : SameOn keep s t) : t.dist v = s.dist v := by
  rw [Hyp.dist, Hyp.dist, h.vcpus, h.vms]

theorem SameOn.trans {u : Hyp} (h : SameOn keep s t) (h' : SameOn keep t u) : SameOn keep s u :=
  ⟨h'.mem.trans h.mem, h'.vms.trans h.vms, h'.vcpus.trans h.vcpus, h'.core.trans h.core⟩

theorem SameOn.lookup (h : SameOn keep s t) (hptr : block (s.dist v + 8) 8 ⊆ keep) (irq : ℕ) :
    t.lookup v irq = s.lookup v irq :=
  Hyp.lookup_congr h.vcpus h.vms (h.mem.mono hptr) irq

/-- One round of a harmless loop. -/
theorem RegLoop.Harmless.step (hL : L.Harmless v s keep) (hptr : block (s.dist v + 8) 8 ⊆ keep)
    (h : SameOn keep s t) {i : ℕ} (hi : i < L.n) : SameOn keep s (L.step v t i) := by
  by_cases hsel : L.sel i = true
  · have haddr : L.addr v t i = L.addr v s i := by
      rw [RegLoop.addr, RegLoop.addr, h.lookup hptr]
    rw [RegLoop.step_pos hsel, haddr]
    refine ⟨fun x hx => ?_, h.vms, h.vcpus, h.core⟩
    rw [Hyp.withGic_ram, Hyp.withMem_mem]
    by_cases hxa : x = L.addr v s i
    · rw [hxa, Function.update_self]
      exact (hL i hi hsel (hxa ▸ hx)).symm
    · rw [Function.update_of_ne hxa]
      exact h.mem hx
  · rw [RegLoop.step_neg hsel]
    exact h

/-- Whatever the lock is given, other bytes stay. -/
theorem sameOn_setDistLock {l : Spinlock} (hlock : Disjoint keep (block (s.dist v + 16) 8)) :
    SameOn keep s (s.withMem (setDistLock s.ram.mem (s.dist v) l)) := by
  refine ⟨fun x hx => ?_, rfl, rfl, rfl⟩
  exact setDistLock_outside fun hin => Set.disjoint_left.mp hlock hx hin

/-- **A write whose loop is harmless** leaves the bytes and a free lock. -/
theorem vgicdWrite_same (F : VgicFree s v) (hL : gicdLoop offset val = some L)
    (hh : L.Harmless v s keep) (hptr : block (s.dist v + 8) 8 ⊆ keep)
    (hlock : Disjoint keep (block (s.dist v + 16) 8)) :
    wp (vgicdWrite v offset val) (fun _ s' => SameOn keep s s' ∧ VgicFree s' v)
      (fun _ _ => True) s := by
  obtain ⟨body, hbody, hreg⟩ := vgicdWriteReg_body v (s.dist v) hL
  rw [wp, vgicdWrite_eq F, ← wp]
  rw [wp_bind, wp_distLock F.lock_free, hreg]
  simp only [wp_bind, wp_pure]
  refine wp_forRange (fun _ t => SameOn keep s t) (by decide) ?_ (sameOn_setDistLock hlock) ?_
  · intro k t hk h
    have hi : 0 + k * 1 < L.n := hk
    refine (wp_iff_of_ok (hbody _ t ?_ ?_)).mpr (hh.step hptr h hi)
    · rw [h.vcpus]
      exact F.vm_ne
    · rw [h.dist]
      exact F.dist_ne
  · intro _ t _ h
    refine withDistLock_ends fun l hl => ?_
    have hsame : SameOn keep s (t.withMem (setDistLock t.ram.mem (s.dist v) l)) := by
      rw [← h.dist (v := v)] at hlock ⊢
      exact h.trans (sameOn_setDistLock hlock)
    refine ⟨hsame, ?_, ?_, ?_, ?_⟩
    · rw [hsame.vcpus]
      exact F.vm_ne
    · rw [hsame.dist]
      exact F.dist_ne
    · rw [hsame.core]
      exact F.core
    · rw [hsame.dist, Hyp.withMem_mem, word_distLock]
      exact word_of_archSpinUnlock hl

/-- A loop is harmless as long as the bytes it looks at stay. -/
theorem RegLoop.Harmless.congr (hL : L.Harmless v s keep) (hptr : block (s.dist v + 8) 8 ⊆ keep)
    (h : SameOn keep s t) : L.Harmless v t keep := by
  intro i hi hsel hin
  have haddr : L.addr v t i = L.addr v s i := by
    rw [RegLoop.addr, RegLoop.addr, h.lookup hptr]
  rw [haddr] at hin ⊢
  rw [h.mem hin]
  exact hL i hi hsel hin

/-- **A sequence of harmless writes.** -/
theorem guestWrites_same {ws : List (ℕ × BitVec 64)} (h : SameOn keep s t) (F : VgicFree t v)
    (hws : ∀ w ∈ ws, ∃ L, gicdLoop w.1 w.2 = some L ∧ L.Harmless v s keep)
    (hptr : block (s.dist v + 8) 8 ⊆ keep) (hlock : Disjoint keep (block (s.dist v + 16) 8)) :
    wp (guestWrites v ws) (fun _ t' => SameOn keep s t') (fun _ _ => True) t := by
  induction ws generalizing t with
  | nil => exact h
  | cons w ws ih =>
      obtain ⟨L, hL, hh⟩ := hws w List.mem_cons_self
      rw [guestWrites, wp_bind]
      refine wp_mono (vgicdWrite_same F hL (hh.congr hptr h) ?_ ?_) ?_ fun _ _ h => h
      · rw [h.dist]
        exact hptr
      · rw [h.dist]
        exact hlock
      · rintro _ t' ⟨h', F'⟩
        exact ih (h.trans h') F' fun w' hw' => hws w' (List.mem_cons_of_mem _ hw')

/-- **A write that selects one interrupt** stores its byte, wherever it is but in the lock. -/
theorem vgicdWrite_single (F : VgicFree s v) (hL : gicdLoop offset val = some L) {i : ℕ}
    (hi : i < L.n) (hsel : L.sel i = true) (hother : ∀ j < L.n, j ≠ i → ¬ L.sel j = true)
    (hout : L.addr v s i ∉ block (s.dist v + 16) 8) :
    ∃ s', vgicdWrite v offset val s = .ok 0 s' ∧ s'.ram.mem (L.addr v s i) = L.byte i := by
  obtain ⟨body, hbody, hreg⟩ := vgicdWriteReg_body v (s.dist v) hL
  have haddr : L.addr v (s.lockDist v) i = L.addr v s i := by
    rw [RegLoop.addr, RegLoop.addr, lockDist_lookup]
  have hstep := RegLoop.step_pos (v := v) (s := s.lockDist v) hsel
  rw [haddr] at hstep
  -- the state changes in round `i` only
  have hloop : forRange 1 0 L.n body (s.lockDist v) = .ok L.n (L.step v (s.lockDist v) i) := by
    obtain ⟨S, hS⟩ : ∃ S : ℕ → Hyp, S = fun k =>
        if k ≤ i then s.lockDist v else L.step v (s.lockDist v) i := ⟨_, rfl⟩
    have hround : ∀ k < L.n, body k (S k) = .ok () (S (k + 1)) := by
      intro k hk
      have hrun : body k (S k) = .ok () (L.step v (S k) k) := by
        have hsame : (S k).vcpus = s.vcpus ∧ (S k).vms = s.vms := by
          rw [hS, hstep]
          dsimp only
          split
          · exact ⟨rfl, rfl⟩
          · exact ⟨rfl, rfl⟩
        refine hbody k _ ?_ ?_
        · rw [hsame.1]
          exact F.vm_ne
        · rw [Hyp.dist, hsame.1, hsame.2]
          exact F.dist_ne
      rw [hrun, hS]
      dsimp only
      rcases lt_trichotomy k i with hlt | rfl | hgt
      · rw [if_pos hlt.le, if_pos (by omega), RegLoop.step_neg (hother k hk hlt.ne)]
      · rw [if_pos le_rfl, if_neg (by omega)]
      · rw [if_neg (by omega), if_neg (by omega), RegLoop.step_neg (hother k hk hgt.ne')]
    have hruns := forRange_runs hround
    rw [hS] at hruns
    dsimp only at hruns
    rw [if_pos (Nat.zero_le i), if_neg (by omega)] at hruns
    exact hruns
  have hrun : vgicdWriteReg v (s.dist v) offset val (s.lockDist v) =
      .ok true (L.step v (s.lockDist v) i) := by
    rw [hreg]
    exact bind_of_ok hloop
  have hdist : (L.step v (s.lockDist v) i).dist v = s.dist v := by
    rw [hstep]
    rfl
  refine ⟨_, (vgicdWrite_eq F).trans (withDistLock_runs F.core F.lock_free hrun hdist ?_ ?_), ?_⟩
  · rw [hstep]
    rfl
  · intro x hx
    have hne : x ≠ L.addr v s i := fun h => hout (h ▸ hx)
    rw [hstep, Hyp.withGic_ram, Hyp.withMem_mem, Function.update_of_ne hne]
  · rw [Hyp.unlockDist_mem, hdist, setDistLock_outside hout, hstep, Hyp.withGic_ram,
      Hyp.withMem_mem, Function.update_self]

end writes

/-! ## The registers of shared interrupts -/

/-- The loop of a register of shared interrupts is over their records, or it is that of a
clear-enable register. -/
theorem spiRegister_loop {N offset : ℕ} (hN : N ≤ 16)
    (h : SpiRegister (32 * (N + 1) - 1) offset) (val : BitVec 64) :
    ∃ L, gicdLoop offset val = some L ∧ L.field < 4 ∧
      ((∀ i < L.n, 32 ≤ L.irqNum + i ∧ L.irqNum + i ≤ 32 * (N + 1) - 1) ∨
        (∃ k, 1 ≤ k ∧ k ≤ N ∧ L = enableLoop (1024 + 32 * k) val 0 Gic.mask)) := by
  rcases h with ⟨hlo, hhi⟩ | ⟨hlo, hhi⟩ | ⟨hlo, hhi⟩ | ⟨hlo, hhi⟩
  · refine ⟨enableLoop ((offset - gicdIsenabler 0) / 4 * 32) val 1 Gic.unmask, ?_,
      show 2 < 4 by decide, Or.inl fun i hi => ?_⟩
    · rw [gicdLoop, if_pos (by omega)]
    · simp only [enableLoop, gicdIsenabler] at hi ⊢
      omega
  · have hnum : (offset - gicdIsenabler 0) / 4 * 32 = 1024 + 32 * ((offset - 0x180) / 4) := by
      rw [gicdIsenabler]
      omega
    refine ⟨enableLoop (1024 + 32 * ((offset - 0x180) / 4)) val 0 Gic.mask, ?_,
      show 2 < 4 by decide, Or.inr ⟨_, by omega, by omega, rfl⟩⟩
    rw [gicdLoop, if_neg (by omega), if_pos (by omega), hnum]
  · refine ⟨prioLoop ((offset - 0x400) / 4 * 4) val, ?_, show 0 < 4 by decide,
      Or.inl fun i hi => ?_⟩
    · rw [gicdLoop, if_neg (by omega), if_neg (by omega), if_pos (by omega)]
    · simp only [prioLoop] at hi ⊢
      omega
  · refine ⟨targetLoop ((offset - 0x800) / 4 * 4) val, ?_, show 1 < 4 by decide,
      Or.inl fun i hi => ?_⟩
    · rw [gicdLoop, if_neg (by omega), if_neg (by omega), if_neg (by omega), if_pos (by omega)]
    · simp only [targetLoop] at hi ⊢
      omega

/-- **When the storage is as it should be**: after the distributor's own block is taken, no class
serves that holds a byte for each interrupt but not a record for each; the byte `enabled` of each
record is zero already; and so are the bytes of other blocks that writes to clear-enable
registers clear, if the lock lets them. -/
structure StorageCond (s s' : Hyp) (vgicDist N : ℕ) : Prop where
  room : ∀ b h, xmalloc sizeofVgicDist (Hyp.heapPart.get s) = .ok (some b) h →
    ∀ c : Fin blkSliceBit, blkSize2Type (32 * N) ≤ c.val →
      2 ^ c.val < sizeofIrqConfig * (32 * N) → ¬ h.pool.Serves c
  cleared : ∀ n, 32 ≤ n → n ≤ 32 * (N + 1) - 1 →
    s.ram.mem (spiRecord (read64 s'.ram.mem (vgicDist + 8)) n + 2) = 0
  stray : (distLock s'.ram.mem vgicDist).word = 0 → ∀ n, 32 ≤ n → n ≤ 32 * (N + 1) - 1 →
    spiRecord (read64 s'.ram.mem (vgicDist + 8)) (1024 + n) + 2 ∈
      otherBytes s'.sysBlk vgicDist (read64 s'.ram.mem (vgicDist + 8)) →
    s'.ram.mem (spiRecord (read64 s'.ram.mem (vgicDist + 8)) (1024 + n) + 2) = 0

section storage
variable {start N vgicDist spis : ℕ} {s s' : Hyp} {c : Fin blkSliceBit}

/-- The records are inside the block if the class that served is large enough. -/
theorem MadeDist.inside_iff (M : MadeDist start s s' vgicDist spis c) (hN : 1 ≤ N) :
    (∀ n, 32 ≤ n → n ≤ 32 * (N + 1) - 1 →
      block (spiRecord spis n) sizeofIrqConfig ⊆ block spis (s'.sysBlk.bytes spis)) ↔
      sizeofIrqConfig * (32 * N) ≤ 2 ^ c.val := by
  rw [M.carved.bytes]
  simp only [Set.subset_def, mem_block, spiRecord, sizeofIrqConfig]
  constructor
  · intro h
    have hlast := h (32 * (N + 1) - 1) (by omega) le_rfl (spis + 4 * (32 * N) - 1) (by omega)
    omega
  · intro h n hlo hhi x hx
    omega

/-- The class that served is the first one for a byte for each interrupt. -/
theorem MadeDist.fit (M : MadeDist start s s' vgicDist spis c) (hN : 1 ≤ N)
    (hmax : s.gicMaxSpi = 32 * (N + 1) - 1) (hint : 32 * (N + 1) ≤ 2 ^ 31) :
    ∃ h₁, xmalloc sizeofVgicDist (Hyp.heapPart.get s) = .ok (some vgicDist) h₁ ∧
      h₁.pool.Serves c ∧ blkSize2Type (32 * N) ≤ c.val ∧
      ∀ c' : Fin blkSliceBit, blkSize2Type (32 * N) ≤ c'.val → c' < c → ¬ h₁.pool.Serves c' := by
  obtain ⟨h₁, hrun, hfit⟩ := M.first
  have hnspis : ((s.gicMaxSpi - 31) % 2 ^ 32).toNat = 32 * N := by
    rw [hmax]
    omega
  have hsize : (if 32 * N < 8 then 8 else 32 * N) = 32 * N := if_neg (by omega)
  have hlo := hfit.fits
  have hfirst := hfit.first
  rw [hnspis, hsize] at hlo hfirst
  exact ⟨h₁, hrun, hfit.serves, hlo, hfirst⟩

/-- Which class serves is a matter of the pool before. -/
theorem MadeDist.room_iff (M : MadeDist start s s' vgicDist spis c) (hN : 1 ≤ N)
    (hmax : s.gicMaxSpi = 32 * (N + 1) - 1) (hint : 32 * (N + 1) ≤ 2 ^ 31) :
    (∀ b h, xmalloc sizeofVgicDist (Hyp.heapPart.get s) = .ok (some b) h →
      ∀ c : Fin blkSliceBit, blkSize2Type (32 * N) ≤ c.val →
        2 ^ c.val < sizeofIrqConfig * (32 * N) → ¬ h.pool.Serves c) ↔
      sizeofIrqConfig * (32 * N) ≤ 2 ^ c.val := by
  obtain ⟨h₁, hrun, hserves, hlo, hfirst⟩ := M.fit hN hmax hint
  constructor
  · intro h
    by_contra hlt
    exact h _ _ hrun c hlo (not_le.mp hlt) hserves
  · intro hle b h hrun' c' hc' hlt
    obtain ⟨rfl, rfl⟩ : vgicDist = b ∧ h₁ = h := by
      rw [hrun] at hrun'
      injection hrun' with hb hh
      exact ⟨Option.some.inj hb, hh⟩
    refine hfirst c' hc' (lt_of_not_ge fun hge => ?_)
    have hpow : 2 ^ c.val ≤ 2 ^ c'.val := Nat.pow_le_pow_right (by decide) hge
    omega

/-- No class holds more than 512 bytes. -/
theorem MadeDist.le (M : MadeDist start s s' vgicDist spis c) (hN : 1 ≤ N)
    (hmax : s.gicMaxSpi = 32 * (N + 1) - 1) (hint : 32 * (N + 1) ≤ 2 ^ 31) : N ≤ 16 := by
  obtain ⟨_, _, _, hlo, _⟩ := M.fit hN hmax hint
  obtain ⟨_, hle⟩ := le_of_blkSize2Type (32 * N) (by omega) (by omega)
  have hc : c.val ≤ 9 := Nat.le_of_lt_succ c.isLt
  have hpow : 2 ^ blkSize2Type (32 * N) ≤ 2 ^ 9 := Nat.pow_le_pow_right (by decide) (hlo.trans hc)
  omega

/-- A byte of the records' block is none of the others. -/
theorem MadeDist.notMem_other (M : MadeDist start s s' vgicDist spis c) {x : ℕ}
    (hx : x ∈ block spis (2 ^ c.val)) : x ∉ otherBytes s'.sysBlk vgicDist spis := by
  rintro ⟨hlow | ⟨d, b, hb, hne, hxb⟩, _⟩
  · have hbounds := M.carved.bounds
    simp only [Set.mem_ofPred_eq, mem_block] at hlow hx
    omega
  · exact Set.disjoint_left.mp (M.carved.disjoint hb hne.symm) hx hxb

/-- The pointer to the records is among the other bytes. -/
theorem MadeDist.ptr_other (M : MadeDist start s s' vgicDist spis c) :
    block (vgicDist + 8) 8 ⊆ otherBytes s'.sysBlk vgicDist spis := by
  obtain ⟨d, hd, hsize⟩ := M.dist
  intro x hx
  simp only [sizeofVgicDist, mem_block] at hsize hx
  refine ⟨Or.inr ⟨d, vgicDist, hd, M.ne, ?_⟩, ?_⟩ <;>
  · simp only [mem_block]
    omega

/-- The lock is not. -/
theorem other_lock (p : BlkPool) (vgicDist spis : ℕ) :
    Disjoint (otherBytes p vgicDist spis) (block (vgicDist + 16) 8) := Set.disjoint_sdiff_left

/-- **Writes to registers of implemented interrupts** change no other byte. -/
theorem MadeDist.writes (M : MadeDist start s s' vgicDist spis c) (hN : N ≤ 16)
    (hfits : sizeofIrqConfig * (32 * N) ≤ 2 ^ c.val)
    (hstray : ∀ n, 32 ≤ n → n ≤ 32 * (N + 1) - 1 →
      spiRecord spis (1024 + n) + 2 ∈ otherBytes s'.sysBlk vgicDist spis →
      s'.ram.mem (spiRecord spis (1024 + n) + 2) = 0)
    {t : Hyp} {v : Fin ncpu} (F : VgicFree t v) (hdist : t.dist v = vgicDist)
    (hmem : t.ram.mem = s'.ram.mem) {ws : List (ℕ × BitVec 64)}
    (hws : ∀ w ∈ ws, SpiRegister (32 * (N + 1) - 1) w.1) :
    wp (guestWrites v ws) (fun _ t' => Set.EqOn t'.ram.mem s'.ram.mem
      (otherBytes s'.sysBlk vgicDist spis)) (fun _ _ => True) t := by
  have hrec : ∀ irq, 32 ≤ irq → t.lookup v irq = spiRecord spis irq := by
    intro irq hirq
    rw [Hyp.lookup, Hyp.spis, hdist, hmem, M.ptr, irqAddr, if_neg (by omega), if_neg (by omega),
      spiRecord]
  have hws' : ∀ w ∈ ws, ∃ L, gicdLoop w.1 w.2 = some L ∧
      L.Harmless v t (otherBytes s'.sysBlk vgicDist spis) := by
    intro w hw
    obtain ⟨L, hL, hfield, hin | ⟨k, hk, hkN, rfl⟩⟩ := spiRegister_loop hN (hws w hw) w.2
    · refine ⟨L, hL, fun i hi _ hother => absurd hother (M.notMem_other ?_)⟩
      obtain ⟨hlo, hhi⟩ := hin i hi
      rw [RegLoop.addr, hrec _ hlo, spiRecord]
      simp only [mem_block, sizeofIrqConfig] at hfits ⊢
      omega
    · refine ⟨_, hL, fun i hi _ hother => ?_⟩
      have hlt : i < 32 := hi
      have haddr : (enableLoop (1024 + 32 * k) w.2 0 Gic.mask).addr v t i =
          spiRecord spis (1024 + (32 * k + i)) + 2 := by
        rw [RegLoop.addr, hrec _ (by simp only [enableLoop]; omega), enableLoop, Nat.add_assoc]
      rw [haddr] at hother ⊢
      rw [hmem]
      exact hstray (32 * k + i) (by omega) (by omega) hother
  have hself : SameOn (otherBytes s'.sysBlk vgicDist spis) t t := ⟨fun _ _ => rfl, rfl, rfl, rfl⟩
  refine wp_mono (guestWrites_same hself F hws' ?_ ?_) ?_ fun _ _ h => h
  · rw [hdist]
    exact M.ptr_other
  · rw [hdist]
    exact other_lock _ _ _
  · intro _ t' h
    rw [← hmem]
    exact h.mem

/-- Core 0 with a virtual CPU of a machine whose distributor is at `vgicDist`. -/
def guestOf (s : Hyp) (vgicDist : ℕ) : Hyp :=
  { s with
    ram := { s.ram with core := 0 }
    vms := fun _ => { zeroVm with vgicDist := vgicDist }
    vcpus := fun _ => { zeroVcpu with vm := 1 } }

/-- **A write to a clear-enable register** clears a byte of another block, if it can. -/
theorem MadeDist.stray (M : MadeDist start s s' vgicDist spis c) (hN : N ≤ 16)
    (hwrites : ∀ (t : Hyp) (v : Fin ncpu), VgicFree t v → t.dist v = vgicDist →
      t.ram.mem = s'.ram.mem → ∀ ws, (∀ w ∈ ws, SpiRegister (32 * (N + 1) - 1) w.1) →
        wp (guestWrites v ws) (fun _ t' => Set.EqOn t'.ram.mem s'.ram.mem
          (otherBytes s'.sysBlk vgicDist spis)) (fun _ _ => True) t)
    (hlock : (distLock s'.ram.mem vgicDist).word = 0) {n : ℕ} (hlo : 32 ≤ n)
    (hhi : n ≤ 32 * (N + 1) - 1)
    (hother : spiRecord spis (1024 + n) + 2 ∈ otherBytes s'.sysBlk vgicDist spis) :
    s'.ram.mem (spiRecord spis (1024 + n) + 2) = 0 := by
  have hdist : (guestOf s' vgicDist).dist 0 = vgicDist := rfl
  have hmem : (guestOf s' vgicDist).ram.mem = s'.ram.mem := rfl
  have hne : vgicDist ≠ 0 := by
    obtain ⟨d, hd, _⟩ := M.dist
    obtain ⟨_, _, B⟩ := M.heap
    exact B.ne_zero hd
  have F : VgicFree (guestOf s' vgicDist) 0 :=
    ⟨show 1 ≠ 0 by decide, hne, show 0 < 2 ^ 31 by decide, hlock⟩
  generalize guestOf s' vgicDist = t at hdist hmem F
  -- the register of the interrupt, and the value with its bit
  obtain ⟨offset, hoff⟩ : ∃ offset, offset = 0x180 + 4 * (n / 32) := ⟨_, rfl⟩
  obtain ⟨val, hval⟩ : ∃ val, val = BitVec.twoPow 64 (n % 32) := ⟨_, rfl⟩
  have hreg : SpiRegister (32 * (N + 1) - 1) offset := Or.inr (Or.inl (by omega))
  have hnum : (offset - gicdIsenabler 0) / 4 * 32 = 1024 + 32 * (n / 32) := by
    rw [gicdIsenabler]
    omega
  have hL : gicdLoop offset val =
      some (enableLoop (1024 + 32 * (n / 32)) val 0 Gic.mask) := by
    rw [gicdLoop, if_neg (by omega), if_pos (by omega), hnum]
  have haddr : (enableLoop (1024 + 32 * (n / 32)) val 0 Gic.mask).addr 0 t (n % 32) =
      spiRecord spis (1024 + n) + 2 := by
    have hirq : 1024 + 32 * (n / 32) + n % 32 = 1024 + n := by omega
    rw [RegLoop.addr, enableLoop, hirq, Hyp.lookup, Hyp.spis, hdist, hmem, M.ptr, irqAddr,
      if_neg (by omega), if_neg (by omega), spiRecord]
  have hbit : ∀ j, val.getLsbD j = true ↔ j = n % 32 := by
    intro j
    rw [hval, BitVec.getLsbD_twoPow]
    simp only [Bool.and_eq_true, decide_eq_true_eq]
    omega
  obtain ⟨t', hrun, hset⟩ := vgicdWrite_single F hL (i := n % 32)
    (show n % 32 < 32 from Nat.mod_lt _ (by decide)) ((hbit _).mpr rfl)
    (fun j _ hj hsel => hj ((hbit j).mp hsel)) (by
      rw [haddr, hdist]
      exact hother.2)
  have hkeep := hwrites t 0 F hdist hmem [(offset, val)] fun w hw => by
    rw [List.mem_singleton.mp hw]
    exact hreg
  rw [guestWrites, wp_bind] at hkeep
  have hend := ok_of_wp hkeep hrun
  simp only [guestWrites, wp_pure] at hend
  rw [← hend hother, ← haddr]
  exact hset

/-- **When the storage of the shared interrupts is as it should be.** -/
theorem vgic_storage {P : Platform} {vm : ℕ} (R : TrapReady start s vm) (hN : 1 ≤ N)
    (hmax : s.gicMaxSpi = 32 * (N + 1) - 1) (hint : 32 * (N + 1) ≤ 2 ^ 31)
    (hrun : createVgicDist P vm s = .ok vgicDist s') :
    StorageFits s' vgicDist (32 * (N + 1) - 1) ↔ StorageCond s s' vgicDist N := by
  obtain ⟨spis, c, M⟩ := ok_of_wp (createVgicDist_made R) hrun
  have hle := M.le hN hmax hint
  have hroom := M.room_iff hN hmax hint
  have hinside := M.inside_iff hN
  have hsame : sizeofIrqConfig * (32 * N) ≤ 2 ^ c.val → ∀ n, 32 ≤ n → n ≤ 32 * (N + 1) - 1 →
      s'.ram.mem (spiRecord spis n + 2) = s.ram.mem (spiRecord spis n + 2) := by
    intro hfits n hlo hhi
    refine M.mem ?_
    simp only [mem_block, spiRecord, sizeofIrqConfig] at hfits ⊢
    omega
  constructor
  · intro H
    have hfits := H.inside
    have hwrites := H.writes
    have hdisabled := H.disabled
    rw [M.ptr] at hfits hwrites hdisabled
    have hbytes := hinside.mp hfits
    refine ⟨hroom.mpr hbytes, ?_, ?_⟩ <;> rw [M.ptr]
    · intro n hlo hhi
      rw [← hsame hbytes n hlo hhi]
      exact hdisabled n hlo hhi
    · exact fun hlock n hlo hhi hother => M.stray hle hwrites hlock hlo hhi hother
  · intro C
    have hbytes := hroom.mp C.room
    have hcleared := C.cleared
    have hstray := C.stray
    rw [M.ptr] at hcleared hstray
    refine ⟨?_, ?_, ?_⟩ <;> rw [M.ptr]
    · exact hinside.mpr hbytes
    · intro t v F hdist hmem ws hws
      have hlock : (distLock s'.ram.mem vgicDist).word = 0 := by
        rw [← hmem, ← hdist]
        exact F.lock_free
      exact M.writes hle hbytes (hstray hlock) F hdist hmem hws
    · intro n hlo hhi
      rw [hsame hbytes n hlo hhi]
      exact hcleared n hlo hhi

end storage

/-! ## A machine without memory -/

/-- A machine at `0x200` whose table is empty, with 32 shared interrupts. -/
def emptyVm : Hyp :=
  { zeroHyp ⟨0, fun _ => 0, ⟨.leftBy 0, 0⟩⟩ (freshPool (.leftBy 0) 0x10000) with
    vms := fun _ => { zeroVm with vttbr := 0x1000 }
    gicMaxSpi := 63 }

theorem emptyVm_zero : ∀ i < 512, read64 emptyVm.ram.mem (0x1000 + 8 * i) = 0 := fun _ _ =>
  readLe_eq_zero fun _ _ => rfl

theorem emptyVm_region : IsRegion 0x10000 := by constructor <;> decide

theorem emptyVm_heap : Unfreed 0x10000 (Hyp.heapPart.get emptyVm) [] :=
  freshPool_blocks emptyVm_region _ _ _

/-- The table's page is not in the heap. -/
theorem emptyVm_disjoint : Disjoint (block 0x1000 pageSize) (block 0x10000 configBlkSize) := by
  rw [Set.disjoint_left]
  intro x hx hx'
  simp only [mem_block, pageSize, configBlkSize] at *
  omega

theorem emptyVm_ready : TrapReady 0x10000 emptyVm 0x200 := by
  have hpage : IsPage 0x1000 := by constructor <;> decide
  have hnone : ∀ x, translate emptyVm.ram.mem 0x1000 x = none := translate_fresh emptyVm_zero
  constructor
  · decide
  · exact Table.fresh hpage (by decide) emptyVm_zero
  · intro x out a p t h
    cases (hnone x).symm.trans h
  · intro p t ht
    rw [((tableAt_fresh emptyVm_zero).mp ht).2]
    exact emptyVm_disjoint
  · intro x out a h
    cases (hnone x).symm.trans h
  · exact ⟨_, _, emptyVm_heap⟩
  · rfl
  · rfl
  · rfl

theorem emptyVm_room (l : List (Fin blkSliceBit)) (h : ∀ c, l.count c * 2 ^ c.val ≤ 1024) :
    emptyVm.sysBlk.RoomFor l := by
  refine ⟨fun c => Nat.zero_le _, fun c _ => ⟨rfl, rfl⟩, fun c => ?_⟩
  rw [show (emptyVm.sysBlk.blkList c).sliceOffset = 0 from rfl, Nat.zero_add]
  exact h c

/-- Its distributor is made, with any number of shared interrupts, and there is room for more. -/
theorem exists_emptyVm_able (P : Platform) {spis : ℤ} {c : Fin blkSliceBit}
    (hc : ofClass (nspis spis) c) : ∃ vgicDist s',
    createVgicDist P 0x200 { emptyVm with gicMaxSpi := spis } = .ok vgicDist s' ∧
      Able 0x10000 spis [8, 8] s' := by
  have hfits : ∀ c d : Fin blkSliceBit, [5, c, 6, 6, 8, 8].count d * 2 ^ d.val ≤ 1024 := by decide
  have A : Able 0x10000 spis [5, c, 6, 6, 8, 8] { emptyVm with gicMaxSpi := spis } :=
    ⟨⟨_, emptyVm_heap⟩, emptyVm_room _ (hfits c), rfl, rfl, rfl⟩
  have hno : NoGicTable 0x10000 emptyVm.ram 0x1000 := by
    intro r h
    have hsame : ∀ p t, TableAt emptyVm.ram.mem 0x1000 p t →
        Set.EqOn r.mem emptyVm.ram.mem (block t pageSize) := by
      intro p t ht x hx
      rw [((tableAt_fresh emptyVm_zero).mp ht).2] at hx
      exact h.mem x fun hin => Set.disjoint_left.mp emptyVm_disjoint hx hin
    have hnone : follow (child r.mem) 0x1000 (tablePath gicdBase) = none := by
      rw [Option.eq_none_iff_forall_ne_some]
      intro t ht
      have hold := (tableAt_frame hsame _ t).mp ((tableAt_tablePath _ _ _ _).mpr ht)
      have hpath := ((tableAt_fresh emptyVm_zero).mp hold).1
      revert hpath
      decide
    have hpath : tablePath gicrBase = tablePath gicdBase := by decide
    rw [pteAt, pteAt, hpath, hnone]
    exact ⟨rfl, rfl⟩
  have hlock : (emptyVm.vms 0x200).vmLock.word = 0 := rfl
  have hvttbr : (emptyVm.vms 0x200).vttbr = 0x1000 := rfl
  rw [← hvttbr] at hno
  generalize emptyVm = s at A hlock hno ⊢
  exact exists_ok_of_wp (A.createVgicDist (P := P) hc (by decide) hlock hno)

theorem exists_emptyVm_dist (P : Platform) :
    ∃ vgicDist s', createVgicDist P 0x200 emptyVm = .ok vgicDist s' := by
  obtain ⟨vgicDist, s', hrun, _⟩ := @exists_emptyVm_able P 63 5 (by decide)
  exact ⟨vgicDist, s', hrun⟩

/-- **Its records do not fit**: 32 interrupts get a block of 32 bytes. -/
theorem vgic_storage_small : ∃ vgicDist s',
    createVgicDist ⟨fun _ _ => 0, 0, 0, 0, 0, 0⟩ 0x200 emptyVm = .ok vgicDist s' ∧
      ¬ StorageFits s' vgicDist 63 := by
  obtain ⟨vgicDist, s', hrun⟩ := exists_emptyVm_dist ⟨fun _ _ => 0, 0, 0, 0, 0, 0⟩
  refine ⟨vgicDist, s', hrun, fun H => ?_⟩
  have hready := emptyVm_ready
  have hheap := emptyVm_heap
  have hroom := emptyVm_room [5] (by decide)
  have hspis : emptyVm.gicMaxSpi = 32 * ((1 : ℕ) + 1) - 1 := rfl
  have hlock : (Hyp.heapPart.get emptyVm).pool.blkLock.word = 0 := rfl
  generalize emptyVm = s at hready hheap hroom hspis hlock hrun
  obtain ⟨spis, c, M⟩ := ok_of_wp (createVgicDist_made hready) hrun
  obtain ⟨h₁, hfirst, _, _, hmin⟩ := M.fit le_rfl hspis (by decide)
  -- after one block a slice is left, so that the first class serves
  have hend := ok_of_wp (xmalloc_room hheap hroom (show sizeofVgicDist < 2 ^ 32 by decide)
    (by decide) hlock) hfirst
  obtain ⟨⟨_, R⟩, _, _, b, _, U, _⟩ := hend
  have hslices := R.slices U
  have hserves : h₁.pool.Serves 5 := Or.inr (Or.inl (by simp only [blkSliceNum]; omega))
  have hle : c ≤ 5 := le_of_not_gt fun hlt => hmin 5 (by decide) hlt hserves
  have hinside := H.inside
  rw [M.ptr] at hinside
  have hbytes := (M.inside_iff le_rfl).mp hinside
  have hpow : 2 ^ c.val ≤ 2 ^ 5 := Nat.pow_le_pow_right (by decide) hle
  simp only [sizeofIrqConfig] at hbytes
  omega

/-- The theorem there. -/
theorem vgic_storage_emptyVm : ∃ vgicDist s',
    createVgicDist ⟨fun _ _ => 0, 0, 0, 0, 0, 0⟩ 0x200 emptyVm = .ok vgicDist s' ∧
      (StorageFits s' vgicDist (32 * (1 + 1) - 1) ↔ StorageCond emptyVm s' vgicDist 1) := by
  obtain ⟨vgicDist, s', hrun⟩ := exists_emptyVm_dist ⟨fun _ _ => 0, 0, 0, 0, 0, 0⟩
  have hready := emptyVm_ready
  have hspis : emptyVm.gicMaxSpi = 32 * ((1 : ℕ) + 1) - 1 := rfl
  refine ⟨vgicDist, s', hrun, ?_⟩
  generalize emptyVm = s at hready hspis hrun ⊢
  exact vgic_storage hready le_rfl hspis (by decide) hrun

end Xhyper
