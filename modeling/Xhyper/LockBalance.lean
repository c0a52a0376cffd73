import Xhyper.Vcpu
import Xhyper.VgicFrame

/-!
# The operations and their locks

Eight operations take a spinlock.  A lock that an operation took should be free when it returns,
so that the next one does not wait for its own core.

`alloc_one_page` returns with the lock taken when there is no free page.  All other ways out give
the lock back.  The lock of a distributor is in the heap, where the stores of other operations
may reach it.

## Main definitions

* `LockPlace`, `Hyp.lockAt` — the locks.
* `LockOp`, `LockOp.run`, `LockOp.places` — the operations, and the locks they take.
* `LockOp.Balanced`, `FindFree` — what one operation should do, and a run of them.
* `locks_balanced` — which do.
-/

namespace Xhyper

open Memory Prog

/-! ## The operations -/

/-- A lock. -/
inductive LockPlace
  /-- `pages.lock`. -/
  | pages
  /-- `sys_blk->blk_lock`. -/
  | heap
  /-- `vcpus_lock`. -/
  | vcpus
  /-- `vm_lock` of a virtual machine. -/
  | vm (a : ℕ)
  /-- `lock` of a distributor. -/
  | dist (a : ℕ)
  deriving DecidableEq

/-- The lock at a place. -/
def Hyp.lockAt (s : Hyp) : LockPlace → Spinlock
  | .pages => s.ram.pages.lock
  | .heap => s.sysBlk.blkLock
  | .vcpus => s.vcpusLock
  | .vm a => (s.vms a).vmLock
  | .dist a => distLock s.ram.mem a

/-- The operations that take a lock. -/
inductive LockOp
  | allocOnePage
  | freeOnePage (p : ℕ)
  | xmallocBlkAlloc (size : ℕ)
  | xmallocBlkFree (blk : ℕ)
  | vcpuAlloc
  | vmmioHandlerRegister (vm ipa size vmmioRead vmmioWrite : ℕ)
  | vgicdRead (isen : BitVec 32) (v : Fin ncpu) (offset : ℕ) (reg : Option (Fin 31))
  | vgicdWrite (v : Fin ncpu) (offset : ℕ) (val : BitVec 64)

/-- A program less its result. -/
def drop {σ α : Type} (x : Exec σ α) : Exec σ Unit := do
  let _ ← x
  pure ()

@[simp] theorem wp_drop {σ α : Type} {x : Exec σ α} {Q : Unit → σ → Prop}
    {E : Fault → σ → Prop} {s : σ} : wp (drop x) Q E s ↔ wp x (fun _ s' => Q () s') E s := by
  rw [drop, wp_bind]
  rfl

namespace LockOp

variable (s : Hyp)

/-- Run an operation. -/
def run : LockOp → Exec Hyp Unit
  | allocOnePage => drop (zoom Hyp.ramPart Xhyper.allocOnePage)
  | freeOnePage p => zoom Hyp.ramPart (Xhyper.freeOnePage p)
  | xmallocBlkAlloc size => drop (zoom Hyp.heapPart (xmalloc size))
  | xmallocBlkFree blk => drop (zoom Hyp.heapPart (xfree blk))
  | vcpuAlloc => drop Xhyper.vcpuAlloc
  | vmmioHandlerRegister vm ipa size r w => drop (Xhyper.vmmioHandlerRegister vm ipa size r w)
  | vgicdRead isen v offset reg => drop (Xhyper.vgicdRead isen v offset reg)
  | vgicdWrite v offset val => drop (Xhyper.vgicdWrite v offset val)

/-- The lock of the distributor of `v`; without one the pointers stop the operation. -/
def distPlace (v : Fin ncpu) : List LockPlace :=
  if (s.vcpus v).vm = 0 ∨ s.dist v = 0 then [] else [.dist (s.dist v)]

/-- The locks that an operation takes. -/
def places : LockOp → List LockPlace
  | allocOnePage => [.pages]
  | freeOnePage p => if p = 0 then [] else [.pages]
  | xmallocBlkAlloc _ => [.heap]
  | xmallocBlkFree blk => if blk = 0 then [] else [.heap]
  | vcpuAlloc => [.vcpus]
  | vmmioHandlerRegister vm _ size _ _ => if size = 0 ∨ vm = 0 then [] else [.vm vm, .heap]
  | vgicdRead _ v _ _ => distPlace s v
  | vgicdWrite v _ _ => distPlace s v

/-- All of them are free. -/
def Free (o : LockOp) : Prop := ∀ p ∈ o.places s, (s.lockAt p).word = 0

/-- **What an operation should do**: if it returns, the locks that it took are free. -/
def Balanced (o : LockOp) : Prop :=
  ∀ s', o.run s = .ok () s' → ∀ p ∈ o.places s, (s'.lockAt p).word = 0

/-- The call that keeps its lock. -/
def Leaks (o : LockOp) : Prop := o = allocOnePage ∧ s.ram.pages.freelist = 0

/-- The bytes an operation stores to, but for the distributor's own in the last two. -/
def stores : LockOp → Set ℕ
  | allocOnePage => block s.ram.pages.freelist pageSize
  | freeOnePage p => block p pageSize
  | xmallocBlkAlloc _ => ∅
  | xmallocBlkFree blk => block blk 8
  | vcpuAlloc => ∅
  | vmmioHandlerRegister _ _ _ _ _ => {x | ∃ new h,
      xmalloc sizeofVmmioInfo (Hyp.heapPart.get s) = .ok (some new) h ∧
        x ∈ block new sizeofVmmioInfo}
  | vgicdRead _ _ _ _ => ∅
  | vgicdWrite v offset val => {x | ∃ L ∈ gicdLoop offset val, ∃ i < L.n, L.sel i = true ∧
      x = L.addr v s i}

end LockOp

/-! ## What an operation leaves -/

/-- The effect of an operation on the locks, on the distributors and on memory. -/
structure LockEffect (o : LockOp) (s s' : Hyp) : Prop where
  own : ∀ p ∈ o.places s, (s'.lockAt p).word = 0
  others : ∀ p, p ∉ o.places s → (∀ a, p ≠ .dist a) → s'.lockAt p = s.lockAt p
  dists : ∀ a, (s'.vms a).vgicDist = (s.vms a).vgicDist
  core : s'.ram.core = s.ram.core
  mem : ∀ x ∉ o.stores s, (∀ a, .dist a ∈ o.places s → x ∉ block a sizeofVgicDist) →
    s'.ram.mem x = s.ram.mem x

section effect
variable {o : LockOp} {s : Hyp} {α : Type}

/-- Nothing was done. -/
theorem LockEffect.refl (h : o.places s = []) : LockEffect o s s := by
  refine ⟨fun p hp => ?_, fun _ _ _ => rfl, fun _ => rfl, rfl, fun _ _ _ => rfl⟩
  rw [h] at hp
  exact absurd hp List.not_mem_nil

/-- An operation of the page allocator. -/
theorem LockEffect.of_ram {x : Exec Ram α} (hplaces : o.places s = [.pages])
    (h : wp x (fun _ r => r.pages.lock.word = 0 ∧ r.core = s.ram.core ∧
      ∀ y ∉ o.stores s, r.mem y = s.ram.mem y) (fun _ _ => True) s.ram) :
    wp (zoom Hyp.ramPart x) (fun _ s' => LockEffect o s s') (fun _ _ => True) s := by
  rw [wp_zoom]
  refine wp_mono h ?_ fun _ _ _ => trivial
  rintro _ r ⟨hlock, hcore, hmem⟩
  refine ⟨fun p hp => ?_, fun p hp hd => ?_, fun _ => rfl, hcore, fun y hy _ => hmem y hy⟩
  · rw [hplaces, List.mem_singleton] at hp
    rw [hp]
    exact hlock
  · rw [hplaces, List.mem_singleton] at hp
    cases p with
    | pages => exact absurd rfl hp
    | heap => rfl
    | vcpus => rfl
    | vm a => rfl
    | dist a => exact absurd rfl (hd a)

/-- An operation of the block allocator. -/
theorem LockEffect.of_heap {x : Exec Heap α} (hplaces : o.places s = [.heap])
    (h : wp x (fun _ h' => h'.pool.blkLock.word = 0 ∧ h'.core = s.ram.core ∧
      ∀ y ∉ o.stores s, h'.mem y = s.ram.mem y) (fun _ _ => True) (Hyp.heapPart.get s)) :
    wp (zoom Hyp.heapPart x) (fun _ s' => LockEffect o s s') (fun _ _ => True) s := by
  rw [wp_zoom]
  refine wp_mono h ?_ fun _ _ _ => trivial
  rintro _ h' ⟨hlock, hcore, hmem⟩
  refine ⟨fun p hp => ?_, fun p hp hd => ?_, fun _ => rfl, hcore, fun y hy _ => hmem y hy⟩
  · rw [hplaces, List.mem_singleton] at hp
    rw [hp]
    exact hlock
  · rw [hplaces, List.mem_singleton] at hp
    cases p with
    | pages => rfl
    | heap => exact absurd rfl hp
    | vcpus => rfl
    | vm a => rfl
    | dist a => exact absurd rfl (hd a)

end effect

/-! ## The page allocator -/

section pages
variable {s : Hyp}

theorem allocOnePage_effect (h : s.ram.pages.freelist ≠ 0) :
    wp LockOp.allocOnePage.run (fun _ s' => LockEffect .allocOnePage s s') (fun _ _ => True) s := by
  rw [LockOp.run, wp_drop]
  refine LockEffect.of_ram rfl ?_
  simp only [allocOnePage, wp_bind, wp_get]
  refine spinLock_ends fun k => ?_
  simp only [wp_ite]
  refine ⟨fun h0 => absurd h0 h, fun _ => ?_⟩
  simp only [wp_bind, wp_load64, wp_modify, wp_get]
  refine spinUnlock_frees fun k' hk' => ?_
  simp only [wp_memset, wp_pure]
  exact ⟨hk', rfl, fun y hy => fill_of_notMem hy⟩

theorem freeOnePage_effect (p : ℕ) :
    wp (LockOp.freeOnePage p).run (fun _ s' => LockEffect (.freeOnePage p) s s')
      (fun _ _ => True) s := by
  rw [LockOp.run]
  by_cases hp : p = 0
  · rw [wp_zoom, freeOnePage, if_pos hp]
    exact LockEffect.refl (if_pos hp)
  refine LockEffect.of_ram (if_neg hp) ?_
  simp only [freeOnePage, if_neg hp, wp_bind, wp_memset, wp_get]
  refine spinLock_ends fun k => ?_
  simp only [Ram.set_pagesLock, wp_store64, wp_modify]
  refine spinUnlock_frees fun k' hk' => ⟨hk', rfl, fun y hy => ?_⟩
  have hword : y ∉ block p 8 := by
    simp only [LockOp.stores, mem_block, pageSize] at hy ⊢
    omega
  simp only [Ram.set_pagesLock]
  rw [write64, writeLe_of_notMem hword, fill_of_notMem hy]

end pages

/-! ## The block allocator -/

section heap
variable {s : Hyp}

/-- An allocation changes the pool only. -/
theorem blkAllocFrom_keeps : ∀ (left : ℕ) (bl : Option (Fin blkSliceBit)),
    Keeps (fun h : Heap => (h.core, h.mem)) (blkAllocFrom left bl) := by
  intro left
  induction left with
  | zero => exact fun bl => .pure _
  | succ left ih =>
      intro bl h
      simp only [blkAllocFrom, wp_bind, wp_get, wp_ite, wp_set, wp_pure]
      refine ⟨fun _ => rfl, fun _ => ⟨fun _ => ⟨fun _ => ih _ h, fun _ => ?_⟩, fun _ => rfl⟩⟩
      simp only [newSlice, wp_bind, wp_get]
      split
      · rfl
      · rfl

theorem blkAlloc_keeps (size : ℕ) : Keeps (fun h : Heap => (h.core, h.mem)) (blkAlloc size) := by
  refine (blkAllocFrom_keeps _ _).bind fun r => ?_
  cases r with
  | mk bl blk =>
      cases bl with
      | none => exact .pure _
      | some c => exact .ite (.throw _) (.get_bind fun _ => rfl)

theorem xmalloc_ends (size : ℕ) (h : Heap) :
    wp (xmalloc size) (fun _ h' => h'.pool.blkLock.word = 0 ∧ h'.core = h.core ∧ h'.mem = h.mem)
      (fun _ _ => True) h := by
  simp only [xmalloc, wp_bind, wp_get]
  refine spinLock_ends fun k => ?_
  refine wp_partial.mpr fun r h' hrun => ?_
  have hkeep := (blkAlloc_keeps size).of_ok hrun
  refine spinUnlock_frees fun k' hk' => ⟨hk', ?_⟩
  exact Prod.mk.inj hkeep

theorem xmallocBlkAlloc_effect (size : ℕ) :
    wp (LockOp.xmallocBlkAlloc size).run (fun _ s' => LockEffect (.xmallocBlkAlloc size) s s')
      (fun _ _ => True) s := by
  rw [LockOp.run, wp_drop]
  refine LockEffect.of_heap rfl (wp_mono (xmalloc_ends size _) ?_ fun _ _ h => h)
  rintro _ h' ⟨hlock, hcore, hmem⟩
  exact ⟨hlock, hcore, fun y _ => by rw [hmem, Hyp.get_heapPart]⟩

theorem xmallocBlkFree_effect (blk : ℕ) :
    wp (LockOp.xmallocBlkFree blk).run (fun _ s' => LockEffect (.xmallocBlkFree blk) s s')
      (fun _ _ => True) s := by
  rw [LockOp.run, wp_drop]
  by_cases hblk : blk = 0
  · rw [wp_zoom, xfree, if_pos hblk]
    exact LockEffect.refl (if_pos hblk)
  refine LockEffect.of_heap (if_neg hblk) ?_
  simp only [xfree, if_neg hblk, wp_bind, wp_get]
  refine spinLock_ends fun k => ?_
  simp only [blkFree, wp_bind, wp_get]
  cases (Heap.blkLock.set k (Hyp.heapPart.get s)).pool.typeOf blk with
  | none =>
      simp only [wp_pure]
      exact spinUnlock_frees fun k' hk' => ⟨hk', rfl, fun _ _ => rfl⟩
  | some c =>
      simp only [wp_bind, wp_set, wp_pure]
      exact spinUnlock_frees fun k' hk' => ⟨hk', rfl, fun y hy => writeLe_of_notMem hy⟩

end heap

/-! ## Virtual CPUs and regions -/

section others
variable {s : Hyp}

/-- The scan of `vcpu_alloc` changes a virtual CPU's state. -/
theorem vcpuScan_unlocks (is : List (Fin ncpu)) (t : Hyp) (h : ∃ k vs, t =
      { s with vcpusLock := k, vcpus := vs }) :
    wp (vcpuScan is) (fun _ s' => ∃ k vs, k.word = 0 ∧ s' = { s with vcpusLock := k, vcpus := vs })
      (fun _ _ => True) t := by
  induction is generalizing t with
  | nil => trivial
  | cons i is ih =>
      obtain ⟨k, vs, rfl⟩ := h
      simp only [vcpuScan, wp_bind, wp_get, wp_ite, wp_modifyVcpu]
      refine ⟨fun _ => ?_, fun _ => ih _ ⟨k, vs, rfl⟩⟩
      exact spinUnlock_frees fun k' hk' => ⟨k', _, hk', rfl⟩

theorem vcpuAlloc_effect :
    wp LockOp.vcpuAlloc.run (fun _ s' => LockEffect .vcpuAlloc s s') (fun _ _ => True) s := by
  rw [LockOp.run, wp_drop]
  simp only [vcpuAlloc, wp_bind, wp_get]
  refine spinLock_ends fun k => ?_
  refine wp_mono (vcpuScan_unlocks _ _ ⟨k, _, rfl⟩) ?_ fun _ _ h => h
  rintro _ _ ⟨k, vs, hk, rfl⟩
  refine ⟨fun p hp => ?_, fun p hp hd => ?_, fun _ => rfl, rfl, fun _ _ _ => rfl⟩
  · rw [List.mem_singleton.mp hp]
    exact hk
  · cases p with
    | vcpus => exact absurd (List.mem_singleton_self _) hp
    | dist a => exact absurd rfl (hd a)
    | _ => rfl

theorem vmmioHandlerRegister_effect (vm ipa size r w : ℕ) :
    wp (LockOp.vmmioHandlerRegister vm ipa size r w).run
      (fun _ s' => LockEffect (.vmmioHandlerRegister vm ipa size r w) s s') (fun _ _ => True) s := by
  rw [LockOp.run, wp_drop]
  by_cases hno : size = 0 ∨ vm = 0
  · rw [vmmioHandlerRegister, if_pos hno]
    exact LockEffect.refl (if_pos hno)
  have hplaces : (LockOp.vmmioHandlerRegister vm ipa size r w).places s = [.vm vm, .heap] :=
    if_neg hno
  simp only [vmmioHandlerRegister, if_neg hno, wp_bind, wp_get]
  refine spinLock_ends fun k => ?_
  rw [wp_zoom]
  refine wp_partial.mpr fun b h hrun => ?_
  have hheap : Hyp.heapPart.get ((Hyp.vmLockPart vm).set k s) = Hyp.heapPart.get s := rfl
  rw [hheap] at hrun
  obtain ⟨hlock, hcore, hmem⟩ := ok_of_wp (xmalloc_ends _ _) hrun
  cases b with
  | none => trivial
  | some new =>
      simp only [wp_bind, wp_get, wp_storeLe, wp_modifyVm]
      refine spinUnlock_frees fun k' hk' => ?_
      simp only [wp_pure]
      constructor
      · intro p hp
        rw [hplaces, List.mem_cons, List.mem_singleton] at hp
        rcases hp with rfl | rfl
        · simpa [Hyp.lockAt, Hyp.setVm] using hk'
        · exact hlock
      · intro p hp hd
        rw [hplaces, List.mem_cons, List.mem_singleton, not_or] at hp
        cases p with
        | heap => exact absurd rfl hp.2
        | vm a =>
            have hne : a ≠ vm := fun h => hp.1 (h ▸ rfl)
            simp [Hyp.lockAt, Hyp.setVm, Function.update_of_ne hne]
        | dist a => exact absurd rfl (hd a)
        | pages => rfl
        | vcpus => rfl
      · intro a
        by_cases ha : a = vm
        · simp [Hyp.setVm, ha]
        · simp [Hyp.setVm, Function.update_of_ne ha]
      · exact hcore
      · intro x hx _
        have hout : x ∉ block new sizeofVmmioInfo := fun h => hx ⟨new, _, hrun, h⟩
        have hrec := @writeVmmio_of_notMem s.ram.mem new x ⟨(s.vms vm).vmmios, ipa, size, r, w⟩ hout
        refine Eq.trans ?_ hrec
        simp [writeVmmio, hmem, Hyp.setVm]

end others

/-! ## Accesses to the distributor -/

/-- The parts with a lock or with the address of one. -/
def Hyp.lockParts (s : Hyp) : Pages × ℕ × BlkPool × Spinlock × (ℕ → Vm) :=
  (s.ram.pages, s.ram.core, s.sysBlk, s.vcpusLock, s.vms)

section gicd
variable {s : Hyp}

/-- What runs under the lock leaves it free, if it returns. -/
theorem underDistLock_frees {a : ℕ} {x : Exec Hyp Bool} {rc : ℤ} {s' : Hyp}
    (hrun : underDistLock a x s = .ok rc s') : (distLock s'.ram.mem a).word = 0 := by
  have hend : wp (underDistLock a x) (fun _ t => (distLock t.ram.mem a).word = 0)
      (fun _ _ => True) s := by
    simp only [underDistLock, wp_bind]
    refine withDistLock_ends fun l _ => wp_partial.mpr fun b t _ => ?_
    refine withDistLock_ends fun l' hl' => ?_
    rw [wp_pure, Hyp.withMem_mem, word_distLock]
    exact word_of_archSpinUnlock hl'
  exact wp_partial.mp hend rc s' hrun

/-- It writes the bytes of the distributor, and what it writes itself. -/
theorem underDistLock_mem {a : ℕ} {x : Exec Hyp Bool} {rc : ℤ} {s' : Hyp}
    (h : Keeps (fun t => t.ram.mem) x) (hrun : underDistLock a x s = .ok rc s') :
    ∀ y ∉ block a sizeofVgicDist, s'.ram.mem y = s.ram.mem y := by
  have hend : wp (underDistLock a x)
      (fun _ t => ∀ y ∉ block a sizeofVgicDist, t.ram.mem y = s.ram.mem y)
      (fun _ _ => True) s := by
    simp only [underDistLock, wp_bind]
    refine withDistLock_ends fun l _ => wp_partial.mpr fun b t ht => ?_
    have hmem : t.ram.mem = setDistLock s.ram.mem a l := h.of_ok ht
    refine withDistLock_ends fun l' _ => ?_
    rw [wp_pure]
    intro y hy
    have hout : y ∉ block (a + 16) 8 := fun hin => hy (lock_subset_dist a hin)
    rw [Hyp.withMem_mem, setDistLock_outside hout, hmem, setDistLock_outside hout]
  exact wp_partial.mp hend rc s' hrun

/-- An access under the lock of the distributor. -/
theorem LockEffect.of_dist {o : LockOp} {s' : Hyp} {v : Fin ncpu}
    (hplaces : o.places s = [.dist (s.dist v)]) (hparts : s'.lockParts = s.lockParts)
    (hfree : (distLock s'.ram.mem (s.dist v)).word = 0)
    (hmem : ∀ x ∉ o.stores s, x ∉ block (s.dist v) sizeofVgicDist → s'.ram.mem x = s.ram.mem x) :
    LockEffect o s s' := by
  obtain ⟨hpages, hcore, hheap, hvcpus, hvms⟩ : s'.ram.pages = s.ram.pages ∧
      s'.ram.core = s.ram.core ∧ s'.sysBlk = s.sysBlk ∧ s'.vcpusLock = s.vcpusLock ∧
      s'.vms = s.vms := by
    simpa only [Hyp.lockParts, Prod.mk.injEq] using hparts
  constructor
  · intro p hp
    rw [hplaces, List.mem_singleton] at hp
    rw [hp]
    exact hfree
  · intro p _ hd
    cases p with
    | pages => simp only [Hyp.lockAt, hpages]
    | heap => simp only [Hyp.lockAt, hheap]
    | vcpus => simp only [Hyp.lockAt, hvcpus]
    | vm a => simp only [Hyp.lockAt, hvms]
    | dist a => exact absurd rfl (hd a)
  · intro a
    rw [hvms]
  · exact hcore
  · intro x hx hd
    exact hmem x hx (hd (s.dist v) (by rw [hplaces]; exact List.mem_singleton_self _))

theorem onDist_ends {v : Fin ncpu} {x : ℕ → Exec Hyp Bool} {Q : ℤ → Hyp → Prop}
    (h : (s.vcpus v).vm ≠ 0 → s.dist v ≠ 0 →
      wp (underDistLock (s.dist v) (x (s.dist v))) Q (fun _ _ => True) s) :
    wp (onDist v x) Q (fun _ _ => True) s := by
  simp only [onDist, derefVm, wp_bind, wp_get, wp_ite, wp_throw, wp_pure, implies_true, true_and]
  exact h

theorem distPlace_of_ne {v : Fin ncpu} (hvm : (s.vcpus v).vm ≠ 0) (hdist : s.dist v ≠ 0) :
    LockOp.distPlace s v = [.dist (s.dist v)] :=
  if_neg fun h => h.elim hvm hdist

theorem vgicdRead_effect (isen : BitVec 32) (v : Fin ncpu) (offset : ℕ) (reg : Option (Fin 31)) :
    wp (LockOp.vgicdRead isen v offset reg).run
      (fun _ s' => LockEffect (.vgicdRead isen v offset reg) s s') (fun _ _ => True) s := by
  rw [LockOp.run, wp_drop]
  refine onDist_ends (x := fun a => vgicdReadReg isen v a offset reg) fun hvm hdist => ?_
  have hreg : Keeps Hyp.lockParts (vgicdReadReg isen v (s.dist v) offset reg) :=
    keeps_vgicdReadReg (fun _ _ _ _ => rfl) isen _ offset
  have hmem : Keeps (fun t => t.ram.mem) (vgicdReadReg isen v (s.dist v) offset reg) :=
    keeps_vgicdReadReg (fun _ _ _ _ => rfl) isen _ offset
  refine wp_partial.mpr fun rc s' hrun => ?_
  have hout := underDistLock_mem hmem hrun
  have hparts := keeps_underDistLock (fun _ _ => rfl) (s.dist v) hreg
  exact .of_dist (distPlace_of_ne hvm hdist) (hparts.of_ok hrun) (underDistLock_frees hrun)
    fun x _ hx => hout x hx

/-- A write stores to the records of its register, which are apart from the distributor. -/
theorem vgicdWrite_effect (v : Fin ncpu) (offset : ℕ) (val : BitVec 64)
    (hcore : s.ram.core < 2 ^ 31)
    (hlock : s.dist v ≠ 0 → (distLock s.ram.mem (s.dist v)).word = 0)
    (hapart : s.dist v ≠ 0 → Disjoint ((LockOp.vgicdWrite v offset val).stores s)
      (block (s.dist v) sizeofVgicDist)) :
    wp (LockOp.vgicdWrite v offset val).run
      (fun _ s' => LockEffect (.vgicdWrite v offset val) s s') (fun _ _ => True) s := by
  rw [LockOp.run, wp_drop]
  refine onDist_ends (x := fun a => vgicdWriteReg v a offset val) fun hvm hdist => ?_
  refine wp_partial.mpr fun rc s' hunder => ?_
  have F : VgicFree s v := ⟨hvm, hdist, hcore, hlock hdist⟩
  have hrun : vgicdWrite v offset val s = .ok rc s' := (vgicdWrite_eq F).trans hunder
  have hreg : Keeps Hyp.lockParts (vgicdWriteReg v (s.dist v) offset val) :=
    keeps_vgicdWriteReg (fun _ _ _ => rfl) v _ offset val
  have hparts := keeps_underDistLock (fun _ _ => rfl) (s.dist v) hreg
  refine .of_dist (distPlace_of_ne hvm hdist) (hparts.of_ok hunder) (underDistLock_frees hunder) ?_
  intro x hx hown
  cases hL : gicdLoop offset val with
  | some L =>
      have hstores : ∀ i < L.n, L.sel i = true → L.addr v s i ∈
          (LockOp.vgicdWrite v offset val).stores s := fun i hi hsel => ⟨L, hL, i, hi, hsel, rfl⟩
      have hout : L.KeepsDist v s := RegLoop.keepsDist_of_out fun i hi hsel hin =>
        Set.disjoint_left.mp (hapart hdist) (hstores i hi hsel) hin
      obtain ⟨t, ht, W⟩ := vgicdWrite_loop F hL hout
      rw [ht] at hrun
      cases hrun
      rw [W.mem x fun hx => hown (lock_subset_dist _ hx)]
      refine scatter_of_notMem fun i hi hsel heq => hx ?_
      rw [heq]
      exact hstores i hi hsel
  | none =>
      obtain ⟨r, m, ht, hm⟩ := vgicdWrite_none F hL
      rw [ht] at hrun
      cases hrun
      exact hm hown

end gicd

/-! ## One operation -/

section one
variable {o : LockOp} {s s' : Hyp}

/-- **Every operation but one gives its locks back.** -/
theorem LockOp.balanced (h : ¬ o.Leaks s) : o.Balanced s := by
  have hown : wp o.run (fun _ s' => ∀ p ∈ o.places s, (s'.lockAt p).word = 0)
      (fun _ _ => True) s := by
    have hweaken : wp o.run (fun _ s' => LockEffect o s s') (fun _ _ => True) s →
        wp o.run (fun _ s' => ∀ p ∈ o.places s, (s'.lockAt p).word = 0) (fun _ _ => True) s :=
      fun hE => wp_mono hE (fun _ _ E => E.own) fun _ _ h => h
    cases o with
    | allocOnePage => exact hweaken (allocOnePage_effect fun h0 => h ⟨rfl, h0⟩)
    | freeOnePage p => exact hweaken (freeOnePage_effect p)
    | xmallocBlkAlloc size => exact hweaken (xmallocBlkAlloc_effect size)
    | xmallocBlkFree blk => exact hweaken (xmallocBlkFree_effect blk)
    | vcpuAlloc => exact hweaken vcpuAlloc_effect
    | vmmioHandlerRegister vm ipa size r w =>
        exact hweaken (vmmioHandlerRegister_effect vm ipa size r w)
    | vgicdRead isen v offset reg => exact hweaken (vgicdRead_effect isen v offset reg)
    | vgicdWrite v offset val =>
        -- wherever the write stores, the lock is written last
        rw [run, wp_drop]
        refine onDist_ends (x := fun a => vgicdWriteReg v a offset val) fun hvm hdist => ?_
        refine wp_partial.mpr fun rc t ht p hp => ?_
        rw [places, distPlace_of_ne hvm hdist, List.mem_singleton] at hp
        rw [hp]
        exact underDistLock_frees ht
  exact fun s' hrun => ok_of_wp hown hrun

/-- `alloc_one_page` with no free page returns, and the core holds the lock. -/
theorem allocOnePage_leaks (hfree : s.ram.pages.lock.word = 0) (h : s.ram.pages.freelist = 0) :
    ∃ s', LockOp.allocOnePage.run s = .ok () s' ∧
      s'.ram.core = s.ram.core ∧ s'.ram.pages.lock = .heldBy s.ram.core := by
  have hrun : wp LockOp.allocOnePage.run (fun _ (s' : Hyp) => s'.ram.core = s.ram.core ∧
      s'.ram.pages.lock = .heldBy s.ram.core) (fun _ _ => False) s := by
    rw [LockOp.run, wp_drop, wp_zoom]
    simp only [allocOnePage, wp_bind, wp_get]
    rw [wp_spinLock hfree]
    simp only [wp_ite]
    exact ⟨fun _ => ⟨rfl, rfl⟩, fun hne => absurd h hne⟩
  obtain ⟨_, s', hs', hlock⟩ := exists_ok_of_wp hrun
  exact ⟨s', hs', hlock⟩

/-- Then the next call stops. -/
theorem allocOnePage_held (h : s.ram.pages.lock = .heldBy s.ram.core) :
    LockOp.allocOnePage.run s =
      .error (.abort "spinlock - %s is alredy held by core: %d") s := by
  refine eq_of_wp (y := throw _) fun Q E hE => ?_
  have hlock : archSpinLock (Hyp.ramPart.get s).core (Ram.pagesLock.get (Hyp.ramPart.get s)) =
      .error (.abort "spinlock - %s is alredy held by core: %d") := by
    rw [Ram.get_pagesLock, Hyp.get_ramPart, h]
    exact archSpinLock_heldBy _
  rw [LockOp.run, wp_drop, wp_zoom]
  simp only [allocOnePage, wp_bind, wp_get, spinLock, hlock, wp_throw]
  exact hE

end one

/-! ## Runs of operations -/

/-- A distributor. -/
def Hyp.IsDist (s : Hyp) (a : ℕ) : Prop := a ≠ 0 ∧ ∃ vm, (s.vms vm).vgicDist = a

/-- All locks are free, and the distributors share no byte. -/
structure LocksFree (s : Hyp) : Prop where
  core : s.ram.core < 2 ^ 31
  free : ∀ p, (∀ a, p ≠ .dist a) → (s.lockAt p).word = 0
  dist : ∀ a, s.IsDist a → (distLock s.ram.mem a).word = 0
  apart : ∀ a b, s.IsDist a → s.IsDist b → a ≠ b →
    Disjoint (block a sizeofVgicDist) (block b sizeofVgicDist)

/-- The bytes that an operation stores to are none of the distributors'. -/
def LockOp.Apart (o : LockOp) (s : Hyp) : Prop :=
  ∀ a, s.IsDist a → Disjoint (o.stores s) (block a sizeofVgicDist)

/-- Each operation of the run meets the condition. -/
def Meets : List LockOp → Hyp → Prop
  | [], _ => True
  | o :: os, s => ¬ o.Leaks s ∧ o.Apart s ∧ ∀ s', o.run s = .ok () s' → Meets os s'

/-- Each operation of the run finds its locks free. -/
def FindFree : List LockOp → Hyp → Prop
  | [], _ => True
  | o :: os, s => o.Free s ∧ ∀ s', o.run s = .ok () s' → FindFree os s'

section runs
variable {o : LockOp} {s s' : Hyp}

/-- The lock of a distributor that an operation takes. -/
theorem LockOp.isDist_of_place {a : ℕ} (h : .dist a ∈ o.places s) : s.IsDist a := by
  have hdist : ∀ v, LockPlace.dist a ∈ distPlace s v → s.IsDist a := by
    intro v hv
    rw [distPlace] at hv
    split at hv
    · exact absurd hv List.not_mem_nil
    case isFalse hno =>
      have ha : a = s.dist v := by simpa using hv
      rw [ha]
      exact ⟨fun h0 => hno (Or.inr h0), _, rfl⟩
  cases o with
  | vgicdRead isen v offset reg => exact hdist v h
  | vgicdWrite v offset val => exact hdist v h
  | _ =>
      -- the other locks are not distributors'
      simp only [places] at h
      try split at h
      all_goals simp at h

theorem LocksFree.of_place (L : LocksFree s) : o.Free s := by
  intro p hp
  cases p with
  | dist a => exact L.dist a (LockOp.isDist_of_place hp)
  | _ => exact L.free _ fun a h => by cases h

/-- The effect of an operation that meets the condition. -/
theorem LocksFree.effect (L : LocksFree s) (hleak : ¬ o.Leaks s) (hapart : o.Apart s) :
    wp o.run (fun _ s' => LockEffect o s s') (fun _ _ => True) s := by
  cases o with
  | allocOnePage => exact allocOnePage_effect fun h0 => hleak ⟨rfl, h0⟩
  | freeOnePage p => exact freeOnePage_effect p
  | xmallocBlkAlloc size => exact xmallocBlkAlloc_effect size
  | xmallocBlkFree blk => exact xmallocBlkFree_effect blk
  | vcpuAlloc => exact vcpuAlloc_effect
  | vmmioHandlerRegister vm ipa size r w => exact vmmioHandlerRegister_effect vm ipa size r w
  | vgicdRead isen v offset reg => exact vgicdRead_effect isen v offset reg
  | vgicdWrite v offset val =>
      have hdist : s.dist v ≠ 0 → s.IsDist (s.dist v) := fun h0 => ⟨h0, _, rfl⟩
      exact vgicdWrite_effect v offset val L.core (fun h0 => L.dist _ (hdist h0))
        fun h0 => hapart _ (hdist h0)

/-- **Step**: all locks stay free. -/
theorem LocksFree.step (L : LocksFree s) (hapart : o.Apart s) (E : LockEffect o s s') :
    LocksFree s' := by
  have hdist : ∀ a, s'.IsDist a → s.IsDist a := by
    rintro a ⟨ha, vm, hvm⟩
    exact ⟨ha, vm, (E.dists vm).symm.trans hvm⟩
  constructor
  · rw [E.core]
    exact L.core
  · intro p hp
    by_cases hin : p ∈ o.places s
    · exact E.own p hin
    · rw [E.others p hin hp]
      exact L.free p hp
  · intro a ha
    by_cases hin : .dist a ∈ o.places s
    · exact E.own _ hin
    · rw [distLock_of_eqOn (m := s.ram.mem)]
      · exact L.dist a (hdist a ha)
      · intro x hx
        have hxa : x ∈ block a sizeofVgicDist := lock_subset_dist a hx
        refine E.mem x (fun hs => Set.disjoint_left.mp (hapart a (hdist a ha)) hs hxa) ?_
        intro b hb hxb
        have hne : a ≠ b := fun h => hin (h ▸ hb)
        exact Set.disjoint_left.mp
          (L.apart a b (hdist a ha) (LockOp.isDist_of_place hb) hne) hxa hxb
  · exact fun a b ha hb => L.apart a b (hdist a ha) (hdist b hb)

/-- **Run**: by induction on the operations. -/
theorem LocksFree.findFree : ∀ {os : List LockOp} {s : Hyp}, LocksFree s → Meets os s →
    FindFree os s
  | [], _, _, _ => trivial
  | o :: os, s, L, ⟨hleak, hapart, hos⟩ => by
      refine ⟨L.of_place, fun s' hrun => ?_⟩
      have E := wp_partial.mp (L.effect hleak hapart) () s' hrun
      exact LocksFree.findFree (L.step hapart E) (hos s' hrun)

/-- An operation that keeps its lock stops the next one. -/
theorem not_findFree (hfree : o.Free s) (h : o.Leaks s) :
    ¬ FindFree [o, .allocOnePage] s := by
  intro hrun
  obtain ⟨rfl, hempty⟩ := h
  obtain ⟨s', hs', _, hheld⟩ :=
    allocOnePage_leaks (hfree .pages (List.mem_singleton_self _)) hempty
  have hword : s'.ram.pages.lock.word = 0 := (hrun.2 s' hs').1 .pages (List.mem_singleton_self _)
  rw [hheld] at hword
  exact absurd hword (by decide : (1 : BitVec 32) ≠ 0)

end runs

/-! ## A machine with no free page -/

/-- No page is free, and all locks are. -/
def noPages : Hyp := zeroHyp ⟨0, fun _ => 0, ⟨.leftBy 0, 0⟩⟩ (freshPool (.leftBy 0) 0x1000)

theorem locksFree_noPages : LocksFree noPages where
  core := by decide
  free p hp := by
    cases p with
    | dist a => exact absurd rfl (hp a)
    | _ => rfl
  dist a ha := absurd ha.2.choose_spec.symm ha.1
  apart a b ha := absurd ha.2.choose_spec.symm ha.1

/-- No machine has a distributor. -/
theorem apart_of_vms {o : LockOp} {s : Hyp} (h : s.vms = noPages.vms) : o.Apart s := by
  rintro a ⟨hne, vm, hvm⟩
  rw [h] at hvm
  exact absurd hvm.symm hne

end Xhyper
