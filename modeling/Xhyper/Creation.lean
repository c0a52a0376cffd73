import Xhyper.GuestPages
import Mathlib.Algebra.Order.BigOperators.Group.Finset

/-!
# Machines that can be made

Making a machine takes blocks of a few classes from the heap and pages from the free list.  It
returns when these are there, the images are laid out as the loader wants them, and no lock is
held.

## Main definitions

* `BlkPool.RoomFor` — the heap has room for blocks of some classes.
* `Able` — a state in which such blocks can be taken.
* `buildGuestVm_returns` — making a machine returns.
-/

namespace Xhyper

open Memory Prog

/-! ## Room on the heap -/

/-- Every class has at most one slice, and room in it for its blocks among those of the
classes `l`. -/
structure BlkPool.RoomFor (p : BlkPool) (l : List (Fin blkSliceBit)) : Prop where
  one : ∀ c, (p.blkList c).sliceCnt ≤ if c.val < 3 then 0 else 1
  first : ∀ c, (p.blkList c).sliceAddr = 0 →
    (p.blkList c).sliceCnt = 0 ∧ (p.blkList c).sliceOffset = 0
  room : ∀ c, (p.blkList c).sliceOffset + l.count c * 2 ^ c.val ≤ 1024

section room
variable {start : ℕ} {h h' : Heap} {live : List ℕ} {c : Fin blkSliceBit} {l : List (Fin blkSliceBit)}

/-- With one slice for each class, a slice is left. -/
theorem BlkPool.RoomFor.slices (R : h.pool.RoomFor l) (U : Unfreed start h live) :
    h.pool.sliceCnt ≤ 7 := by
  rw [← U.slice_sum]
  calc ∑ c, (h.pool.blkList c).sliceCnt
      ≤ ∑ c : Fin blkSliceBit, (if c.val < 3 then 0 else 1) := Finset.sum_le_sum fun c _ => R.one c
    _ = 7 := by decide

/-- One class has served a request from its slice, and the others are as before. -/
theorem BlkPool.RoomFor.serve {p p' : BlkPool} (R : p.RoomFor (c :: l))
    (hsame : ∀ c', c' ≠ c → p'.blkList c' = p.blkList c') (hc : 3 ≤ c.val)
    (hone : (p'.blkList c).sliceCnt ≤ 1) (haddr : (p'.blkList c).sliceAddr ≠ 0)
    (hoff : (p'.blkList c).sliceOffset ≤ (p.blkList c).sliceOffset + 2 ^ c.val) :
    p'.RoomFor l := by
  refine ⟨fun c' => ?_, fun c' h0 => ?_, fun c' => ?_⟩
  · by_cases hcc : c' = c
    · rw [hcc, if_neg (by omega)]
      exact hone
    · rw [hsame c' hcc]
      exact R.one c'
  · by_cases hcc : c' = c
    · rw [hcc] at h0
      exact absurd h0 haddr
    · rw [hsame c' hcc] at h0 ⊢
      exact R.first c' h0
  · have hroom := R.room c'
    by_cases hcc : c' = c
    · subst hcc
      rw [List.count_cons_self, Nat.succ_mul] at hroom
      omega
    · rw [List.count_cons_of_ne (Ne.symm hcc)] at hroom
      rw [hsame c' hcc]
      exact hroom

/-- The search of an allocation takes the block from the first class it tries. -/
theorem blkAllocFrom_room {left : ℕ} (hleft : left < 7) (hc : c.val = 9 - left)
    (U : Unfreed start h live) (R : h.pool.RoomFor (c :: l)) (bl : Option (Fin blkSliceBit)) :
    wp (blkAllocFrom (left + 1) bl) (fun _ h' => h'.pool.RoomFor l) (fun _ _ => True) h := by
  have hslices := R.slices U
  have hroom := R.room c
  have hone := R.one c
  have hsize := U.blk_size c
  have hhead : ¬ (h.pool.blkList c).freeHead ≠ 0 := not_not.mpr (U.noFree c)
  have hc' : (⟨9 - left, Nat.lt_of_le_of_lt (Nat.sub_le _ _) (by decide)⟩ : Fin blkSliceBit) = c :=
    Fin.ext hc.symm
  have hpos : 0 < 2 ^ c.val := Nat.two_pow_pos _
  rw [List.count_cons_self, Nat.succ_mul] at hroom
  rw [if_neg (by omega)] at hone
  have hcut : ∀ a b : ℕ, a + 2 ^ c.val ≤ b → (a + 2 ^ c.val) % 2 ^ 64 ≤ b :=
    fun a b hab => (Nat.mod_le _ _).trans hab
  simp only [blkAllocFrom, wp_bind, wp_get, hc', if_neg hhead]
  by_cases haddr : (h.pool.blkList c).sliceAddr = 0
  · obtain ⟨hcnt, hoff⟩ := R.first c haddr
    have hs : h.pool.sliceCnt < blkSliceNum := by
      simp only [blkSliceNum]
      omega
    have hne : (h.pool.poolStart + h.pool.sliceCnt * blkSliceSize) % 2 ^ 64 ≠ 0 := by
      have hbound := U.region.bound
      have hpos := U.region.ne_zero
      rw [U.start_eq]
      simp only [blkSliceSize, configBlkSize] at *
      omega
    rw [if_pos (Or.inl haddr), if_neg hs.ne]
    simp only [newSlice, carve, wp_bind, wp_get, hs, dite_true, wp_set, wp_pure]
    refine R.serve (fun c' hcc => ?_) (by omega) ?_ ?_ ?_
    · rw [setList_of_ne _ _ hcc]
      exact Function.update_of_ne hcc _ _
    · rw [setList_self, Function.update_self]
      simp only [BlkList.cut, BlkList.start]
      omega
    · rw [setList_self, Function.update_self]
      exact hne
    · rw [setList_self, Function.update_self]
      simp only [BlkList.cut, BlkList.start, hsize]
      exact hcut _ _ (by omega)
  · have hnot : ¬ ((h.pool.blkList c).sliceAddr = 0 ∨
        (h.pool.blkList c).sliceOffset = blkSliceSize) := by
      simp only [blkSliceSize]
      omega
    rw [if_neg hnot]
    simp only [carve, wp_bind, wp_get, wp_set, wp_pure]
    refine R.serve (fun c' hcc => setList_of_ne _ _ hcc) (by omega) ?_ ?_ ?_
    · rw [setList_self]
      exact hone
    · rw [setList_self]
      exact haddr
    · rw [setList_self]
      simp only [BlkList.cut, hsize]
      exact hcut _ _ le_rfl

/-- The class that serves `size` bytes first. -/
def ofClass (size : ℕ) (c : Fin blkSliceBit) : Prop :=
  blkSize2Type (if size < 8 then 8 else size) = c.val

instance (size : ℕ) (c : Fin blkSliceBit) : Decidable (ofClass size c) :=
  inferInstanceAs (Decidable (_ = _))

/-- **An allocation with room** returns a new block, and leaves room for the others. -/
theorem xmalloc_room (U : Unfreed start h live) (R : h.pool.RoomFor (c :: l)) {size : ℕ}
    (h32 : size < 2 ^ 32) (hc : ofClass size c) (hlock : h.pool.blkLock.word = 0) :
    wp (xmalloc size) (fun r h' => (h'.pool.blkLock.word = 0 ∧ h'.pool.RoomFor l) ∧
      h'.mem = h.mem ∧ h'.core = h.core ∧
      ∃ b, r = some b ∧ Unfreed start h' (b :: live) ∧ block b size ⊆ block start configBlkSize)
      (fun _ _ => False) h := by
  have h3 := (le_of_blkSize2Type (if size < 8 then 8 else size)
    (by by_cases h8 : size < 8 <;> simp only [h8, if_true, if_false] <;> omega)
    (by by_cases h8 : size < 8 <;> simp only [h8, if_true, if_false] <;> omega)).1
  rw [hc] at h3
  have hlt : c.val < 10 := c.isLt
  have hslices := R.slices U
  have hserves : h.pool.HasRoom size :=
    ⟨c, le_of_eq hc, Or.inr (Or.inl (by simp only [blkSliceNum]; omega))⟩
  have hreturns : wp (xmalloc size) (fun r h' => h'.pool.blkLock.word = 0 ∧ r ≠ none)
      (fun _ _ => False) h := by
    refine wp_mono (xmalloc_spec U h32) ?_ fun e _ he => (he hlock).2 hserves
    rintro r h' ⟨hfree, ⟨_, _, _, _, hbig⟩ | ⟨b, rfl, _⟩⟩
    · rw [hc] at hbig
      omega
    · exact ⟨hfree, by simp⟩
  have hroom : wp (xmalloc size) (fun _ h' => h'.pool.RoomFor l) (fun _ _ => True) h := by
    simp only [xmalloc, wp_bind, wp_get]
    refine spinLock_ends fun k => ?_
    have hleft : blkSliceBit - blkSize2Type (if size < 8 then 8 else size) = (9 - c.val) + 1 := by
      rw [hc]
      simp only [blkSliceBit]
      omega
    simp only [blkAlloc, wp_bind, hleft]
    have Uk : Unfreed start (Heap.blkLock.set k h) live := U.withLock k
    refine wp_mono (blkAllocFrom_room (c := c) (by omega) (by omega) Uk ⟨R.one, R.first, R.room⟩ _)
      ?_ fun _ _ _ => trivial
    rintro ⟨bl, blk⟩ h₁ R₁
    cases bl with
    | none =>
        simp only [wp_pure]
        exact spinUnlock_ends fun _ => ⟨R₁.one, R₁.first, R₁.room⟩
    | some d =>
        simp only [wp_ite, wp_abort, wp_bind, wp_get, wp_set, wp_pure]
        refine ⟨fun _ => trivial, fun _ => spinUnlock_ends fun _ => ?_⟩
        have hkeep : ∀ {β : Type} (f : BlkList → β), f (h₁.pool.blkList d).use =
            f (h₁.pool.blkList d) → ∀ c', f ((h₁.setList d (h₁.pool.blkList d).use).pool.blkList c') =
            f (h₁.pool.blkList c') := fun f hf => setList_field f hf
        refine ⟨fun c' => ?_, fun c' => ?_, fun c' => ?_⟩
        · exact (hkeep BlkList.sliceCnt rfl c').symm ▸ R₁.one c'
        · intro h0
          have h0' := (hkeep BlkList.sliceAddr rfl c').symm.trans h0
          obtain ⟨hcnt, hoff⟩ := R₁.first c' h0'
          exact ⟨(hkeep BlkList.sliceCnt rfl c').trans hcnt,
            (hkeep BlkList.sliceOffset rfl c').trans hoff⟩
        · have hoff := hkeep BlkList.sliceOffset rfl c'
          have hr := R₁.room c'
          simp only [Heap.set_blkLock]
          omega
  refine wp_mono (wp_total hreturns (wp_and hroom (xmalloc_unfreed U h32))) ?_ fun _ _ h => h
  rintro r h' ⟨⟨hfree, hne⟩, R', hmem, hcore, ⟨rfl, _⟩ | ⟨b, hb, _, U', hin⟩⟩
  · exact absurd rfl hne
  · exact ⟨⟨hfree, R'⟩, hmem, hcore, b, hb, U', hin⟩

end room

/-! ## Taking blocks and virtual CPUs -/

/-- Blocks of the classes `l` can be taken from the heap, and no global lock is held. -/
structure Able (start : ℕ) (spis : ℤ) (l : List (Fin blkSliceBit)) (s : Hyp) : Prop where
  heap : ∃ live, Unfreed start (Hyp.heapPart.get s) live
  room : s.sysBlk.RoomFor l
  heap_free : s.sysBlk.blkLock.word = 0
  vcpus_free : s.vcpusLock.word = 0
  spis : s.gicMaxSpi = spis

section able
variable {start : ℕ} {spis : ℤ} {l : List (Fin blkSliceBit)} {c : Fin blkSliceBit} {s s' : Hyp}
  {E : Fault → Hyp → Prop} {vm : ℕ}

theorem Able.congr (A : Able start spis l s) (hpool : s'.sysBlk = s.sysBlk)
    (hvcpus : s'.vcpusLock.word = 0) (hspis : s'.gicMaxSpi = s.gicMaxSpi) :
    Able start spis l s' := by
  obtain ⟨live, U⟩ := A.heap
  refine ⟨⟨live, U.congr hpool⟩, ?_, ?_, hvcpus, hspis.trans A.spis⟩
  · rw [hpool]
    exact A.room
  · rw [hpool]
    exact A.heap_free

theorem Able.heapHas (A : Able start spis l s) : ∃ live, HeapHas start s live := by
  obtain ⟨live, U⟩ := A.heap
  exact ⟨live, live, List.Subset.refl _, U⟩

/-- Memory does not matter. -/
theorem Able.withRam (A : Able start spis l s) (r : Ram) : Able start spis l { s with ram := r } :=
  A.congr rfl A.vcpus_free rfl

/-- A block from the heap. -/
theorem Able.xmalloc (A : Able start spis (c :: l) s) {size : ℕ} {Q : Option ℕ → Hyp → Prop}
    (h32 : size < 2 ^ 32) (hc : ofClass size c)
    (hQ : ∀ b s', b ≠ 0 → Able start spis l s' → SameRecords s s' → s'.ram = s.ram →
      block b size ⊆ block start configBlkSize → Q (some b) s') :
    wp (zoom Hyp.heapPart (xmalloc size)) Q E s := by
  obtain ⟨live, U⟩ := A.heap
  rw [wp_zoom]
  refine wp_mono (xmalloc_room U A.room h32 hc A.heap_free) ?_ fun _ _ h => h.elim
  rintro r h' ⟨⟨hfree, R⟩, hmem, hcore, b, rfl, U', hin⟩
  refine hQ b _ (U'.ne_zero List.mem_cons_self) ⟨⟨_, U'.congr rfl⟩, R, hfree, A.vcpus_free, A.spis⟩
    ⟨rfl, rfl⟩ ?_ hin
  simp only [Hyp.set_heapPart, hmem, hcore, Hyp.get_heapPart]

/-- A virtual CPU's interrupts. -/
theorem Able.createVgicCpu {vcpuid : ℕ} (A : Able start spis (8 :: l) s) :
    wp (createVgicCpu vcpuid) (fun _ s' => Able start spis l s' ∧ SameRecords s s') E s := by
  simp only [Xhyper.createVgicCpu, wp_bind]
  refine A.xmalloc (by decide) (by decide) fun b t _ At hsame _ _ => ?_
  simp only [wp_bind, wp_storeLe, wp_pure]
  have hloop : ∀ (f : ℕ → ℕ) (Q : ℕ → Hyp → Prop) (u : Hyp),
      Able start spis l u ∧ SameRecords s u →
      (∀ k u', Able start spis l u' ∧ SameRecords s u' → Q k u') →
      wp (forRange 1 0 gicNsgi fun i => initIrqConfig (1 <<< vcpuid) (f i)) Q E u := by
    intro f Q u hu hQ
    refine wp_forRange (fun _ u' => Able start spis l u' ∧ SameRecords s u') (by decide) ?_ hu
      fun k u' _ h => hQ _ u' h
    rintro k u' _ ⟨A', hs'⟩
    simp only [initIrqConfig, wp_bind, wp_storeLe]
    exact ⟨A'.withRam _, hs'.vms, hs'.vcpus⟩
  refine hloop (sgiAddr b) _ _ ⟨At.withRam _, hsame.vms, hsame.vcpus⟩ fun _ u hu => ?_
  exact hloop (ppiAddr b) _ _ hu fun _ u' hu' => hu'

/-- The scan finds an unused virtual CPU and gives the lock back. -/
theorem vcpuScan_returns {is : List (Fin ncpu)} {Q : Option (Fin ncpu) → Hyp → Prop}
    (hfree : ∃ i ∈ is, (s.vcpus i).state = .unused) (hlock : s.vcpusLock = .heldBy s.ram.core)
    (hQ : ∀ i v, Q (some i) { s.setVcpu i v with vcpusLock := .leftBy s.ram.core }) :
    wp (vcpuScan is) Q E s := by
  induction is with
  | nil =>
      obtain ⟨i, hi, _⟩ := hfree
      exact absurd hi List.not_mem_nil
  | cons i rest ih =>
      simp only [vcpuScan, wp_bind, wp_get, wp_ite, wp_modifyVcpu]
      refine ⟨fun _ => ?_, fun hused => ih ?_⟩
      · rw [wp_spinUnlock hlock]
        simp only [wp_pure]
        exact hQ i _
      · obtain ⟨j, hj, hstate⟩ := hfree
        rcases List.mem_cons.mp hj with rfl | hj
        · exact absurd hstate hused
        · exact ⟨j, hj, hstate⟩

/-- **`create_vcpu`** returns when a virtual CPU is left. -/
theorem Able.createVcpu {vcpuid : ℕ} {entry : BitVec 64} (A : Able start spis (8 :: l) s)
    (hvm : vm ≠ 0) (hfree : ∃ i, (s.vcpus i).state = .unused) :
    wp (createVcpu vm vcpuid entry) (fun _ s' => Able start spis l s' ∧ s'.vms = s.vms) E s := by
  simp only [Xhyper.createVcpu, vcpuAlloc, wp_bind, wp_get]
  rw [wp_spinLock (by simpa using A.vcpus_free)]
  obtain ⟨i, hi⟩ := hfree
  refine vcpuScan_returns ⟨i, List.mem_finRange i, hi⟩ rfl fun j v => ?_
  simp only [wp_bind, wp_get, wp_modifyVcpu]
  have hrest : ∀ t : Hyp, Able start spis (8 :: l) t → t.vms = s.vms →
      wp (Xhyper.createVgicCpu vcpuid) (fun b t₁ => wp (modifyVcpu j fun v => { v with vgicCpu := b })
        (fun _ t₂ => wp (modifyVcpu j fun v => { v with
            gicContext := { v.gicContext with vmcr := (t₂.cores t₂.ram.core).ichVmcrEl2 } })
          (fun _ s' => Able start spis l s' ∧ s'.vms = s.vms) E t₂) E t₁) E t := by
    intro t At ht
    refine wp_mono At.createVgicCpu ?_ fun _ _ h => h
    rintro b t₁ ⟨A₁, hs₁⟩
    simp only [wp_modifyVcpu]
    exact ⟨A₁.congr rfl A₁.vcpus_free rfl, hs₁.vms.trans ht⟩
  have hable : ∀ t : Hyp, t.sysBlk = s.sysBlk → t.vcpusLock.word = 0 → t.gicMaxSpi = s.gicMaxSpi →
      Able start spis (8 :: l) t := fun t => A.congr
  by_cases h0 : vcpuid = 0
  · rw [if_pos h0, wp_bind, wp_derefVm hvm]
    simp only [wp_bind, wp_get, wp_pure, wp_modifyVcpu]
    exact hrest _ (hable _ rfl rfl rfl) rfl
  · simp only [if_neg h0, wp_bind, wp_get, wp_pure]
    exact hrest _ (hable _ rfl rfl rfl) rfl

/-- The next virtual CPU. -/
theorem Able.addVcpu {cpu : ℕ} {entry : BitVec 64} (A : Able start spis (8 :: l) s)
    (hvm : vm ≠ 0) (hcpu : cpu < ncpu) (hfree : ∃ i, (s.vcpus i).state = .unused) :
    wp (addVcpu vm cpu entry) (fun _ s' => Able start spis l s' ∧
      (s'.vms vm).vmLock = (s.vms vm).vmLock) (fun _ _ => False) s := by
  rw [Xhyper.addVcpu, wp_bind]
  refine wp_mono (A.createVcpu hvm hfree) ?_ fun _ _ h => h
  rintro i t ⟨At, ht⟩
  rw [dif_pos hcpu, wp_modifyVm]
  refine ⟨At.congr rfl At.vcpus_free rfl, ?_⟩
  simp only [Hyp.setVm, Function.update_self, ht]

/-- **`vm_init`** returns when there are virtual CPUs enough. -/
theorem Able.vmInit {image : Guest} {cfg : VmConfig} {base : ℕ}
    (A : Able start spis (List.replicate cfg.slots 8 ++ l) s) (hvm : vm ≠ 0)
    (hname : image.guestName.length < vmNameLen) (hu : Used s base)
    (hfit : base + cfg.slots ≤ ncpu) :
    wp (vmInit vm image cfg) (fun _ s' => Able start spis l s' ∧
      (s'.vms vm).vmLock.word = 0) (fun _ _ => False) s := by
  obtain ⟨live, H⟩ := A.heapHas
  rw [Xhyper.vmInit, wp_bind, wp_modifyVm, wp_bind, setVmName, if_pos hname]
  simp only [wp_bind, wp_modifyVm, wp_pure]
  generalize ht : Hyp.setVm _ vm _ = t
  have hvms : ∀ a, a ≠ vm → t.vms a = s.vms a := by
    intro a ha
    simp only [← ht, Hyp.setVm, Function.update_of_ne ha]
  have hvcpus : t.vcpus = s.vcpus := by rw [← ht]; rfl
  have hpool : t.sysBlk = s.sysBlk := by rw [← ht]; rfl
  have hspis : t.gicMaxSpi = s.gicMaxSpi := by rw [← ht]; rfl
  have hglobal : t.vcpusLock = s.vcpusLock := by rw [← ht]; rfl
  have hnone : ∀ k, (t.vms vm).vcpus k = none := by
    intro k
    simp only [← ht, Hyp.setVm, Function.update_self, zeroVm]
  have hlock : (t.vms vm).vmLock.word = 0 := by
    simp only [← ht, Hyp.setVm, Function.update_self, zeroVm]
    rfl
  clear ht
  have At : Able start spis (List.replicate cfg.slots 8 ++ l) t := by
    refine A.congr hpool ?_ hspis
    rw [hglobal]
    exact A.vcpus_free
  -- as long as the machine's run is not complete, a virtual CPU is unused
  have hleft : ∀ {n : ℕ} {t' : Hyp}, Run s t' vm base n .alloced → n < cfg.slots →
      ∃ i, (t'.vcpus i).state = .unused := by
    intro n t' R hn
    exact ⟨⟨base + n, by omega⟩, (R.used hu (by decide) _).mpr le_rfl⟩
  have R₀ : Run s t vm base 0 .alloced := .nil hvms hvcpus hnone
  have hpos : 0 < cfg.slots := Nat.lt_of_lt_of_le Nat.zero_lt_one (Nat.le_max_left _ _)
  obtain ⟨m, hm⟩ : ∃ m, cfg.slots = m + 1 := ⟨cfg.slots - 1, by omega⟩
  rw [hm, List.replicate_succ] at At
  refine wp_mono (wp_total (At.addVcpu hvm (by decide) (hleft R₀ hpos))
    (addVcpu_ends hu R₀ (H.congr hpool))) ?_ fun _ _ h => h
  rintro _ u ⟨⟨Au, hlu⟩, Ru, Hu, _, _⟩
  have hlu' : (u.vms vm).vmLock.word = 0 := by rw [hlu, hlock]
  refine wp_forRange (fun k s' => Able start spis (List.replicate (m - k) 8 ++ l) s' ∧
    Run s s' vm base (1 + k) .alloced ∧ HeapHas start s' live ∧ (s'.vms vm).vmLock.word = 0)
    (by decide) ?_ ⟨Au, Ru, Hu, hlu'⟩ ?_
  · rintro k t' hk ⟨A', R', H', hl'⟩
    have hslots : 1 + k < cfg.slots := by
      rw [VmConfig.slots]
      omega
    obtain ⟨m', hm'⟩ : ∃ m', m - k = m' + 1 := ⟨m - k - 1, by omega⟩
    rw [hm', List.replicate_succ] at A'
    rw [Nat.mul_one]
    refine wp_mono (wp_total (A'.addVcpu hvm (by omega) (hleft R' hslots))
      (addVcpu_ends hu R' H')) ?_ fun _ _ h => h
    rintro _ t'' ⟨⟨A'', hl''⟩, R'', H'', _, _⟩
    have hsub : m - (k + 1) = m' := by omega
    exact ⟨hsub ▸ A'', R'', H'', by rw [hl'', hl']⟩
  · rintro k t' hk ⟨A', _, _, hl'⟩
    have hdone : m - k = 0 := by
      rw [VmConfig.slots] at hm
      omega
    rw [hdone] at A'
    exact ⟨A', hl'⟩

/-- Registering a region. -/
theorem Able.vmmioHandlerRegister {ipa size vmmioRead vmmioWrite : ℕ}
    (A : Able start spis (6 :: l) s) (hvm : vm ≠ 0) (hsize : size ≠ 0)
    (hlock : (s.vms vm).vmLock.word = 0) :
    wp (vmmioHandlerRegister vm ipa size vmmioRead vmmioWrite) (fun _ s' =>
      Able start spis l s' ∧ (s'.vms vm).vmLock.word = 0) (fun _ _ => False) s := by
  have hno : ¬ (size = 0 ∨ vm = 0) := by
    rintro (h | h)
    · exact hsize h
    · exact hvm h
  simp only [Xhyper.vmmioHandlerRegister, hno, if_false, wp_bind, wp_get]
  rw [wp_spinLock hlock]
  have Al : Able start spis (6 :: l) ((Hyp.vmLockPart vm).set (.heldBy s.ram.core) s) :=
    A.congr rfl A.vcpus_free rfl
  refine Al.xmalloc (by decide) (by decide) fun b t _ At hsame hram _ => ?_
  simp only [wp_bind, wp_get, wp_storeLe, wp_modifyVm]
  rw [wp_spinUnlock]
  · simp only [wp_pure, Hyp.set_vmLockPart, Hyp.setVm, Function.update_self, word_leftBy, and_true]
    exact At.congr rfl At.vcpus_free rfl
  · simp only [Hyp.get_vmLockPart, Hyp.setVm, Function.update_self, hsame.vms, hram,
      Hyp.set_vmLockPart]

/-- Trapping a region whose first page has no last-level table. -/
theorem Able.createMmioTrap {ipa size vmmioRead vmmioWrite : ℕ} (A : Able start spis (6 :: l) s)
    (hvm : vm ≠ 0) (hsize : size ≠ 0) (hlock : (s.vms vm).vmLock.word = 0)
    (hnone : pteAt s.ram.mem (s.vms vm).vttbr ipa = none) :
    wp (createMmioTrap vm ipa size vmmioRead vmmioWrite) (fun _ s' =>
      Able start spis l s' ∧ (s'.vms vm).vmLock.word = 0) (fun _ _ => False) s := by
  rw [Xhyper.createMmioTrap, wp_bind, wp_derefVm hvm, wp_bind, wp_zoom, Hyp.get_ramPart,
    wp_pageWalk_false, hnone]
  simp only [wp_pure, wp_bind]
  exact A.vmmioHandlerRegister hvm hsize hlock

/-- How many bytes `create_vgic_dist` asks for. -/
def nspis (spis : ℤ) : ℕ := ((spis - 31) % 2 ^ 32).toNat

/-- **`create_vgic_dist`** returns when the windows have no last-level table. -/
theorem Able.createVgicDist {P : Platform}
    (A : Able start spis (5 :: c :: 6 :: 6 :: l) s) (hc : ofClass (nspis spis) c)
    (hvm : vm ≠ 0) (hlock : (s.vms vm).vmLock.word = 0)
    (hno : NoGicTable start s.ram (s.vms vm).vttbr) :
    wp (createVgicDist P vm) (fun _ s' => Able start spis l s') (fun _ _ => False) s := by
  have hsize : nspis spis < 2 ^ 32 := by
    rw [nspis]
    omega
  simp only [Xhyper.createVgicDist, wp_bind]
  refine A.xmalloc (by decide) (by decide) fun b t _ At ht hram hin => ?_
  simp only [wp_bind, wp_get, wp_storeLe]
  have hspis : ((t.gicMaxSpi - 31) % 2 ^ 32).toNat = nspis spis := by
    rw [At.spis]
    rfl
  rw [hspis]
  refine (At.withRam _).xmalloc hsize hc fun b' u _ Au hu huram _ => ?_
  simp only [wp_bind, wp_storeLe]
  have hfield : ∀ i n, i + n ≤ sizeofVgicDist → block (b + i) n ⊆ block start configBlkSize :=
    fun i n hi => (field_subset hi).trans hin
  have hwrites : HeapWrites start s.ram
      { u.ram with mem := writeLe u.ram.mem (b + 8) 8 b' } := by
    have h0 : HeapWrites start s.ram t.ram := by
      rw [hram]
      exact .refl _
    rw [huram]
    exact ((h0.store _ (hfield 0 4 (by decide))).store _ (hfield 4 1 (by decide))).store _
      (hfield 8 8 (by decide))
  have hvms : u.vms = s.vms := hu.vms.trans ht.vms
  generalize hw : { u with ram := { u.ram with mem := writeLe u.ram.mem (b + 8) 8 b' } } = w
  have Aw : Able start spis (6 :: 6 :: l) w := hw ▸ Au.withRam _
  have hwvms : w.vms = s.vms := by rw [← hw, hvms]
  have hwram : HeapWrites start s.ram w.ram := by
    rw [← hw]
    exact hwrites
  have hgicd := (hno _ hwram).1
  rw [← hwvms] at hlock hgicd
  obtain ⟨live, Hw⟩ := Aw.heapHas
  refine wp_mono (wp_total (Aw.createMmioTrap hvm (by decide) hlock hgicd)
    (createMmioTrap_ends Hw)) ?_ fun _ _ h => h
  rintro _ u₁ ⟨⟨A₁, hl₁⟩, hr₁, _, hw₁⟩
  have hgicr := (hno _ (hwram.trans (hw₁ hgicd))).2
  have hvttbr : (u₁.vms vm).vttbr = (s.vms vm).vttbr := by rw [hr₁.vttbr, hwvms]
  rw [← hvttbr] at hgicr
  refine wp_mono (A₁.createMmioTrap hvm (by decide) hl₁ hgicr) ?_ fun _ _ h => h
  exact fun _ _ h => h.1

end able

/-! ## Making a machine -/

/-- The loader does not look at the number of virtual CPUs. -/
theorem LoadPlan.withNcpu {l : List ℕ} {r : ℕ} {cfg : VmConfig} {image dtb initrd : Guest}
    (P : LoadPlan l r cfg image dtb initrd) (n : ℤ) :
    LoadPlan l r { cfg with ncpu := n } image dtb initrd :=
  ⟨P.image_eq, P.dtb_eq, P.initrd_eq, P.image_pos, P.dtb_pos, P.initrd_pos, P.entry_aligned,
    P.dtb_aligned, P.ram_bound, P.dtb_bound, P.apart, P.rootfs_lo, P.rootfs_hi, P.image_end,
    P.dtb_end, P.initrd_end, P.image_out, P.dtb_out, P.initrd_out⟩

/-- A configuration that the loader can follow with the free pages `l₀`, and that leaves the
serial port free. -/
structure Creatable (l₀ : List ℕ) (cfg : VmConfig) (image dtb initrd : Guest) : Prop where
  plan : ∀ r l, l₀ = r :: l → LoadPlan l r cfg image dtb initrd
  placed : GuestPlaced cfg
  port_ram : ¬ (cfg.entryAddr ≤ pl011Base ∧
    pl011Base < cfg.entryAddr + cfg.ramPages image * pageSize)
  port_dtb : ¬ (cfg.dtbAddr ≤ pl011Base ∧
    pl011Base < cfg.dtbAddr + pagesFor dtb.imageSize * pageSize)
  name : image.guestName.length < vmNameLen
  count : cfg.ncpu ≤ ncpu

theorem Creatable.withNcpu {l₀ : List ℕ} {cfg : VmConfig} {image dtb initrd : Guest}
    (C : Creatable l₀ cfg image dtb initrd) {n : ℤ} (hn : n ≤ ncpu) :
    Creatable l₀ { cfg with ncpu := n } image dtb initrd :=
  ⟨fun r l h => (C.plan r l h).withNcpu n, ⟨C.placed.ram, C.placed.dtb⟩, C.port_ram, C.port_dtb,
    C.name, hn⟩

/-- The pages that are enough for a machine: its root, four for each page of its memory, and
three for the serial port. -/
def VmConfig.pages (cfg : VmConfig) (image dtb : Guest) : ℕ :=
  4 * (cfg.ramPages image + pagesFor dtb.imageSize) + 4

/-- The classes of the blocks that making a machine takes; those of `c` are for the records of
the interrupts. -/
def VmConfig.blocks (cfg : VmConfig) (c : Fin blkSliceBit) : List (Fin blkSliceBit) :=
  7 :: (List.replicate cfg.slots 8 ++ [5, c, 6, 6])

section creation
variable {start : ℕ} {l₀ l : List ℕ} {cfg : VmConfig} {image dtb initrd : Guest}

theorem le_pagesFor (n : ℕ) : n ≤ pagesFor n * pageSize := by
  simp only [pagesFor, pageSize]
  omega

/-- Nothing is loaded at the serial port. -/
theorem Creatable.port (C : Creatable (r :: l) cfg image dtb initrd) (m₀ : Mem) :
    cfg.byteAt image dtb initrd m₀ pl011Base = none := by
  have P := C.plan r l rfl
  have hram := C.port_ram
  have hdtb := C.port_dtb
  have hlo := P.rootfs_lo
  have hhi := P.rootfs_hi
  have himage : image.imageSize ≤ cfg.ramPages image * pageSize :=
    (Nat.le_max_right _ _).trans (le_pagesFor _)
  have hsize := le_pagesFor dtb.imageSize
  rw [VmConfig.byteAt, if_neg (by omega), if_neg (by omega), if_neg (by omega), if_neg (by omega)]

/-- From the free pages `l₀` the tables of a machine can be built with `n` of them. -/
def TablesWithin (start : ℕ) (l₀ : List ℕ) (cfg : VmConfig) (n : ℕ) : Prop :=
  ∀ s : Ram, s.Pool l₀ → wp allocOnePage (fun p s₁ => ∃ r, p = some r ∧
    wp (doMemoryMapping r cfg) (fun _ s₂ => wp (doDeviceMapping r) (fun _ s₃ => ∃ l, s₃.Pool l ∧
        (∀ p ∈ l, p ∈ l₀) ∧ l₀.length ≤ l.length + n ∧ NoGicTable start s₃ r)
      (fun _ _ => False) s₂) (fun _ _ => False) s₁) (fun _ _ => False) s

/-- **The root** off the free list has nothing loaded. -/
theorem allocOnePage_root {s : Ram} (H : s.Pool l₀) (hne : l₀ ≠ []) :
    wp allocOnePage (fun p s₁ => ∃ r l, p = some r ∧ l₀ = r :: l ∧
      s₁.mem = fill s.mem r pageSize 0 ∧ Loaded s₁.mem l r s₁ l (fun _ => none) ∧
      Built ∅ s.mem l₀ r s₁ l) (fun _ _ => False) s := by
  cases l₀ with
  | nil => exact absurd rfl hne
  | cons r l =>
      refine wp_mono (wp_and (allocOnePage_cons H) (built_root H)) ?_ fun _ _ h => h
      rintro p s₁ ⟨⟨rfl, H₁, hmem, _⟩, hbuilt⟩
      obtain ⟨l₁, hl₁, B₁⟩ := hbuilt r rfl
      have hnd := List.nodup_cons.mp H.nodup
      have hzero : ∀ x ∈ block r pageSize, s₁.mem x = 0 := by
        intro x hx
        rw [hmem]
        exact fill_of_mem hx
      have L₁ := Loaded.fresh H₁ (H.page r List.mem_cons_self) (H.ne_zero List.mem_cons_self)
        hnd.1 hzero
      obtain rfl : l₁ = l := (List.cons.inj hl₁).2.symm
      exact ⟨r, l₁, rfl, rfl, hmem, L₁, B₁⟩

/-- **The tables can be built** when the pages for the memory are there, and three more. -/
theorem Creatable.tables_of_memory {n : ℕ} (C : Creatable l₀ cfg image dtb initrd)
    (hl : HighPages start l₀) (hlen : n + 3 ≤ l₀.length)
    (hmemory : ∀ (m₀ : Mem) r l (s₁ : Ram), l₀ = r :: l → Loaded s₁.mem l r s₁ l (fun _ => none) →
      Built ∅ m₀ l₀ r s₁ l → wp (doMemoryMapping r cfg) (fun _ s₂ => ∃ l₂,
          Loaded s₁.mem l r s₂ l₂ (cfg.byteAt image dtb initrd s₁.mem) ∧ Built ∅ m₀ l₀ r s₂ l₂ ∧
          l₀.length ≤ l₂.length + n) (fun _ _ => False) s₁) :
    TablesWithin start l₀ cfg (n + 3) := by
  intro s H
  have hne : l₀ ≠ [] := by
    rintro rfl
    simp at hlen
  refine wp_mono (allocOnePage_root H hne) ?_ fun _ _ h => h
  rintro _ s₁ ⟨r, l₁, rfl, heq, _, L₁, B₁⟩
  have C' := C
  rw [heq] at C'
  refine ⟨r, rfl, wp_mono (hmemory s.mem r l₁ s₁ heq L₁ B₁) ?_ fun _ _ h => h⟩
  rintro _ s₂ ⟨l₂, L₂, B₂, hlen₂⟩
  have hport : leafEntry s₂.mem r pl011Base = 0 := by
    rw [← L₂.stage2.table.translate_eq_none_iff, ← guestByte_eq_none, L₂.bytes _ (by decide)]
    exact C'.port _
  refine wp_mono (B₂.device hl.device) ?_ ?_
  · rintro _ s₃ ⟨l₃, hlen₃, B₃, _⟩
    exact ⟨l₃, B₃.stage2.pool, B₃.free, by omega, B₃.noGicTable hl⟩
  · rintro _ _ (h | h)
    · omega
    · exact h hport

/-- **The tables can be built** when the pages are there. -/
theorem Creatable.tables (C : Creatable l₀ cfg image dtb initrd) (hl : HighPages start l₀)
    (hlen : cfg.pages image dtb ≤ l₀.length) :
    TablesWithin start l₀ cfg (cfg.pages image dtb) := by
  rw [VmConfig.pages] at *
  refine C.tables_of_memory hl hlen fun m₀ r l s₁ heq L₁ B₁ => ?_
  subst heq
  have P := C.plan r l rfl
  rw [List.length_cons] at hlen ⊢
  have henough : ¬ l.length < 4 * (cfg.ramPages image + pagesFor dtb.imageSize) := by omega
  have hreturns : wp (doMemoryMapping r cfg) _ (fun _ _ => False) s₁ :=
    wp_mono (doMemoryMapping_spec P L₁) (fun _ _ h => h) fun _ _ h => henough h.2
  refine wp_mono (wp_total hreturns (B₁.memory C.placed)) ?_ fun _ _ h => h
  rintro _ s₂ ⟨⟨l₂, hlen₂, L₂⟩, l₂', B₂⟩
  obtain rfl : l₂ = l₂' := L₂.stage2.pool.unique B₂.stage2.pool
  exact ⟨l₂, L₂, B₂, by omega⟩

/-- **Making a machine returns** when there are virtual CPUs and blocks enough and its tables can
be built, and the pages that these do not need are left. -/
theorem buildGuestVm_of_tables {P : Platform} {s : Hyp} {spis : ℤ} {c : Fin blkSliceBit}
    {rest : List (Fin blkSliceBit)} {base n : ℕ} (A : Able start spis (cfg.blocks c ++ rest) s)
    (hc : ofClass (nspis spis) c) (hu : Used s base) (hfit : base + cfg.slots ≤ ncpu)
    (himage : cfg.guestImage = some image) (hname : image.guestName.length < vmNameLen)
    (hcpus : cfg.ncpu ≤ ncpu) (htables : TablesWithin start l₀ cfg n) (H : s.ram.Pool l₀)
    (hl : HighPages start l₀) :
    wp (buildGuestVm P cfg) (fun _ s' => Able start spis rest s' ∧ ∃ l, s'.ram.Pool l ∧
      (∀ p ∈ l, p ∈ l₀) ∧ l₀.length ≤ l.length + n) (fun _ _ => False) s := by
  have hcount : ¬ cfg.ncpu > ncpu := not_lt.mpr hcpus
  simp only [buildGuestVm, himage, if_neg hcount, wp_bind]
  simp only [VmConfig.blocks, List.cons_append, List.append_assoc, List.nil_append] at A
  refine A.xmalloc (by decide) (by decide) fun vm t hvm At ht hram _ => ?_
  have hut : Used t base := by
    intro i
    rw [ht.vcpus]
    exact hu i
  obtain ⟨live, Ht⟩ := At.heapHas
  rw [wp_bind]
  refine wp_mono (wp_total (At.vmInit hvm hname hut hfit) (vmInit_ends hut Ht)) ?_ fun _ _ h => h
  rintro _ t₁ ⟨⟨A₁, hlock⟩, R₁, _, hw₁, _⟩
  rw [hram] at hw₁
  have H₁ := hw₁.pool hl H fun _ hp => hp
  rw [wp_bind, wp_zoom]
  refine wp_mono (htables _ H₁) ?_ fun _ _ h => h
  rintro _ r₁ ⟨vttbr, rfl, hmemory⟩
  simp only [wp_bind, wp_modifyVm, wp_zoom]
  refine wp_mono hmemory ?_ fun _ _ h => h
  intro _ r₂ hdevice
  refine wp_mono hdevice ?_ fun _ _ h => h
  rintro _ r₃ ⟨l', H₃, hfree, hlen₃, hno⟩
  generalize hu₃ : Hyp.ramPart.set r₃ _ = u
  have hvm₃ : u.vms = Function.update t₁.vms vm { t₁.vms vm with vttbr := vttbr } := by
    rw [← hu₃]
    rfl
  have hram₃ : u.ram = r₃ := by rw [← hu₃]; rfl
  have A₃ : Able start spis (5 :: c :: 6 :: 6 :: rest) u := by
    rw [← hu₃]
    exact A₁.congr rfl A₁.vcpus_free rfl
  clear hu₃
  have hvttbr : (u.vms vm).vttbr = vttbr := by rw [hvm₃, Function.update_self]
  have hlock₃ : (u.vms vm).vmLock.word = 0 := by rw [hvm₃, Function.update_self, hlock]
  have hno₃ : NoGicTable start u.ram (u.vms vm).vttbr := by
    rw [hram₃, hvttbr]
    exact hno
  obtain ⟨live₃, H'⟩ := A₃.heapHas
  refine wp_mono (wp_total (A₃.createVgicDist hc hvm hlock₃ hno₃) (createVgicDist_ends H')) ?_
    fun _ _ h => h
  rintro vgicDist w ⟨Aw, hr, _, hw⟩
  have hwram := hw hno₃
  rw [hram₃] at hwram
  have Hw := hwram.pool hl H₃ hfree
  -- the machine has a first virtual CPU
  have hfirst : ∃ i, (w.vms vm).vcpus 0 = some i := by
    have hpos : 0 < cfg.slots := Nat.lt_of_lt_of_le Nat.zero_lt_one (Nat.le_max_left _ _)
    have hslot := (R₁.slots 0 ⟨base, R₁.fits 0 hpos⟩).mpr ⟨hpos, rfl⟩
    obtain ⟨_, a, b, hv⟩ := hr
    rw [hv, Function.update_self, hvm₃, Function.update_self]
    exact ⟨_, hslot⟩
  obtain ⟨i, hi⟩ := hfirst
  have hi' : ((w.setVm vm { w.vms vm with vgicDist := vgicDist }).vms vm).vcpus 0 = some i := by
    simp only [Hyp.setVm, Function.update_self, hi]
  simp only [readyFirst, wp_bind, wp_get, hi', wp_modifyVcpu, wp_pure]
  exact ⟨Aw.congr rfl Aw.vcpus_free rfl, l', Hw, hfree, hlen₃⟩

/-- **Making a machine returns** when there are virtual CPUs, blocks and pages enough, and as
many as it did not need are left. -/
theorem buildGuestVm_returns {P : Platform} {s : Hyp} {spis : ℤ} {c : Fin blkSliceBit}
    {rest : List (Fin blkSliceBit)} {base : ℕ} (A : Able start spis (cfg.blocks c ++ rest) s)
    (hc : ofClass (nspis spis) c) (hu : Used s base) (hfit : base + cfg.slots ≤ ncpu)
    (C : Creatable l₀ cfg image dtb initrd) (H : s.ram.Pool l₀) (hl : HighPages start l₀)
    (hlen : cfg.pages image dtb ≤ l₀.length) :
    wp (buildGuestVm P cfg) (fun _ s' => Able start spis rest s' ∧ ∃ l, s'.ram.Pool l ∧
      (∀ p ∈ l, p ∈ l₀) ∧ l₀.length ≤ l.length + cfg.pages image dtb) (fun _ _ => False) s := by
  have himage : cfg.guestImage = some image := by
    cases l₀ with
    | nil => exact absurd hlen (by simp [VmConfig.pages])
    | cons r l => exact (C.plan r l rfl).image_eq
  exact buildGuestVm_of_tables A hc hu hfit himage C.name C.count
    (C.tables hl hlen) H hl

end creation

end Xhyper
