import Xhyper.HypRun
import Xhyper.VmmioPublish

/-!
# Looking up the record of an interrupt

`create_vgic_cpu` gives a virtual CPU the records of its sixteen SGIs and of its sixteen PPIs,
and initialises them; `create_vgic_dist` gives a machine the records of its SPIs.
`vgic_irq_get` looks one up by the number of the interrupt.

The private interrupts `16` to `31` are looked up with their number, not with their place
among the PPIs, behind the array that was initialised.  Different interrupts have different
records all the same: those of a virtual CPU are in one block of the heap, and no record of a
shared interrupt begins at an address where a private one does.

## Main definitions

* `IrqInit`, `createVgicCpu_spec` — an initialised record, and what `create_vgic_cpu` does.
* `MadeCpu`, `GicHistory` — calls of the two functions, with other code in between.
* `GicsMade` — the blocks and pointers in every such history.
* `LookupSound` — what looking up should give.
* `vgicIrqGet_sound_iff` — when it does.
-/

namespace Xhyper

open Memory Prog

/-! ## The records of a virtual CPU -/

/-- The record at `a` is as `create_vgic_cpu` makes it for the virtual CPU `vcpuid`: off, in
group 1, with the affinity of the virtual CPU. -/
structure IrqInit (m : Mem) (vcpuid a : ℕ) : Prop where
  affinity : m (a + 1) = BitVec.ofNat 8 (1 <<< vcpuid)
  enabled : m (a + 2) = 0
  group : m (a + 3) = 1

/-- Memory after the record at `a` was initialised. -/
def initMem (m : Mem) (affinity a : ℕ) : Mem :=
  Function.update (Function.update (Function.update m (a + 2) 0) (a + 1)
    (BitVec.ofNat 8 affinity)) (a + 3) 1

/-- Memory after the first `k` records from `base` on were initialised. -/
def initRecords (m : Mem) (affinity base : ℕ) : ℕ → Mem
  | 0 => m
  | k + 1 => initMem (initRecords m affinity base k) affinity (base + sizeofIrqConfig * k)

section init
variable {m m' : Mem} {affinity base vcpuid a x : ℕ} {s : Hyp}

theorem initIrqConfig_eq :
    initIrqConfig affinity a s = .ok () (s.withMem (initMem s.ram.mem affinity a)) := by
  rw [initIrqConfig, bind_of_ok (storeLe_byte _ _ _), bind_of_ok (storeLe_byte _ _ _),
    storeLe_byte]
  rfl

/-- A loop of `create_vgic_cpu`. -/
theorem initLoop_eq (n : ℕ) :
    forRange 1 0 n (fun i => initIrqConfig affinity (base + sizeofIrqConfig * i)) s =
      .ok n (s.withMem (initRecords s.ram.mem affinity base n)) :=
  forRange_runs (S := fun k => s.withMem (initRecords s.ram.mem affinity base k))
    fun _ _ => initIrqConfig_eq

theorem initMem_outside (hx : x ∉ block a sizeofIrqConfig) : initMem m affinity a x = m x := by
  simp only [mem_block, sizeofIrqConfig] at hx
  rw [initMem, Function.update_of_ne (by omega), Function.update_of_ne (by omega),
    Function.update_of_ne (by omega)]

theorem initMem_init : IrqInit (initMem m (1 <<< vcpuid) a) vcpuid a := by
  refine ⟨?_, ?_, ?_⟩
  · rw [initMem, Function.update_of_ne (by omega), Function.update_self]
  · rw [initMem, Function.update_of_ne (by omega), Function.update_of_ne (by omega),
      Function.update_self]
  · rw [initMem, Function.update_self]

/-- A record stays initialised while its bytes stay. -/
theorem IrqInit.congr (h : IrqInit m vcpuid a)
    (hm : Set.EqOn m' m (block a sizeofIrqConfig)) : IrqInit m' vcpuid a := by
  have hmem : ∀ j < 4, a + j ∈ block a sizeofIrqConfig := by
    intro j hj
    simp only [mem_block, sizeofIrqConfig]
    omega
  refine ⟨?_, ?_, ?_⟩
  · rw [hm (hmem 1 (by decide))]
    exact h.affinity
  · rw [hm (hmem 2 (by decide))]
    exact h.enabled
  · rw [hm (hmem 3 (by decide))]
    exact h.group

theorem initRecords_outside {k : ℕ} (hx : x ∉ block base (sizeofIrqConfig * k)) :
    initRecords m affinity base k x = m x := by
  induction k with
  | zero => rfl
  | succ k ih =>
      simp only [mem_block, sizeofIrqConfig] at hx ih
      rw [initRecords, initMem_outside, ih (by omega)]
      simp only [mem_block, sizeofIrqConfig]
      omega

/-- **Every record of the array is initialised**, by induction on the rounds. -/
theorem initRecords_init {k i : ℕ} (hi : i < k) :
    IrqInit (initRecords m (1 <<< vcpuid) base k) vcpuid (base + sizeofIrqConfig * i) := by
  induction k with
  | zero => exact absurd hi (Nat.not_lt_zero i)
  | succ k ih =>
      rw [initRecords]
      by_cases hk : i = k
      · subst hk
        exact initMem_init
      · have hlt : i < k := by omega
        refine (ih hlt).congr fun x hx => initMem_outside ?_
        simp only [mem_block, sizeofIrqConfig] at hx ⊢
        omega

end init

section cpu
variable {start vcpuid : ℕ} {s : Hyp} {live : List ℕ} {free : Fin blkSliceBit → List ℕ}

/-- **`create_vgic_cpu`** takes a block, initialises the records of the two arrays, and writes
nothing outside the block. -/
theorem createVgicCpu_spec (B : Blocks start (Hyp.heapPart.get s) live free) :
    wp (createVgicCpu vcpuid) (fun b s' => ∃ h' m',
        Given start (Hyp.heapPart.get s) h' live sizeofVgicCpu b ∧
        s' = (Hyp.heapPart.set h' s).withMem m' ∧
        Set.EqOn m' s.ram.mem (block b sizeofVgicCpu)ᶜ ∧
        ∀ i < 16, IrqInit m' vcpuid (sgiAddr b i) ∧ IrqInit m' vcpuid (ppiAddr b i))
      (fun _ _ => True) s := by
  simp only [createVgicCpu, wp_bind, wp_zoom]
  refine wp_mono (xmalloc_spec B (by decide)) ?_ fun _ _ _ => trivial
  rintro r h' ⟨_, ⟨rfl, _⟩ | ⟨b, rfl, _, G⟩⟩
  · exact trivial
  have hmem : (Hyp.heapPart.set h' s).ram.mem = s.ram.mem := G.mem_eq
  have hsgi : ∀ t : Hyp, forRange 1 0 gicNsgi (fun i => initIrqConfig (1 <<< vcpuid) (sgiAddr b i)) t
      = .ok gicNsgi (t.withMem (initRecords t.ram.mem (1 <<< vcpuid) (b + 2) 16)) :=
    fun t => initLoop_eq 16
  have hppi : ∀ t : Hyp, forRange 1 0 gicNsgi (fun i => initIrqConfig (1 <<< vcpuid) (ppiAddr b i)) t
      = .ok gicNsgi (t.withMem (initRecords t.ram.mem (1 <<< vcpuid) (b + 66) 16)) :=
    fun t => initLoop_eq 16
  simp only [wp_bind, wp_storeLe]
  rw [wp_iff_of_ok (hsgi _), wp_iff_of_ok (hppi _), wp_pure]
  refine ⟨h', _, G, rfl, ?_, ?_⟩
  · intro x hx
    simp only [Set.mem_compl_iff, mem_block, sizeofVgicCpu] at hx
    have hbitmap : ∀ m : Mem, writeLe m b 2 0 x = m x := by
      intro m
      apply writeLe_of_notMem
      simp only [mem_block]
      omega
    rw [initRecords_outside, Hyp.withMem_mem, initRecords_outside]
    · exact (hbitmap _).trans (congrFun hmem x)
    · simp only [mem_block, sizeofIrqConfig]
      omega
    · simp only [mem_block, sizeofIrqConfig]
      omega
  · intro i hi
    refine ⟨?_, initRecords_init hi⟩
    refine IrqInit.congr (initRecords_init hi) fun x hx => initRecords_outside ?_
    simp only [sgiAddr, mem_block, sizeofIrqConfig] at hx ⊢
    omega

end cpu

/-! ## Any number of calls -/

/-- A virtual CPU that was given its records: their block, and memory right after. -/
structure MadeCpu where
  cpu : Fin ncpu
  vcpuid : ℕ
  block : ℕ
  after : Mem

/-- Other code leaves the blocks of the virtual CPUs `cs` and of the machines `ds` in use, and
the pointers to them and to the shared interrupts alone.  The records may change. -/
structure LeavesGics (start : ℕ) (cs : List MadeCpu) (ds : List ℕ) (s s' : Hyp) : Prop where
  blocks : ∀ live free, Blocks start (Hyp.heapPart.get s) live free →
    ∃ live' free', Blocks start (Hyp.heapPart.get s') live' free' ∧
      (∀ d ∈ cs, d.block ∈ live → d.block ∈ live') ∧
      ∀ vm ∈ ds, (s.vms vm).vgicDist ∈ live → (s.vms vm).vgicDist ∈ live'
  carved : ∀ c b, Carved s.sysBlk c b → Carved s'.sysBlk c b
  cpu : ∀ d ∈ cs, (s'.vcpus d.cpu).vgicCpu = (s.vcpus d.cpu).vgicCpu
  dist : ∀ vm ∈ ds, (s'.vms vm).vgicDist = (s.vms vm).vgicDist
  spis : ∀ vm ∈ ds, read64 s'.ram.mem ((s.vms vm).vgicDist + 8) =
    read64 s.ram.mem ((s.vms vm).vgicDist + 8)

/-- Calls of `create_vgic_cpu` for the virtual CPUs `cs`, and of `create_vgic_dist` for the
machines `ds`, once for each, in any order; what they give is stored in the virtual CPU and in
the machine.  In between there is other code. -/
inductive GicHistory (P : Platform) (start : ℕ) (s₀ : Hyp) :
    List MadeCpu → List ℕ → Hyp → Prop
  | start : GicHistory P start s₀ [] [] s₀
  | cpu {cs : List MadeCpu} {ds : List ℕ} {v : Fin ncpu} {vcpuid b : ℕ} {s s' : Hyp} :
      GicHistory P start s₀ cs ds s → (∀ d ∈ cs, d.cpu ≠ v) →
      createVgicCpu vcpuid s = .ok b s' →
      GicHistory P start s₀ (⟨v, vcpuid, b, s'.ram.mem⟩ :: cs) ds
        (s'.setVcpu v { s'.vcpus v with vgicCpu := b })
  | dist {cs : List MadeCpu} {ds : List ℕ} {vm a : ℕ} {s s' : Hyp} :
      GicHistory P start s₀ cs ds s → vm ∉ ds → TrapReady start s vm →
      createVgicDist P vm s = .ok a s' →
      GicHistory P start s₀ cs (vm :: ds) (s'.setVm vm { s'.vms vm with vgicDist := a })
  | other {cs : List MadeCpu} {ds : List ℕ} {s s' : Hyp} :
      GicHistory P start s₀ cs ds s → LeavesGics start cs ds s s' →
      GicHistory P start s₀ cs ds s'

/-- **The records are where they were put**: each virtual CPU has its initialised block, each
machine its distributor with a pointer to a block, and the blocks are in use. -/
structure GicsMade (start : ℕ) (cs : List MadeCpu) (ds : List ℕ) (s : Hyp) : Prop where
  blocks : ∃ live free, Blocks start (Hyp.heapPart.get s) live free ∧
    (∀ d ∈ cs, d.block ∈ live) ∧ ∀ vm ∈ ds, (s.vms vm).vgicDist ∈ live
  cpu : ∀ d ∈ cs, (s.vcpus d.cpu).vgicCpu = d.block
  init : ∀ d ∈ cs, ∀ i < 16, IrqInit d.after d.vcpuid (sgiAddr d.block i) ∧
    IrqInit d.after d.vcpuid (ppiAddr d.block i)
  inj : ∀ d ∈ cs, ∀ e ∈ cs, d.block = e.block → d.cpu = e.cpu
  dist_inj : ∀ i ∈ ds, ∀ j ∈ ds, (s.vms i).vgicDist = (s.vms j).vgicDist → i = j
  apart : ∀ d ∈ cs, ∀ vm ∈ ds, d.block ≠ (s.vms vm).vgicDist
  room : ∀ d ∈ cs, ∃ c, Carved s.sysBlk c d.block ∧ sizeofVgicCpu ≤ 2 ^ c.val
  ne_zero : ∀ vm ∈ ds, vm ≠ 0
  dist : ∀ vm ∈ ds, ∃ c, Carved s.sysBlk c (s.vms vm).vgicDist ∧ sizeofVgicDist ≤ 2 ^ c.val
  spis : ∀ vm ∈ ds, ∃ c, Carved s.sysBlk c (read64 s.ram.mem ((s.vms vm).vgicDist + 8))

section made
variable {P : Platform} {start vm a b vcpuid : ℕ} {cs : List MadeCpu} {ds : List ℕ}
  {v : Fin ncpu} {s s' : Hyp}

/-- The pointer to the shared interrupts is in the distributor's block. -/
theorem read64_dist_congr {m m' : Mem} {dist : ℕ} {c : Fin blkSliceBit}
    (hsize : sizeofVgicDist ≤ 2 ^ c.val) (hm : Set.EqOn m' m (block dist (2 ^ c.val))) :
    read64 m' (dist + 8) = read64 m (dist + 8) :=
  readLe_congr (hm.mono ((ptr_subset_dist dist).trans (block_subset le_rfl (by omega))))

/-- The records are there as long as the blocks are in use and the pointers are as before. -/
theorem GicsMade.kept (G : GicsMade start cs ds s)
    (hblocks : ∃ live free, Blocks start (Hyp.heapPart.get s') live free ∧
      (∀ d ∈ cs, d.block ∈ live) ∧ ∀ vm ∈ ds, (s.vms vm).vgicDist ∈ live)
    (hcarved : ∀ c b, Carved s.sysBlk c b → Carved s'.sysBlk c b)
    (hcpu : ∀ d ∈ cs, (s'.vcpus d.cpu).vgicCpu = (s.vcpus d.cpu).vgicCpu)
    (hdist : ∀ vm ∈ ds, (s'.vms vm).vgicDist = (s.vms vm).vgicDist)
    (hspis : ∀ vm ∈ ds, read64 s'.ram.mem ((s.vms vm).vgicDist + 8) =
      read64 s.ram.mem ((s.vms vm).vgicDist + 8)) : GicsMade start cs ds s' := by
  obtain ⟨live, free, B, hcs, hds⟩ := hblocks
  refine ⟨⟨live, free, B, hcs, ?_⟩, ?_, G.init, G.inj, ?_, ?_, ?_, G.ne_zero, ?_, ?_⟩
  · intro vm hvm
    rw [hdist vm hvm]
    exact hds vm hvm
  · intro d hd
    rw [hcpu d hd]
    exact G.cpu d hd
  · intro i hi j hj heq
    rw [hdist i hi, hdist j hj] at heq
    exact G.dist_inj i hi j hj heq
  · intro d hd vm hvm
    rw [hdist vm hvm]
    exact G.apart d hd vm hvm
  · intro d hd
    obtain ⟨c, hc, hsize⟩ := G.room d hd
    exact ⟨c, hcarved _ _ hc, hsize⟩
  · intro vm hvm
    obtain ⟨c, hc, hsize⟩ := G.dist vm hvm
    rw [hdist vm hvm]
    exact ⟨c, hcarved _ _ hc, hsize⟩
  · intro vm hvm
    obtain ⟨c, hc⟩ := G.spis vm hvm
    rw [hdist vm hvm, hspis vm hvm]
    exact ⟨c, hcarved _ _ hc⟩

theorem GicsMade.other (G : GicsMade start cs ds s) (h : LeavesGics start cs ds s s') :
    GicsMade start cs ds s' := by
  obtain ⟨live, free, B, hcs, hds⟩ := G.blocks
  obtain ⟨live', free', B', hcs', hds'⟩ := h.blocks live free B
  exact G.kept ⟨live', free', B', fun d hd => hcs' d hd (hcs d hd),
    fun vm hvm => hds' vm hvm (hds vm hvm)⟩ h.carved h.cpu h.dist h.spis

/-- **A virtual CPU** gets a block that nothing else uses. -/
theorem GicsMade.pushCpu (G : GicsMade start cs ds s) (hv : ∀ d ∈ cs, d.cpu ≠ v)
    (hrun : createVgicCpu vcpuid s = .ok b s') :
    GicsMade start (⟨v, vcpuid, b, s'.ram.mem⟩ :: cs) ds
      (s'.setVcpu v { s'.vcpus v with vgicCpu := b }) := by
  obtain ⟨live, free, B, hcs, hds⟩ := G.blocks
  obtain ⟨h', m', N, rfl, hmem, hinit⟩ := ok_of_wp (createVgicCpu_spec B) hrun
  obtain ⟨free', B'⟩ := N.blocks
  obtain ⟨c, hc, hsize, _⟩ := N.carved
  have hnew : b ∉ live := (List.nodup_cons.mp B'.live_nodup).1
  have hout : ∀ x, x ∉ block b (2 ^ c.val) → m' x = s.ram.mem x := by
    intro x hx
    exact hmem fun hin => hx (block_subset le_rfl (Nat.add_le_add_left hsize b) hin)
  -- the blocks in use keep their bytes
  have hkeep : ∀ b' ∈ live, ∀ c', Carved s.sysBlk c' b' →
      Set.EqOn m' s.ram.mem (block b' (2 ^ c'.val)) := by
    intro b' hb' c' hc' x hx
    have hne : b' ≠ b := fun heq => hnew (heq ▸ hb')
    exact hout x fun hxb => Set.disjoint_left.mp ((N.keep c' b' hc').disjoint hc hne) hx hxb
  have hfill : Blocks start { h' with mem := m' } (b :: live) free' := by
    refine B'.fill List.mem_cons_self hc fun x hx => ?_
    rw [N.mem_eq]
    exact hout x hx
  obtain ⟨t, ht⟩ : ∃ t, t = (((Hyp.heapPart.set h' s).withMem m').setVcpu v
    { ((Hyp.heapPart.set h' s).withMem m').vcpus v with vgicCpu := b }) := ⟨_, rfl⟩
  have hblocks : Blocks start (Hyp.heapPart.get t) (b :: live) free' := by
    rw [ht]
    exact hfill.congr rfl rfl
  have hself : (t.vcpus v).vgicCpu = b := by
    rw [ht]
    simp only [Hyp.setVcpu, Function.update_self]
  have hcs' : ∀ d ∈ cs, d.block ∈ b :: live := fun d hd => List.mem_cons_of_mem _ (hcs d hd)
  have hds' : ∀ vm ∈ ds, (s.vms vm).vgicDist ∈ b :: live :=
    fun vm hvm => List.mem_cons_of_mem _ (hds vm hvm)
  have hvms : t.vms = s.vms := by
    rw [ht]
    rfl
  have hpool : t.sysBlk = h'.pool := by
    rw [ht]
    rfl
  have G' : GicsMade start cs ds t := by
    refine G.kept ⟨_, _, hblocks, hcs', hds'⟩ (hpool ▸ N.keep) ?_ ?_ ?_
    · intro d hd
      rw [ht]
      simp only [Hyp.setVcpu, Function.update_of_ne (hv d hd)]
      rfl
    · intro vm _
      rw [hvms]
    · intro vm hvm
      obtain ⟨c', hc', hsize'⟩ := G.dist vm hvm
      rw [ht]
      exact read64_dist_congr hsize' (hkeep _ (hds vm hvm) c' hc')
  rw [← ht]
  refine ⟨⟨b :: live, free', hblocks, List.forall_mem_cons.mpr ⟨List.mem_cons_self, hcs'⟩, ?_⟩,
    List.forall_mem_cons.mpr ⟨hself, G'.cpu⟩, List.forall_mem_cons.mpr ⟨hinit, G.init⟩, ?_,
    G'.dist_inj, List.forall_mem_cons.mpr ⟨fun vm hvm heq => ?_, G'.apart⟩,
    List.forall_mem_cons.mpr ⟨⟨c, hpool ▸ hc, hsize⟩, G'.room⟩, G.ne_zero, G'.dist, G'.spis⟩
  · rw [hvms]
    exact hds'
  · intro d hd e he heq
    rcases List.mem_cons.mp hd with rfl | hd
    · rcases List.mem_cons.mp he with rfl | he
      · rfl
      · have hb : b = e.block := heq
        exact absurd (hb ▸ hcs e he) hnew
    · rcases List.mem_cons.mp he with rfl | he
      · have hb : d.block = b := heq
        exact absurd (hb ▸ hcs d hd) hnew
      · exact G.inj d hd e he heq
  · have hb : b = (s.vms vm).vgicDist := hvms ▸ heq
    exact hnew (hb ▸ hds vm hvm)

/-- What a machine's distributor is read from, in states and out of reach of its creation. -/
theorem keeps_vgicDists : Hyp.Unlisted fun (s : Hyp) (i : ℕ) => (s.vms i).vgicDist := by
  refine ⟨fun _ _ => rfl, fun _ _ => rfl, ?_⟩
  intro s vm a l
  ext1 i
  by_cases hi : i = vm
  · subst hi
    simp only [Hyp.setVm, Function.update_self]
  · simp only [Hyp.setVm, Function.update_of_ne hi]

/-- **A machine** gets its distributor. -/
theorem GicsMade.pushDist (G : GicsMade start cs ds s) (hvm : vm ∉ ds) (R : TrapReady start s vm)
    (hrun : createVgicDist P vm s = .ok a s') :
    GicsMade start cs (vm :: ds) (s'.setVm vm { s'.vms vm with vgicDist := a }) := by
  obtain ⟨live, free, B, hcs, hds⟩ := G.blocks
  obtain ⟨⟨spis, c, M⟩, K, hnew, live', free', B', ha, hlive⟩ :=
    ok_of_wp (createVgicDist_kept R B) hrun
  have hunlisted : Hyp.Unlisted Hyp.vcpus := ⟨fun _ _ => rfl, fun _ _ => rfl, fun _ _ _ _ => rfl⟩
  have hvcpus : s'.vcpus = s.vcpus := (hunlisted.keeps_createVgicDist P vm).of_ok hrun
  have hdists : ∀ i, (s'.vms i).vgicDist = (s.vms i).vgicDist :=
    congrFun ((keeps_vgicDists.keeps_createVgicDist P vm).of_ok hrun)
  obtain ⟨t, ht⟩ : ∃ t, t = s'.setVm vm { s'.vms vm with vgicDist := a } := ⟨_, rfl⟩
  have hself : (t.vms vm).vgicDist = a := by
    rw [ht]
    simp only [Hyp.setVm, Function.update_self]
  have hother : ∀ i ∈ ds, (t.vms i).vgicDist = (s.vms i).vgicDist := by
    intro i hi
    have hne : i ≠ vm := fun heq => hvm (heq ▸ hi)
    rw [ht]
    simp only [Hyp.setVm, Function.update_of_ne hne, hdists]
  have hpool : t.sysBlk = s'.sysBlk := by
    rw [ht]
    rfl
  have hmem : t.ram.mem = s'.ram.mem := by
    rw [ht]
    rfl
  have htv : t.vcpus = s.vcpus := by
    rw [ht]
    exact hvcpus
  have hblocks : Blocks start (Hyp.heapPart.get t) live' free' := B'.congr hpool hmem
  have hcs' : ∀ d ∈ cs, d.block ∈ live' := fun d hd => hlive _ (hcs d hd)
  have hds' : ∀ i ∈ ds, (s.vms i).vgicDist ∈ live' := fun i hi => hlive _ (hds i hi)
  have G' : GicsMade start cs ds t := by
    refine G.kept ⟨live', free', hblocks, hcs', hds'⟩ (hpool ▸ K.carved) ?_ hother ?_
    · intro d _
      rw [htv]
    · intro i hi
      obtain ⟨c', hc', hsize'⟩ := G.dist i hi
      rw [hmem]
      exact read64_dist_congr hsize' (K.bytes _ (hds i hi) c' hc')
  have hapart : ∀ i ∈ ds, (t.vms i).vgicDist ≠ (t.vms vm).vgicDist := by
    intro i hi heq
    rw [hself, hother i hi] at heq
    exact hnew (heq ▸ hds i hi)
  rw [← ht]
  refine ⟨⟨live', free', hblocks, hcs', List.forall_mem_cons.mpr ⟨hself.symm ▸ ha, ?_⟩⟩, G'.cpu,
    G.init, G.inj, ?_, fun d hd => List.forall_mem_cons.mpr ⟨?_, G'.apart d hd⟩, G'.room,
    List.forall_mem_cons.mpr ⟨R.ne_zero, G.ne_zero⟩, List.forall_mem_cons.mpr ⟨?_, G'.dist⟩,
    List.forall_mem_cons.mpr ⟨?_, G'.spis⟩⟩
  · intro i hi
    rw [hother i hi]
    exact hds' i hi
  · intro i hi j hj heq
    rcases List.mem_cons.mp hi with hi' | hi'
    · rcases List.mem_cons.mp hj with hj' | hj'
      · exact hi'.trans hj'.symm
      · exact absurd (hi' ▸ heq).symm (hapart j hj')
    · rcases List.mem_cons.mp hj with hj' | hj'
      · exact absurd (hj' ▸ heq) (hapart i hi')
      · exact G'.dist_inj i hi' j hj' heq
  · rw [hself]
    exact fun heq => hnew (heq ▸ hcs d hd)
  · rw [hself, hpool]
    exact M.dist
  · rw [hself, hpool, hmem, M.ptr]
    exact ⟨c, M.carved⟩

/-- **The records in every history**, by induction on the calls. -/
theorem GicHistory.made {s₀ : Hyp}
    (hheap : ∃ live free, Blocks start (Hyp.heapPart.get s₀) live free)
    (hrun : GicHistory P start s₀ cs ds s) : GicsMade start cs ds s := by
  induction hrun with
  | start =>
      obtain ⟨live, free, B⟩ := hheap
      have hnone : ∀ {p : MadeCpu → Prop}, ∀ d ∈ ([] : List MadeCpu), p d :=
        fun d hd => absurd hd List.not_mem_nil
      have hnone' : ∀ {p : ℕ → Prop}, ∀ d ∈ ([] : List ℕ), p d :=
        fun d hd => absurd hd List.not_mem_nil
      exact ⟨⟨live, free, B, hnone, hnone'⟩, hnone, hnone, hnone, hnone', hnone, hnone, hnone',
        hnone', hnone'⟩
  | cpu _ hv hrun ih => exact ih.pushCpu hv hrun
  | dist _ hvm R hrun ih => exact ih.pushDist hvm R hrun
  | other _ h ih => exact ih.other h

end made

/-! ## Looking up -/

/-- **Looking up the interrupts** `m` of the virtual CPU of `d` and `n` of that of `e` gives, for
the private ones of `d`, an element of its own two arrays as `create_vgic_cpu` initialised it, for
the shared ones the element of the machine's array, and the same record only for the same
interrupt, of the same virtual CPU if it is private. -/
structure LookupSound (s : Hyp) (d e : MadeCpu) (n m : ℕ) : Prop where
  own : n < 32 → ∃ a, vgicIrqGet d.cpu n s = .ok a s ∧
    (∃ i < 16, a = sgiAddr (s.vcpus d.cpu).vgicCpu i ∨ a = ppiAddr (s.vcpus d.cpu).vgicCpu i) ∧
    IrqInit d.after d.vcpuid a
  shared : 32 ≤ n → n < 32 + readLe s.ram.mem (s.dist d.cpu) 4 →
    vgicIrqGet d.cpu n s = .ok (spiRecord (s.spis d.cpu) n) s
  inj : ∀ a, vgicIrqGet d.cpu n s = .ok a s → vgicIrqGet e.cpu m s = .ok a s →
    n = m ∧ (n < 32 → d.cpu = e.cpu)

section lookup
variable {P : Platform} {start : ℕ} {cs : List MadeCpu} {ds : List ℕ} {d e : MadeCpu}
  {s s₀ : Hyp} {n m : ℕ}

theorem GicsMade.dist_ne (G : GicsMade start cs ds s) {v : Fin ncpu}
    (hvm : (s.vcpus v).vm ∈ ds) : s.dist v ≠ 0 := by
  obtain ⟨live, free, B, _⟩ := G.blocks
  obtain ⟨c, hc, _⟩ := G.dist _ hvm
  exact B.toLayout.ne_zero hc

/-- What is looked up is the record. -/
theorem GicsMade.lookup (G : GicsMade start cs ds s) {v : Fin ncpu}
    (hvm : (s.vcpus v).vm ∈ ds) (n : ℕ) : vgicIrqGet v n s = .ok (s.lookup v n) s :=
  vgicIrqGet_eq (G.ne_zero _ hvm) (G.dist_ne hvm) n

/-- Private records are in the block of the virtual CPU, if not in its arrays. -/
theorem irqAddr_private {vgicCpu spis : ℕ} (hn : n < 32) :
    vgicCpu + 2 ≤ irqAddr vgicCpu spis n ∧ irqAddr vgicCpu spis n < vgicCpu + 2 ^ 8 ∧
      irqAddr vgicCpu spis n % 4 = (vgicCpu + 2) % 4 := by
  simp only [irqAddr, if_pos hn, sgiAddr, ppiAddr, sizeofIrqConfig]
  split <;> omega

/-- Shared ones are where the pointer points to. -/
theorem irqAddr_shared {vgicCpu spis : ℕ} (hn : 32 ≤ n) :
    irqAddr vgicCpu spis n = spiRecord spis n := by
  rw [irqAddr, if_neg (by omega), if_neg (by omega), spiRecord]

/-- A block for a virtual CPU's records has room for those looked for behind the array. -/
theorem cpuClass_large {c : ℕ} (hsize : sizeofVgicCpu ≤ 2 ^ c) : 2 ^ 8 ≤ 2 ^ c := by
  refine Nat.pow_le_pow_right (by decide) ?_
  by_contra hlt
  have hle : 2 ^ c ≤ 2 ^ 7 := Nat.pow_le_pow_right (by decide) (by omega)
  simp only [sizeofVgicCpu] at hsize
  omega

/-- The records of different virtual CPUs are in different blocks. -/
theorem GicsMade.cpu_of_record (G : GicsMade start cs ds s) (hd : d ∈ cs) (he : e ∈ cs)
    (hn : n < 32) (hm : m < 32) (h : s.lookup d.cpu n = s.lookup e.cpu m) : d.cpu = e.cpu := by
  by_contra hne
  have hblock : d.block ≠ e.block := fun heq => hne (G.inj d hd e he heq)
  obtain ⟨c, hc, hsize⟩ := G.room d hd
  obtain ⟨c', hc', hsize'⟩ := G.room e he
  have hc8 := cpuClass_large hsize
  have hc8' := cpuClass_large hsize'
  have hrec := @irqAddr_private n d.block (s.spis d.cpu) hn
  have hrec' := @irqAddr_private m e.block (s.spis e.cpu) hm
  rw [Hyp.lookup, Hyp.lookup, G.cpu d hd, G.cpu e he] at h
  have hin : irqAddr d.block (s.spis d.cpu) n ∈ block d.block (2 ^ c.val) := by
    simp only [mem_block]
    omega
  refine Set.disjoint_left.mp (hc.disjoint hc' hblock) hin ?_
  rw [h]
  simp only [mem_block]
  omega

/-- No shared record begins where a private one does: blocks are aligned, and the private
records begin two bytes behind the bitmap. -/
theorem GicsMade.private_ne_shared (G : GicsMade start cs ds s) (hd : d ∈ cs) {v : Fin ncpu}
    (hv : (s.vcpus v).vm ∈ ds) (hn : n < 32) (hm : 32 ≤ m) :
    s.lookup d.cpu n ≠ s.lookup v m := by
  obtain ⟨live, free, B, _⟩ := G.blocks
  obtain ⟨c, hc, _⟩ := G.room d hd
  obtain ⟨c', hc'⟩ := G.spis _ hv
  have halign := B.toLayout.aligned hc
  have halign' := B.toLayout.aligned hc'
  have hrec := @irqAddr_private n d.block (s.spis d.cpu) hn
  have hspis : s.spis v % 8 = 0 := halign'
  intro h
  rw [Hyp.lookup, Hyp.lookup, G.cpu d hd, irqAddr_shared hm, spiRecord, sizeofIrqConfig] at h
  omega

/-- **Different interrupts have different records.** -/
theorem GicsMade.record_inj (G : GicsMade start cs ds s) (hd : d ∈ cs) (he : e ∈ cs)
    (hvm : (s.vcpus d.cpu).vm ∈ ds) (hsame : (s.vcpus e.cpu).vm = (s.vcpus d.cpu).vm)
    (h : s.lookup d.cpu n = s.lookup e.cpu m) : n = m ∧ (n < 32 → d.cpu = e.cpu) := by
  have hvm' : (s.vcpus e.cpu).vm ∈ ds := hsame ▸ hvm
  rcases Nat.lt_or_ge n 32 with hn | hn
  · rcases Nat.lt_or_ge m 32 with hm | hm
    · have hcpu := G.cpu_of_record hd he hn hm h
      refine ⟨?_, fun _ => hcpu⟩
      rw [← hcpu] at h
      exact @irqAddr_inj _ _ n m 0 (by omega) h
    · exact absurd h (G.private_ne_shared hd hvm' hn hm)
  · rcases Nat.lt_or_ge m 32 with hm | hm
    · exact absurd h.symm (G.private_ne_shared he hvm hm hn)
    · have hspis : s.spis e.cpu = s.spis d.cpu := by
        rw [Hyp.spis, Hyp.spis, Hyp.dist, Hyp.dist, hsame]
      rw [Hyp.lookup, Hyp.lookup, irqAddr_shared hn, irqAddr_shared hm, hspis, spiRecord,
        spiRecord, sizeofIrqConfig] at h
      exact ⟨by omega, fun hlt => absurd hlt (by omega)⟩

/-- **Looking up is sound but for the interrupts `16` to `31`.**  In every history from a heap in
order, for every two virtual CPUs of a machine and every two interrupts: the lookup is as it
should be exactly if the interrupt is not one of the PPIs, which are looked up behind their
array. -/
theorem vgicIrqGet_sound_iff (hheap : ∃ live free, Blocks start (Hyp.heapPart.get s₀) live free)
    (hrun : GicHistory P start s₀ cs ds s) (hd : d ∈ cs) (he : e ∈ cs)
    (hvm : (s.vcpus d.cpu).vm ∈ ds) (hsame : (s.vcpus e.cpu).vm = (s.vcpus d.cpu).vm) (n m : ℕ) :
    LookupSound s d e n m ↔ ¬ (16 ≤ n ∧ n < 32) := by
  have G := hrun.made hheap
  have hlookup := G.lookup hvm
  have hlookup' := G.lookup (hsame ▸ hvm : (s.vcpus e.cpu).vm ∈ ds)
  constructor
  · rintro hsound ⟨hlo, hhi⟩
    obtain ⟨a, hget, ⟨i, hi, harray⟩, _⟩ := hsound.own hhi
    rw [hlookup] at hget
    have ha : s.lookup d.cpu n = a := by
      injection hget
    rw [Hyp.lookup, irqAddr, if_neg (by omega), if_pos hhi] at ha
    simp only [sgiAddr, ppiAddr, sizeofIrqConfig] at ha harray
    omega
  · intro hout
    refine ⟨?_, ?_, ?_⟩
    · intro hn
      have hsgi : n < 16 := by omega
      have hrecord : s.lookup d.cpu n = sgiAddr (s.vcpus d.cpu).vgicCpu n := by
        rw [Hyp.lookup, irqAddr, if_pos hsgi]
      refine ⟨_, hlookup n, ⟨n, hsgi, Or.inl hrecord⟩, ?_⟩
      rw [hrecord, G.cpu d hd]
      exact (G.init d hd n hsgi).1
    · intro hn _
      rw [hlookup, Hyp.lookup, irqAddr_shared hn]
    · intro a hget hget'
      rw [hlookup] at hget
      rw [hlookup'] at hget'
      have ha : s.lookup d.cpu n = a := by
        injection hget
      have ha' : s.lookup e.cpu m = a := by
        injection hget'
      exact G.record_inj hd he hvm hsame (ha.trans ha'.symm)

end lookup

/-- A machine in cleared memory with two virtual CPUs, with their records and the machine's. -/
theorem exists_twoCpus (P : Platform) {spis : ℤ} {c : Fin blkSliceBit}
    (hc : ofClass (nspis spis) c) : ∃ (d e : MadeCpu) (s : Hyp),
    GicHistory P 0x10000 { emptyVm with gicMaxSpi := spis } [e, d] [0x200] s ∧
      s.gicMaxSpi = spis ∧ d.cpu = 0 ∧ e.cpu = 1 ∧
      (s.vcpus 0).vm = 0x200 ∧ (s.vcpus 1).vm = 0x200 ∧ (s.vms 0x200).nvcpu = 2 ∧
        (s.vms 0x200).vcpus = fun k => if k.val < 2 then some k else none := by
  obtain ⟨a, s₁, hdist, A⟩ := exists_emptyVm_able P hc
  have hready : TrapReady 0x10000 { emptyVm with gicMaxSpi := spis } 0x200 := by
    obtain ⟨h₁, h₂, h₃, h₄, h₅, h₆, h₇, h₈, h₉⟩ := emptyVm_ready
    exact ⟨h₁, h₂, h₃, h₄, h₅, h₆, h₇, h₈, h₉⟩
  generalize { emptyVm with gicMaxSpi := spis } = s₀ at hdist hready ⊢
  have h₁ := GicHistory.start.dist (P := P) List.not_mem_nil hready hdist
  generalize hs₂ : s₁.setVm 0x200 { s₁.vms 0x200 with vgicDist := a } = s₂ at h₁
  have A₂ : Able 0x10000 spis [8, 8] s₂ := by
    rw [← hs₂]
    exact A.congr rfl A.vcpus_free rfl
  obtain ⟨b, s₃, hcpu, A₃, _⟩ := exists_ok_of_wp (@Able.createVgicCpu _ _ _ _ _ 0 A₂)
  have hnone : ∀ d ∈ ([] : List MadeCpu), d.cpu ≠ 0 := fun d hd => absurd hd List.not_mem_nil
  have h₃ := h₁.cpu hnone hcpu
  generalize hs₄ : s₃.setVcpu 0 { s₃.vcpus 0 with vgicCpu := b } = s₄ at h₃
  have A₄ : Able 0x10000 spis [8] s₄ := by
    rw [← hs₄]
    refine A₃.congr rfl ?_ rfl
    simpa [Hyp.setVcpu] using A₃.vcpus_free
  obtain ⟨b', s₅, hcpu', A₅, _⟩ := exists_ok_of_wp (@Able.createVgicCpu _ _ _ _ _ 1 A₄)
  have hother : ∀ d ∈ [(⟨0, 0, b, s₃.ram.mem⟩ : MadeCpu)], d.cpu ≠ 1 := by
    intro d hd
    rw [List.mem_singleton.mp hd]
    exact (by decide : (0 : Fin ncpu) ≠ 1)
  have h₅ := h₃.cpu hother hcpu'
  have hspis : (s₅.setVcpu 1 { s₅.vcpus 1 with vgicCpu := b' }).gicMaxSpi = spis := A₅.spis
  generalize s₅.setVcpu 1 { s₅.vcpus 1 with vgicCpu := b' } = s₆ at h₅ hspis
  -- the virtual CPUs are given to the machine
  obtain ⟨s₇, hs₇⟩ : ∃ s₇, s₇ = { s₆ with
    vcpus := fun v => { s₆.vcpus v with vm := 0x200 }
    vms := Function.update s₆.vms 0x200 { s₆.vms 0x200 with
      nvcpu := 2
      vcpus := fun k => if k.val < 2 then some k else none } } := ⟨_, rfl⟩
  have hvms : s₇.vms = Function.update s₆.vms 0x200 { s₆.vms 0x200 with
      nvcpu := 2
      vcpus := fun k => if k.val < 2 then some k else none } := by
    rw [hs₇]
  have hdist : ∀ vm, (s₇.vms vm).vgicDist = (s₆.vms vm).vgicDist := by
    intro vm
    rw [hvms]
    by_cases hvm : vm = 0x200
    · rw [hvm, Function.update_self]
    · rw [Function.update_of_ne hvm]
  have hleaves : LeavesGics 0x10000 [⟨1, 1, b', s₅.ram.mem⟩, ⟨0, 0, b, s₃.ram.mem⟩] [0x200]
      s₆ s₇ := by
    refine ⟨fun live free B => ⟨live, free, ?_, fun _ _ h => h, fun _ _ h => h⟩, ?_, ?_,
      fun vm _ => hdist vm, ?_⟩
    · rw [hs₇]
      exact B.congr rfl rfl
    · rw [hs₇]
      exact fun _ _ h => h
    · intro d _
      rw [hs₇]
    · rw [hs₇]
      exact fun _ _ => rfl
  refine ⟨_, _, s₇, h₅.other hleaves, hs₇ ▸ hspis, rfl, rfl, ?_⟩
  rw [hvms, Function.update_self]
  refine ⟨?_, ?_, rfl, rfl⟩
  · rw [hs₇]
  · rw [hs₇]

/-- The lookup of an SGI there. -/
theorem vgicIrqGet_sound_sgi : ∃ (d : MadeCpu) (s : Hyp), d.cpu = 0 ∧ LookupSound s d d 3 3 := by
  obtain ⟨d, e, s, hrun, _, hcpu, _, hvm, _⟩ :=
    @exists_twoCpus ⟨fun _ _ => 0, 0, 0, 0, 0, 0⟩ 63 5 (by decide)
  have hmem : (s.vcpus d.cpu).vm ∈ [0x200] := by
    rw [hcpu, hvm]
    exact List.mem_singleton_self _
  have hd : d ∈ [e, d] := List.mem_cons_of_mem _ (List.mem_singleton_self d)
  have hiff := vgicIrqGet_sound_iff emptyVm_blocks hrun hd hd hmem rfl 3 3
  exact ⟨d, s, hcpu, hiff.mpr (by decide)⟩

/-- The timer's PPI is looked up behind the array. -/
theorem vgicIrqGet_unsound : ¬ ∀ (P : Platform) (start : ℕ) (s₀ s : Hyp) (cs : List MadeCpu)
    (ds : List ℕ) (d e : MadeCpu) (n m : ℕ),
    (∃ live free, Blocks start (Hyp.heapPart.get s₀) live free) →
    GicHistory P start s₀ cs ds s → d ∈ cs → e ∈ cs → (s.vcpus d.cpu).vm ∈ ds →
    (s.vcpus e.cpu).vm = (s.vcpus d.cpu).vm → LookupSound s d e n m := by
  intro hall
  obtain ⟨d, e, s, hrun, _, hcpu, _, hvm, _⟩ :=
    @exists_twoCpus ⟨fun _ _ => 0, 0, 0, 0, 0, 0⟩ 63 5 (by decide)
  have hmem : (s.vcpus d.cpu).vm ∈ [0x200] := by
    rw [hcpu, hvm]
    exact List.mem_singleton_self _
  have hd : d ∈ [e, d] := List.mem_cons_of_mem _ (List.mem_singleton_self d)
  have hsound := hall _ _ _ _ _ _ d d 27 27 emptyVm_blocks hrun hd hd hmem rfl
  obtain ⟨a, hget, ⟨i, hi, harray⟩, _⟩ := hsound.own (by decide)
  have hlookup := (hrun.made emptyVm_blocks).lookup hmem 27
  rw [hlookup] at hget
  have ha : s.lookup d.cpu 27 = a := by
    injection hget
  have hrecord : s.lookup d.cpu 27 = (s.vcpus d.cpu).vgicCpu + 174 := rfl
  simp only [sgiAddr, ppiAddr, sizeofIrqConfig] at harray
  omega

end Xhyper
