import Xhyper.GicLookup
import Xhyper.PrivateEnables
import Xhyper.SpiAccess
import Xhyper.StaleLoads

/-!
# The priorities of private interrupts

A frame of the redistributors has eight registers with the priorities of the private interrupts of
its virtual CPU, four to a register.

The functions count the interrupts from the offset in the region.  In the first frame that is the
number of the interrupt, and the records of the first sixteen are found under it; those of the
others are looked for behind their array.  In the other frames it is the number of a shared
interrupt that no controller has, and the record of it is looked for far behind the heap.  In both
places a write can be read back, but it has not reached the interrupts of the frame.

## Main definitions

* `GicPlaces`, `GicsMade.places` — where the records and the distributors are.
* `FrameAt`, `prioOffset` — a frame of a machine, and its priority registers.
* `PrioritiesWritten`, `PrioritiesReached` — what a write should do, and the ones that do.
* `OtherWrites`, `GicWrite.Spares` — writes to other registers, and the ones that do not go over
  the priorities.
* `PrioritiesRead` — a read after them gets the value.
* `gicrPriorities_iff` — what the code does.
-/

namespace Xhyper

open Memory Prog

/-! ## Where the records are -/

/-- The virtual CPUs and machines of a history. -/
def Hyp.gicSystem (s : Hyp) (cs : List MadeCpu) (ds : List ℕ) : GicSystem where
  cpus := {v | ∃ d ∈ cs, d.cpu = v}
  vms := {vm | vm ∈ ds}
  max := s.gicMaxSpi.toNat

/-- **Where everything is**: the private records and the distributors are apart from each other in
the heap, and the shared records begin in it. -/
structure GicPlaces (start : ℕ) (S : GicSystem) (s : Hyp) : Prop where
  vm_ne : ∀ vm ∈ S.vms, vm ≠ 0
  dist_ne : ∀ vm ∈ S.vms, (s.vms vm).vgicDist ≠ 0
  cpu : ∀ v ∈ S.cpus, start ≤ (s.vcpus v).vgicCpu ∧
    (s.vcpus v).vgicCpu + 2 ^ 8 ≤ start + configBlkSize
  dist : ∀ vm ∈ S.vms, start ≤ (s.vms vm).vgicDist ∧
    (s.vms vm).vgicDist + sizeofVgicDist ≤ start + configBlkSize
  spis : ∀ vm ∈ S.vms, start ≤ read64 s.ram.mem ((s.vms vm).vgicDist + 8) ∧
    read64 s.ram.mem ((s.vms vm).vgicDist + 8) < start + configBlkSize
  cpu_cpu : ∀ v ∈ S.cpus, ∀ w ∈ S.cpus, v ≠ w →
    Disjoint (block (s.vcpus v).vgicCpu (2 ^ 8)) (block (s.vcpus w).vgicCpu (2 ^ 8))
  cpu_dist : ∀ v ∈ S.cpus, ∀ vm ∈ S.vms,
    Disjoint (block (s.vcpus v).vgicCpu (2 ^ 8)) (block (s.vms vm).vgicDist sizeofVgicDist)
  dist_dist : ∀ i ∈ S.vms, ∀ j ∈ S.vms, i ≠ j →
    Disjoint (block (s.vms i).vgicDist sizeofVgicDist) (block (s.vms j).vgicDist sizeofVgicDist)

section places
variable {start : ℕ} {cs : List MadeCpu} {ds : List ℕ} {S : GicSystem} {s s' : Hyp}

theorem GicsMade.places (G : GicsMade start cs ds s) : GicPlaces start (s.gicSystem cs ds) s := by
  obtain ⟨live, free, B, _⟩ := G.blocks
  have hstart : s.sysBlk.poolStart = start := B.start_eq
  constructor
  · exact G.ne_zero
  · intro vm hvm
    obtain ⟨c, hc, _⟩ := G.dist vm hvm
    exact B.toLayout.ne_zero hc
  · rintro _ ⟨d, hd, rfl⟩
    obtain ⟨c, hc, hsize⟩ := G.room d hd
    have hlarge := cpuClass_large hsize
    have hbounds := hc.bounds
    rw [G.cpu d hd]
    omega
  · intro vm hvm
    obtain ⟨c, hc, hsize⟩ := G.dist vm hvm
    have hbounds := hc.bounds
    omega
  · intro vm hvm
    obtain ⟨c, hc⟩ := G.spis vm hvm
    have hbounds := hc.bounds
    have hpos : 0 < 2 ^ c.val := Nat.two_pow_pos _
    omega
  · rintro _ ⟨d, hd, rfl⟩ _ ⟨e, he, rfl⟩ hne
    obtain ⟨c, hc, hsize⟩ := G.room d hd
    obtain ⟨c', hc', hsize'⟩ := G.room e he
    have hblock : d.block ≠ e.block := fun heq => hne (G.inj d hd e he heq)
    rw [G.cpu d hd, G.cpu e he]
    have hlarge := cpuClass_large hsize
    have hlarge' := cpuClass_large hsize'
    exact (hc.disjoint hc' hblock).mono (block_subset le_rfl (by omega))
      (block_subset le_rfl (by omega))
  · rintro _ ⟨d, hd, rfl⟩ vm hvm
    obtain ⟨c, hc, hsize⟩ := G.room d hd
    obtain ⟨c', hc', hsize'⟩ := G.dist vm hvm
    rw [G.cpu d hd]
    have hlarge := cpuClass_large hsize
    exact (hc.disjoint hc' (G.apart d hd vm hvm)).mono (block_subset le_rfl (by omega))
      (block_subset le_rfl (by omega))
  · intro i hi j hj hne
    obtain ⟨c, hc, hsize⟩ := G.dist i hi
    obtain ⟨c', hc', hsize'⟩ := G.dist j hj
    have hblock : (s.vms i).vgicDist ≠ (s.vms j).vgicDist := fun heq =>
      hne (G.dist_inj i hi j hj heq)
    exact (hc.disjoint hc' hblock).mono (block_subset le_rfl (by omega))
      (block_subset le_rfl (by omega))

/-- The places stay while the pointers do. -/
theorem GicPlaces.congr (G : GicPlaces start S s) (hvcpus : s'.vcpus = s.vcpus)
    (hvms : s'.vms = s.vms) (hptr : ∀ vm ∈ S.vms,
      Set.EqOn s'.ram.mem s.ram.mem (block ((s.vms vm).vgicDist + 8) 8)) :
    GicPlaces start S s' := by
  have hspis : ∀ vm ∈ S.vms, read64 s'.ram.mem ((s'.vms vm).vgicDist + 8) =
      read64 s.ram.mem ((s.vms vm).vgicDist + 8) := by
    intro vm hvm
    rw [hvms]
    exact readLe_congr fun x hx => hptr vm hvm hx
  constructor
  · exact G.vm_ne
  · rw [hvms]
    exact G.dist_ne
  · rw [hvcpus]
    exact G.cpu
  · rw [hvms]
    exact G.dist
  · intro vm hvm
    rw [hspis vm hvm]
    exact G.spis vm hvm
  · rw [hvcpus]
    exact G.cpu_cpu
  · rw [hvcpus, hvms]
    exact G.cpu_dist
  · rw [hvms]
    exact G.dist_dist

end places

/-! ## The frames of a machine -/

/-- The slots of every machine of the system hold virtual CPUs of its own, as they do when it has
been built. -/
structure FramesFilled (S : GicSystem) (s : Hyp) : Prop where
  nvcpu : ∀ vm ∈ S.vms, (s.vms vm).nvcpu ≤ ncpu
  entry : ∀ vm ∈ S.vms, ∀ k t, (s.vms vm).vcpus k = some t → t ∈ S.cpus ∧ (s.vcpus t).vm = vm

/-- The frame `k` of the machine of `v` is that of `t`. -/
structure FrameAt (S : GicSystem) (s : Hyp) (v k t : Fin ncpu) : Prop where
  machine : (s.vcpus v).vm ∈ S.vms
  present : (k.val : ℤ) < (s.vms (s.vcpus v).vm).nvcpu
  entry : (s.vms (s.vcpus v).vm).vcpus k = some t

/-- The virtual CPUs in use, and their machines. -/
def Hyp.usedSystem (s : Hyp) : GicSystem where
  cpus := {v | (s.vcpus v).state ≠ .unused}
  vms := {vm | ∃ v, (s.vcpus v).state ≠ .unused ∧ (s.vcpus v).vm = vm}
  max := s.gicMaxSpi.toNat

section used
variable {start : ℕ} {s : Hyp}

/-- Whatever machines have been made, their slots are filled so. -/
theorem Slots.framesFilled (L : Slots start s) : FramesFilled s.usedSystem s := by
  constructor
  · rintro _ ⟨v, hv, rfl⟩
    obtain ⟨base, n, O⟩ := L.owner v hv
    have hle := O.nvcpu_le
    have hn := O.n_le
    omega
  · rintro _ ⟨v, hv, rfl⟩ k t hentry
    obtain ⟨base, n, O⟩ := L.owner v hv
    exact O.entry hentry

/-- Every frame below `nvcpu` is there. -/
theorem Slots.frameAt (L : Slots start s) {v k : Fin ncpu} (hv : (s.vcpus v).state ≠ .unused)
    (hk : (k.val : ℤ) < (s.vms (s.vcpus v).vm).nvcpu) : ∃ t, FrameAt s.usedSystem s v k t := by
  obtain ⟨base, n, O⟩ := L.owner v hv
  have hlt : k.val < n := by
    have hle := O.nvcpu_le
    omega
  exact ⟨⟨base + k.val, O.fits k.val hlt⟩, ⟨v, hv, rfl⟩, hk, (O.slots k _).mpr ⟨hlt, rfl⟩⟩

end used

/-- `GICR_IPRIORITYR(r)` in the frame `k`. -/
def prioOffset (k r : ℕ) : ℕ := k * gicrStride + 0x10400 + 4 * r

/-- The first of the four interrupts that the code counts for it. -/
def countedIrq (k r : ℕ) : ℕ := k * gicrStride + 4 * r

/-- A number that the code counts in a frame: of a private interrupt, or of none. -/
def Counted (n : ℕ) : Prop := n < 32 ∨ gicrStride ≤ n

section numbers
variable {r i : ℕ}

theorem prioOffset_div (hr : r < 8) (k : ℕ) : prioOffset k r / gicrStride = k := by
  simp only [prioOffset, gicrStride]
  omega

theorem prioOffset_mod (hr : r < 8) (k : ℕ) :
    prioOffset k r % gicrStride = 0x10400 + 4 * r := by
  simp only [prioOffset, gicrStride]
  omega

theorem gicrPrioIrq_prioOffset (k r : ℕ) : gicrPrioIrq (prioOffset k r) = countedIrq k r := by
  simp only [gicrPrioIrq, prioOffset, countedIrq, gicrStride]
  omega

theorem counted_irq (hr : r < 8) (hi : i < 4) (k : ℕ) : Counted (countedIrq k r + i) := by
  simp only [Counted, countedIrq, gicrStride]
  omega

/-- In the first frame it is the number of the interrupt. -/
theorem countedIrq_first (r : ℕ) : countedIrq 0 r = 4 * r := by
  rw [countedIrq, Nat.zero_mul, Nat.zero_add]

/-- What is counted at any priority register. -/
theorem counted_prio {offset : ℕ} (ho : gicrPrio (offset % gicrStride)) (hi : i < 4) :
    Counted (gicrPrioIrq offset + i) := by
  simp only [gicrPrio, gicrPrioIrq, Counted, gicrStride] at ho ⊢
  omega

end numbers

section frames
variable {start r n f : ℕ} {S : GicSystem} {s : Hyp} {v k t : Fin ncpu} {val : BitVec 64}

/-- The code finds the record of an SGI of its own arrays. -/
theorem lookup_sgi (hn : n < 16) : s.lookup v n = (Irq.priv v n).record s := by
  rw [← record_irq (Or.inl hn), Hyp.irq, if_pos (by omega)]

/-- What is looked for under the numbers of private interrupts is in the block of the virtual CPU,
if not in its arrays. -/
theorem lookup_mem (hn : n < 32) (hf : f < 4) :
    s.lookup v n + f ∈ block (s.vcpus v).vgicCpu (2 ^ 8) := by
  simp only [Hyp.lookup, irqAddr, if_pos hn, sgiAddr, ppiAddr, sizeofIrqConfig, mem_block]
  split <;> omega

/-- Different bytes of it are in different places. -/
theorem lookup_inj {n' f' : ℕ} (hn : n < 32) (hn' : n' < 32) (hf : f < 4) (hf' : f' < 4)
    (h : s.lookup v n + f = s.lookup v n' + f') : n = n' ∧ f = f' := by
  simp only [Hyp.lookup, irqAddr, if_pos hn, if_pos hn', sgiAddr, ppiAddr, sizeofIrqConfig] at h
  split at h <;> split at h <;> omega

/-- Private records are in the block of the virtual CPU. -/
theorem priv_mem (hn : n < 32) (hf : f < 4) :
    (Irq.priv v n).record s + f ∈ block (s.vcpus v).vgicCpu (2 ^ 8) := by
  simp only [Irq.record, slotAddr, if_pos hn, sgiAddr, ppiAddr, sizeofIrqConfig, mem_block]
  split <;> omega

/-- Different bytes of them are in different places. -/
theorem priv_inj {n' f' : ℕ} (hn : n < 32) (hn' : n' < 32) (hf : f < 4) (hf' : f' < 4)
    (h : (Irq.priv v n).record s + f = (Irq.priv v n').record s + f') : n = n' ∧ f = f' := by
  simp only [Irq.record, slotAddr, if_pos hn, if_pos hn', sgiAddr, ppiAddr, sizeofIrqConfig] at h
  split at h <;> split at h <;> omega

/-- Under the numbers of the other private interrupts the code looks behind the arrays. -/
theorem lookup_ppi_ne {n' : ℕ} (hn : 16 ≤ n) (hn' : n' < 32) (hlt : n < 32) :
    s.lookup v n ≠ (Irq.priv v n').record s := by
  simp only [Hyp.lookup, irqAddr, Irq.record, slotAddr, if_neg (Nat.not_lt.mpr hn), if_pos hlt,
    if_pos hn', sgiAddr, ppiAddr, sizeofIrqConfig]
  split <;> omega

/-- What is looked for under the numbers of the other frames is far behind the heap. -/
theorem GicPlaces.record_far (G : GicPlaces start S s) (hvm : (s.vcpus t).vm ∈ S.vms)
    (hn : gicrStride ≤ n) : start + configBlkSize + 4096 ≤ s.lookup t n := by
  have hspis : start ≤ s.spis t := (G.spis _ hvm).1
  simp only [gicrStride] at hn
  rw [lookup_spi (by omega), spiRecord, sizeofIrqConfig, configBlkSize]
  omega

/-- No private record reaches so far. -/
theorem GicPlaces.priv_near (G : GicPlaces start S s) (ht : t ∈ S.cpus) (hn : n < 32) :
    (Irq.priv t n).record s < start + configBlkSize + 4096 := by
  have hcpu := (G.cpu t ht).2
  have hmem := @priv_mem n 0 s t hn (by decide)
  simp only [mem_block] at hmem
  omega

/-- No distributor does. -/
theorem GicPlaces.dist_near (G : GicPlaces start S s) {vm x : ℕ} (hvm : vm ∈ S.vms)
    (hx : x ∈ block (s.vms vm).vgicDist sizeofVgicDist) : x < start + configBlkSize + 4096 := by
  have hdist := (G.dist vm hvm).2
  simp only [mem_block] at hx
  omega

/-- The records that the code looks for are apart from the distributors' own fields. -/
theorem GicPlaces.counted_out (G : GicPlaces start S s) (ht : t ∈ S.cpus)
    (hvm : (s.vcpus t).vm ∈ S.vms) (hn : Counted n) (hf : f < 4) {vm : ℕ} (hin : vm ∈ S.vms) :
    s.lookup t n + f ∉ block (s.vms vm).vgicDist sizeofVgicDist := by
  intro hx
  rcases hn with hn | hn
  · exact Set.disjoint_left.mp (G.cpu_dist t ht vm hin) (lookup_mem hn hf) hx
  · have hfar := G.record_far hvm hn
    have hnear := G.dist_near hin hx
    omega

/-- Different records that it looks for are in different places. -/
theorem record_inj_four (hn : ∀ i < 4, Counted (n + i)) {i j : ℕ} (hi : i < 4) (hj : j < 4)
    (h : s.lookup t (n + i) = s.lookup t (n + j)) : i = j := by
  rcases hn i hi with hlt | hge
  · have hlt' : n + j < 32 := by
      rcases hn j hj with hlt' | hge'
      · exact hlt'
      · simp only [gicrStride] at hge'
        omega
    have hirq := (@lookup_inj _ 0 _ _ _ 0 hlt hlt' (by decide) (by decide) h).1
    omega
  · have hge' : gicrStride ≤ n + j := by
      rcases hn j hj with hlt' | hge'
      · simp only [gicrStride] at hge
        omega
      · exact hge'
    simp only [gicrStride] at hge hge'
    rw [lookup_spi (by omega), lookup_spi (by omega), spiRecord, spiRecord, sizeofIrqConfig] at h
    omega

/-- They go over records that are apart from the distributors' own fields. -/
theorem GicPlaces.gicrLoop_out (G : GicPlaces start S s) (ht : t ∈ S.cpus)
    (hvm : (s.vcpus t).vm ∈ S.vms) {offset : ℕ} {L : RegLoop} (hL : gicrLoop offset val = some L)
    {vm : ℕ} (hin : vm ∈ S.vms) :
    ∀ i < L.n, L.addr t s i ∉ block (s.vms vm).vgicDist sizeofVgicDist := by
  rcases gicrLoop_cases hL with ⟨_, rfl⟩ | ⟨hprio, rfl⟩
  · intro i hi
    have hi' : 0 + i < 32 := (Nat.zero_add i).symm ▸ hi
    exact G.counted_out ht hvm (Or.inl hi') (by decide : 2 < 4) hin
  · intro i hi
    exact G.counted_out ht hvm (counted_prio hprio hi) (by decide : 0 < 4) hin

theorem GicPlaces.gicr_keepsPtr (G : GicPlaces start S s) (ht : t ∈ S.cpus)
    (hvm : (s.vcpus t).vm ∈ S.vms) {offset : ℕ} {L : RegLoop}
    (hL : gicrLoop offset val = some L) : L.KeepsPtr t s :=
  (RegLoop.keepsDist_of_out fun i hi _ => G.gicrLoop_out ht hvm hL hvm i hi).keepsPtr

theorem gicrLoop_prioOffset (hr : r < 8) (k : ℕ) (val : BitVec 64) :
    gicrLoop (prioOffset k r) val = some (prioLoop (countedIrq k r) val) := by
  have hmod := prioOffset_mod hr k
  rw [gicrLoop, if_neg (by omega), if_pos (by omega), gicrPrioIrq_prioOffset]

theorem FrameAt.ready (A : FrameAt S s v k t) (G : GicPlaces start S s) (C : FramesFilled S s)
    (hr : r < 8) : FrameReady s v (prioOffset k r) ∧ s.frameVcpu v (prioOffset k r) = t := by
  have hdiv := prioOffset_div hr k.val
  have hlt : prioOffset k r / gicrStride < ncpu := by
    rw [hdiv]
    exact k.isLt
  have hk : (⟨prioOffset k r / gicrStride, hlt⟩ : Fin ncpu) = k := Fin.ext hdiv
  have hframe : s.frameVcpu v (prioOffset k r) = t := by
    rw [Hyp.frameVcpu, dif_pos hlt, hk, A.entry, Option.getD_some]
  have hcount := C.nvcpu _ A.machine
  obtain ⟨_, hsame⟩ := C.entry _ A.machine k t A.entry
  refine ⟨⟨G.vm_ne _ A.machine, G.dist_ne _ A.machine, ?_, ?_, ?_, ?_, ?_⟩, hframe⟩
  · have hk := k.isLt
    simp only [prioOffset, gicrStride, gicrSize, ncpu] at hk ⊢
    omega
  · rw [hdiv]
    exact A.present
  · simp only [ncpu] at hcount
    omega
  · rw [hframe, ← A.entry]
    exact congrArg _ hk
  · rw [hframe, hsame]

/-- **A write to a priority register** goes over the interrupts that are counted from the offset in
the region. -/
theorem FrameAt.write (A : FrameAt S s v k t) (G : GicPlaces start S s) (C : FramesFilled S s)
    (hr : r < 8) (val : BitVec 64) : vgicrWrite v (prioOffset k r) val s =
      .ok 0 ((prioLoop (countedIrq k r) val).after t s 4) := by
  obtain ⟨R, hframe⟩ := A.ready G C hr
  obtain ⟨ht, hsame⟩ := C.entry _ A.machine k t A.entry
  have hvm : (s.vcpus t).vm ∈ S.vms := hsame ▸ A.machine
  have hloop := gicrLoop_prioOffset hr k.val val
  have hreg := vgicrWriteReg_loop (G.vm_ne _ hvm) (G.dist_ne _ hvm) hloop
    (G.gicr_keepsPtr ht hvm hloop)
  rw [R.write_eq, hframe]
  exact hreg

/-- **A read** shows the same interrupts. -/
theorem FrameAt.read (A : FrameAt S s v k t) (G : GicPlaces start S s) (C : FramesFilled S s)
    (hr : r < 8) (hw : GicrHw) (x : Fin 31) : vgicrRead hw v (prioOffset k r) (some x) s =
      .ok 0 (s.setX v x ((gathered s.ram.mem (fun i => s.lookup t (countedIrq k r + i)) 8 0
        4).setWidth 64)) := by
  obtain ⟨R, hframe⟩ := A.ready G C hr
  obtain ⟨_, hsame⟩ := C.entry _ A.machine k t A.entry
  have hvm : (s.vcpus t).vm ∈ S.vms := hsame ▸ A.machine
  have hprio : gicrPrio (prioOffset k r % gicrStride) := by
    rw [prioOffset_mod hr, gicrPrio]
    omega
  have hreg := @vgicrReadReg_prio s v t (prioOffset k r) x hw _ (G.vm_ne _ hvm)
    (G.dist_ne _ hvm) hprio
  have haddr : RegFields.addr ⟨countedIrq k r, 4, 0, 8⟩ t s =
      fun i => s.lookup t (countedIrq k r + i) := by
    funext i
    rw [RegFields.addr, Nat.add_zero]
  rw [gicrPrioIrq_prioOffset, haddr] at hreg
  rw [R.read_eq, hframe]
  exact hreg

end frames

/-! ## What a write should do -/

section agreement
variable (S : GicSystem) (s : Hyp) (v k t : Fin ncpu) (r : ℕ) (val : BitVec 64)

/-- **After a write** to the priority register `r` of the frame of `t` its four interrupts have the
bytes of the value, and no other byte of a record has changed. -/
structure PrioritiesSet (s' : Hyp) : Prop where
  sets : ∀ i < 4, s'.ram.mem ((Irq.priv t (4 * r + i)).record s) = valByte val i
  others : Set.EqOn s'.ram.mem s.ram.mem (S.others s (s.named t (4 * r) 4) 0)

/-- A write by `v` to the frame `k`, which is that of `t`, does that. -/
def PrioritiesWritten : Prop := ∃ s', vgicrWrite v (prioOffset k r) val s = .ok 0 s' ∧
  PrioritiesSet S s t r val s'

/-- **A write that does what it should**: it is to SGIs in the first frame, or each of the four
interrupts has its byte already; and what is stored into the records of other interrupts is there
already. -/
structure PrioritiesReached : Prop where
  own : (k.val = 0 ∧ r < 4) ∨
    ∀ i < 4, s.ram.mem ((Irq.priv t (4 * r + i)).record s) = valByte val i
  spared : ∀ i < 4, s.lookup t (countedIrq k r + i) ∈ S.others s (s.named t (4 * r) 4) 0 →
    s.ram.mem (s.lookup t (countedIrq k r + i)) = valByte val i

end agreement

section write
variable {start r : ℕ} {S : GicSystem} {s : Hyp} {v k t : Fin ncpu} {val : BitVec 64}

theorem prioLoop_addr (n i : ℕ) : (prioLoop n val).addr t s i = s.lookup t (n + i) :=
  Nat.add_zero _

theorem prioLoop_inj (hr : r < 8) : ∀ i < 4, ∀ j < 4,
    (prioLoop (countedIrq k r) val).addr t s i = (prioLoop (countedIrq k r) val).addr t s j →
      i = j := by
  intro i hi j hj h
  rw [prioLoop_addr, prioLoop_addr] at h
  exact record_inj_four (fun _ hi => counted_irq hr hi k) hi hj h

/-- A write sets the four bytes that the code looks for. -/
theorem prioLoop_sets (hr : r < 8) {i : ℕ} (hi : i < 4) :
    ((prioLoop (countedIrq k r) val).after t s 4).ram.mem (s.lookup t (countedIrq k r + i)) =
      valByte val i := by
  rw [RegLoop.after_mem, ← @prioLoop_addr s t val]
  exact scatter_of_mem (prioLoop_inj hr) hi rfl

/-- The other records keep theirs where what is stored is there already. -/
theorem prioLoop_others_iff (hr : r < 8) {A : Set ℕ} :
    Set.EqOn ((prioLoop (countedIrq k r) val).after t s 4).ram.mem s.ram.mem A ↔
      ∀ i < 4, s.lookup t (countedIrq k r + i) ∈ A →
        s.ram.mem (s.lookup t (countedIrq k r + i)) = valByte val i := by
  rw [RegLoop.after_mem, eqOn_scatter_iff (prioLoop_inj hr)]
  simp only [prioLoop_addr]
  exact ⟨fun h i hi => h i hi rfl, fun h i hi _ => h i hi⟩

/-- In the first frame the code finds the records of SGIs. -/
theorem lookup_countedIrq (hk : k.val = 0) {i : ℕ} (hr : r < 4) (hi : i < 4) :
    s.lookup t (countedIrq k r + i) = (Irq.priv t (4 * r + i)).record s := by
  rw [hk, countedIrq_first, lookup_sgi (by omega)]

/-- A write to another register changes no private record. -/
theorem prioLoop_missed (G : GicPlaces start S s) (ht : t ∈ S.cpus)
    (hvm : (s.vcpus t).vm ∈ S.vms) (hr : r < 8) (hmiss : ¬ (k.val = 0 ∧ r < 4)) {n : ℕ}
    (hn : n < 32) : ((prioLoop (countedIrq k r) val).after t s 4).ram.mem ((Irq.priv t n).record s) =
      s.ram.mem ((Irq.priv t n).record s) := by
  rw [RegLoop.after_mem]
  refine scatter_of_notMem fun i hi _ heq => ?_
  rw [prioLoop_addr] at heq
  rcases Nat.eq_zero_or_pos k.val with hk | hk
  · -- a PPI, whose record is looked for behind the array
    rw [hk, countedIrq_first] at heq
    exact lookup_ppi_ne (by omega) hn (by omega) heq.symm
  · have hfar : start + configBlkSize + 4096 ≤ s.lookup t (countedIrq k r + i) := by
      refine G.record_far hvm ?_
      simp only [countedIrq, gicrStride]
      omega
    have hnear := G.priv_near ht hn
    omega

/-- **A write does what it should to SGIs in the first frame**, where no records lie over each
other, and where there is nothing to do. -/
theorem prioritiesWritten_iff (G : GicPlaces start S s) (C : FramesFilled S s)
    (A : FrameAt S s v k t) (hr : r < 8) (val : BitVec 64) :
    PrioritiesWritten S s v k t r val ↔ PrioritiesReached S s k t r val := by
  obtain ⟨ht, hsame⟩ := C.entry _ A.machine k t A.entry
  have hvm : (s.vcpus t).vm ∈ S.vms := hsame ▸ A.machine
  have hrun := A.write G C hr val
  have hsets := fun i (hi : i < 4) => @prioLoop_sets r s k t val hr i hi
  have hothers := @prioLoop_others_iff r s k t val hr (S.others s (s.named t (4 * r) 4) 0)
  have hmissed := fun hmiss i (hi : i < 4) =>
    @prioLoop_missed start r S s k t val G ht hvm hr hmiss (4 * r + i) (by omega)
  generalize (prioLoop (countedIrq k r) val).after t s 4 = s₁ at hrun hsets hothers hmissed
  constructor
  · rintro ⟨s', hrun', D⟩
    obtain rfl : s₁ = s' := by
      injection hrun.symm.trans hrun'
    refine ⟨?_, hothers.mp D.others⟩
    by_cases hmiss : k.val = 0 ∧ r < 4
    · exact Or.inl hmiss
    · refine Or.inr fun i hi => ?_
      rw [← hmissed hmiss i hi]
      exact D.sets i hi
  · intro H
    refine ⟨s₁, hrun, fun i hi => ?_, hothers.mpr H.spared⟩
    by_cases hmiss : k.val = 0 ∧ r < 4
    · rw [← lookup_countedIrq hmiss.1 hmiss.2 hi]
      exact hsets i hi
    · rw [hmissed hmiss i hi]
      exact (H.own.resolve_left hmiss) i hi

end write

/-! ## Writes to other registers -/

/-- The four bytes that the code looks for from the interrupt `n` of `t` on, and the pointers to
the shared records. -/
def keptBytes (S : GicSystem) (s : Hyp) (t : Fin ncpu) (n : ℕ) : Set ℕ :=
  {x | (∃ i < 4, x = s.lookup t (n + i)) ∨
    ∃ vm ∈ S.vms, x ∈ block ((s.vms vm).vgicDist + 8) 8}

/-- A guest's write to a register of one of the devices. -/
structure GicWrite where
  issuer : Fin ncpu
  dev : VgicDev
  offset : ℕ
  val : BitVec 64

/-- The slot of the frame of an offset holds `w`. -/
def Hyp.FrameOf (s : Hyp) (v : Fin ncpu) (offset : ℕ) (w : Fin ncpu) : Prop :=
  ∃ k : Fin ncpu, k.val = offset / gicrStride ∧ (s.vms (s.vcpus v).vm).vcpus k = some w

namespace GicWrite

variable (w : GicWrite) (S : GicSystem) (s : Hyp)

/-- The write, on the core of its virtual CPU. -/
def exec : Exec Hyp ℤ := do
  modify (Hyp.onCore w.issuer.val)
  w.dev.write w.issuer w.offset w.val

/-- It is in the region of its device, and not to the register at `offset` of the redistributors
of the machine `vm`. -/
structure Other (vm offset : ℕ) : Prop where
  machine : (s.vcpus w.issuer).vm ∈ S.vms
  region : w.dev = .gicr → w.offset < gicrSize
  other : w.dev = .gicr → (s.vcpus w.issuer).vm = vm →
    w.offset < offset ∨ offset + 4 ≤ w.offset

/-- It goes over records of `v` with the loop `L`. -/
def Loops (v : Fin ncpu) (L : RegLoop) : Prop :=
  match w.dev with
  | .gicd => v = w.issuer ∧ gicdLoop w.offset w.val = some L
  | .gicr => s.FrameOf w.issuer w.offset v ∧ gicrLoop w.offset w.val = some L

/-- **A write that does not go over the priorities**: the records that it goes over are apart from
them and from the pointers, or get what is there. -/
def Spares (t : Fin ncpu) (n : ℕ) : Prop :=
  ∀ v L, w.Loops s v L → L.Harmless v s (keptBytes S s t n)

end GicWrite

/-- Writes to other registers than one, with the states in front of them, the last one first. -/
inductive OtherWrites (S : GicSystem) (vm offset : ℕ) (s₀ : Hyp) :
    List (Hyp × GicWrite) → Hyp → Prop
  | start : OtherWrites S vm offset s₀ [] s₀
  | write {ws : List (Hyp × GicWrite)} {s s' : Hyp} {w : GicWrite} {rc : ℤ} :
      OtherWrites S vm offset s₀ ws s → w.Other S s vm offset → w.exec s = .ok rc s' →
      OtherWrites S vm offset s₀ ((s, w) :: ws) s'

/-- The virtual CPUs and machines are as before, and so are the bytes in `keep`. -/
structure LeavesBytes (keep : Set ℕ) (s s' : Hyp) : Prop where
  vcpus : s'.vcpus = s.vcpus
  vms : s'.vms = s.vms
  mem : Set.EqOn s'.ram.mem s.ram.mem keep

section others
variable {start r n : ℕ} {S : GicSystem} {s s' u : Hyp} {v k t : Fin ncpu} {offset : ℕ}
  {val : BitVec 64} {rc : ℤ} {keep : Set ℕ}

theorem LeavesBytes.refl : LeavesBytes keep s s := ⟨rfl, rfl, Set.eqOn_refl _ _⟩

theorem LeavesBytes.trans (H : LeavesBytes keep s s') (H' : LeavesBytes keep s' u) :
    LeavesBytes keep s u :=
  ⟨H'.vcpus.trans H.vcpus, H'.vms.trans H.vms, H'.mem.trans H.mem⟩

theorem ptr_subset_kept {vm : ℕ} (hvm : vm ∈ S.vms) :
    block ((s.vms vm).vgicDist + 8) 8 ⊆ keptBytes S s t n := fun _ hx => Or.inr ⟨_, hvm, hx⟩

/-- The lookups are as before. -/
theorem LeavesBytes.lookup (H : LeavesBytes (keptBytes S s t n) s s')
    (hvm : (s.vcpus t).vm ∈ S.vms) (irq : ℕ) : s'.lookup t irq = s.lookup t irq :=
  Hyp.lookup_congr H.vcpus H.vms (H.mem.mono (ptr_subset_kept hvm)) irq

theorem LeavesBytes.kept (H : LeavesBytes (keptBytes S s t n) s s')
    (hvm : (s.vcpus t).vm ∈ S.vms) : keptBytes S s' t n = keptBytes S s t n := by
  simp only [keptBytes, H.lookup hvm, H.vms]

theorem GicPlaces.left (G : GicPlaces start S s) (H : LeavesBytes (keptBytes S s t n) s s') :
    GicPlaces start S s' :=
  G.congr H.vcpus H.vms fun _ hvm => H.mem.mono (ptr_subset_kept hvm)

theorem FramesFilled.left (C : FramesFilled S s) (H : LeavesBytes keep s s') :
    FramesFilled S s' := by
  refine ⟨?_, ?_⟩
  · rw [H.vms]
    exact C.nvcpu
  · rw [H.vms, H.vcpus]
    exact C.entry

/-- Of a distributor's own fields only the pointer is kept. -/
theorem GicPlaces.kept_ptr (G : GicPlaces start S s) (ht : t ∈ S.cpus)
    (htvm : (s.vcpus t).vm ∈ S.vms) (hn : ∀ i < 4, Counted (n + i)) {vm x : ℕ} (hvm : vm ∈ S.vms)
    (hx : x ∈ keptBytes S s t n) (hin : x ∈ block (s.vms vm).vgicDist sizeofVgicDist) :
    x ∈ block ((s.vms vm).vgicDist + 8) 8 := by
  rcases hx with ⟨i, hi, rfl⟩ | ⟨vm', hvm', hptr⟩
  · exact absurd hin (G.counted_out ht htvm (hn i hi) (by decide : 0 < 4) hvm)
  · by_cases hsame : vm' = vm
    · exact hsame ▸ hptr
    · have hown := ptr_subset_dist _ hptr
      exact absurd hin (Set.disjoint_left.mp (G.dist_dist vm' hvm' vm hvm hsame) hown)

/-- **A write to the distributor** that spares the bytes. -/
theorem vgicdWrite_kept (G : GicPlaces start S s) (ht : t ∈ S.cpus)
    (htvm : (s.vcpus t).vm ∈ S.vms) (hn : ∀ i < 4, Counted (n + i))
    (hvm : (s.vcpus v).vm ∈ S.vms) (hcore : s.ram.core < 2 ^ 31)
    (hspare : ∀ L, gicdLoop offset val = some L → L.Harmless v s (keptBytes S s t n))
    (hrun : vgicdWrite v offset val s = .ok rc s') : LeavesBytes (keptBytes S s t n) s s' := by
  have F := vgicFree_of_write hcore hrun
  have hfield : ∀ x ∈ keptBytes S s t n, x ∉ block (s.dist v) 8 ∧
      x ∉ block (s.dist v + 16) 8 := by
    intro x hx
    rw [← not_or]
    intro hin
    have hptr : x ∈ block (s.dist v + 8) 8 := by
      refine G.kept_ptr ht htvm hn hvm hx ?_
      change x ∈ block (s.dist v) sizeofVgicDist
      simp only [mem_block, sizeofVgicDist] at hin ⊢
      omega
    simp only [mem_block] at hptr hin
    omega
  have hlock : Disjoint (keptBytes S s t n) (block (s.dist v + 16) 8) :=
    Set.disjoint_left.mpr fun x hx => (hfield x hx).2
  cases hL : gicdLoop offset val with
  | some L =>
      have hsame := (ok_of_wp (vgicdWrite_same F hL (hspare L hL) (ptr_subset_kept hvm) hlock)
        hrun).1
      exact ⟨hsame.vcpus, hsame.vms, hsame.mem⟩
  | none =>
      obtain ⟨rc', hplain⟩ := vgicdWrite_plain F hL
      rw [hplain] at hrun
      cases hrun
      refine ⟨rfl, rfl, fun x hx => ?_⟩
      obtain ⟨hswitch, hout⟩ := hfield x hx
      rw [Hyp.unlockDist_mem]
      refine (setDistLock_outside hout).trans ((plain_lockDist hout).trans ?_)
      rw [VgicDev.plain]
      split
      · refine writeLe_of_notMem fun hin => hswitch ?_
        simp only [mem_block] at hin ⊢
        omega
      · rfl

/-- A private byte of another virtual CPU, of another interrupt, or another byte of a record, is
none of those of a register of the first frame. -/
theorem GicPlaces.priv_notMem (G : GicPlaces start S s) (ht : t ∈ S.cpus) (hr : r < 8)
    {w : Fin ncpu} {irq f : ℕ} (hw : w ∈ S.cpus) (hirq : irq < 32) (hf : f < 4)
    (hother : w = t → f = 0 → irq < 4 * r ∨ 4 * r + 4 ≤ irq) :
    s.lookup w irq + f ∉ keptBytes S s t (4 * r) := by
  have hmem := @lookup_mem irq f s w hirq hf
  rintro (⟨i, hi, heq⟩ | ⟨vm, hvm, hptr⟩)
  · by_cases hwt : w = t
    · subst hwt
      obtain ⟨hsame, hfield⟩ := @lookup_inj _ _ _ _ _ 0 hirq (by omega) hf (by decide) heq
      have hapart := hother rfl hfield
      omega
    · rw [heq] at hmem
      have hmem' := @lookup_mem (4 * r + i) 0 s t (by omega) (by decide)
      exact Set.disjoint_left.mp (G.cpu_cpu w hw t ht hwt) hmem hmem'
  · exact Set.disjoint_left.mp (G.cpu_dist w hw vm hvm) hmem (ptr_subset_dist _ hptr)

/-- No byte far behind the heap is. -/
theorem GicPlaces.far_notMem (G : GicPlaces start S s) (ht : t ∈ S.cpus) (hr : r < 8) {x : ℕ}
    (hx : start + configBlkSize + 4096 ≤ x) : x ∉ keptBytes S s t (4 * r) := by
  rintro (⟨i, hi, rfl⟩ | ⟨vm, hvm, hptr⟩)
  · have hirq : 4 * r + i < 32 := by omega
    have hcpu := (G.cpu t ht).2
    have hmem := @lookup_mem (4 * r + i) 0 s t hirq (by decide)
    simp only [mem_block] at hmem
    omega
  · have hnear := G.dist_near hvm (ptr_subset_dist _ hptr)
    omega

/-- **The bytes that a write to another register of a redistributor sets** are none of those of a
register of the first frame. -/
theorem GicPlaces.gicr_notMem (G : GicPlaces start S s) (C : FramesFilled S s)
    (hvm : (s.vcpus v).vm ∈ S.vms) (ht : t ∈ S.cpus) (hr : r < 8) {w : Fin ncpu}
    (hframe : s.FrameOf v offset w)
    (hother : (s.vcpus v).vm = (s.vcpus t).vm →
      offset < prioOffset 0 r ∨ prioOffset 0 r + 4 ≤ offset)
    {L : RegLoop} (hL : gicrLoop offset val = some L) :
    ∀ i < L.n, L.addr w s i ∉ keptBytes S s t (4 * r) := by
  obtain ⟨k, hk, hentry⟩ := hframe
  obtain ⟨hw, hsame⟩ := C.entry _ hvm k w hentry
  have hwvm : (s.vcpus w).vm ∈ S.vms := hsame ▸ hvm
  rcases gicrLoop_cases hL with ⟨_, rfl⟩ | ⟨hprio, rfl⟩
  · intro i hi
    have hi' : 0 + i < 32 := (Nat.zero_add i).symm ▸ hi
    exact G.priv_notMem ht hr hw hi' (by decide : 2 < 4) fun _ hf =>
      absurd hf (by decide : 2 ≠ 0)
  · intro i hi
    have hi' : i < 4 := hi
    rw [prioLoop_addr]
    rcases counted_prio hprio hi' with hlt | hge
    · refine @GicPlaces.priv_notMem _ _ _ _ _ G ht hr _ _ 0 hw hlt (by decide) ?_
      rintro rfl _
      have hapart := hother hsame.symm
      simp only [gicrPrio, gicrPrioIrq, gicrStride, prioOffset] at hprio hlt hapart ⊢
      omega
    · exact G.far_notMem ht hr (G.record_far hwvm hge)

/-- Without a virtual CPU there is no loop. -/
theorem vgicrWriteReg_entry {L : RegLoop} {entry : Option (Fin ncpu)}
    (hL : gicrLoop offset val = some L)
    (hrun : vgicrWriteReg entry offset (offset % gicrStride) val s = .ok rc s') :
    ∃ w, entry = some w := by
  cases entry with
  | some w => exact ⟨w, rfl⟩
  | none =>
      rw [vgicrWriteReg] at hrun
      rcases gicrLoop_cases hL with ⟨hen, _⟩ | ⟨hprio, _⟩
      · have hknown : ¬ gicrIgnored 0x10100 = true := by decide
        rw [hen, if_neg hknown, if_pos rfl] at hrun
        cases hrun
      · rw [gicrPrio] at hprio
        have hne : offset % gicrStride ≠ 0x10100 := by omega
        rw [if_neg (gicrIgnored_prio hprio), if_neg hne, if_pos hprio] at hrun
        cases hrun

/-- A frame that is looked up is an entry of the machine's slots. -/
theorem vgicrFrame_entry {entry : Option (Fin ncpu)} (hoff : offset < gicrSize)
    (h : vgicrFrame v offset s = .ok (some entry) s) : ∃ k : Fin ncpu,
      k.val = offset / gicrStride ∧ entry = (s.vms (s.vcpus v).vm).vcpus k := by
  have hwp : wp (vgicrFrame v offset) (fun e _ => ∀ entry, e = some entry → ∃ k : Fin ncpu,
      k.val = offset / gicrStride ∧ entry = (s.vms (s.vcpus v).vm).vcpus k)
      (fun _ _ => True) s := by
    by_cases hvm : (s.vcpus v).vm = 0
    · simp [vgicrFrame, derefVm, hvm]
    have hlt := frame_lt hoff
    simp only [vgicrFrame, wp_bind, wp_get, wp_derefVm hvm, wp_ite, wp_pure, frame_mod hoff,
      dif_pos hlt]
    refine ⟨fun _ entry he => absurd he.symm (Option.some_ne_none entry), fun _ entry he => ?_⟩
    exact ⟨_, rfl, (Option.some.inj he).symm⟩
  exact ok_of_wp hwp h entry rfl

/-- **A write to a redistributor** that spares the bytes. -/
theorem vgicrWrite_kept (G : GicPlaces start S s) (C : FramesFilled S s)
    (hvm : (s.vcpus v).vm ∈ S.vms) (hoff : offset < gicrSize)
    (hspare : ∀ w L, s.FrameOf v offset w → gicrLoop offset val = some L → L.Harmless w s keep)
    (hrun : vgicrWrite v offset val s = .ok rc s') : LeavesBytes keep s s' := by
  obtain ⟨e, u, hframe, hrest⟩ := ok_of_bind hrun
  obtain ⟨rfl, _⟩ := vgicrFrame_ok hframe
  cases e with
  | none =>
      cases hrest
      exact LeavesBytes.refl
  | some entry =>
      obtain ⟨k, hk, rfl⟩ := vgicrFrame_entry hoff hframe
      have hswitch : vgicrWriteReg ((u.vms (u.vcpus v).vm).vcpus k) offset (offset % gicrStride) val
        u = .ok rc s' := hrest
      cases hL : gicrLoop offset val with
      | none =>
          obtain ⟨rc', hreg⟩ := vgicrWriteReg_plain hL u ((u.vms (u.vcpus v).vm).vcpus k)
          rw [hreg] at hswitch
          cases hswitch
          exact LeavesBytes.refl
      | some L =>
          obtain ⟨w, hw⟩ := vgicrWriteReg_entry hL hswitch
          obtain ⟨hwin, hwvm⟩ := C.entry _ hvm k w hw
          have hmachine : (u.vcpus w).vm ∈ S.vms := hwvm ▸ hvm
          have hreg := vgicrWriteReg_loop (G.vm_ne _ hmachine) (G.dist_ne _ hmachine) hL
            (G.gicr_keepsPtr hwin hmachine hL)
          rw [hw, hreg] at hswitch
          cases hswitch
          refine ⟨rfl, rfl, ?_⟩
          rw [RegLoop.after_mem]
          exact eqOn_scatter (hspare w L ⟨k, hk, hw⟩ hL)

/-- **One write** that spares the bytes leaves them. -/
theorem GicWrite.Spares.leaves {w : GicWrite} {vm : ℕ} (H : w.Spares S s t n)
    (G : GicPlaces start S s) (C : FramesFilled S s) (ht : t ∈ S.cpus)
    (htvm : (s.vcpus t).vm ∈ S.vms) (hn : ∀ i < 4, Counted (n + i)) (O : w.Other S s vm offset)
    (hrun : w.exec s = .ok rc s') : LeavesBytes (keptBytes S s t n) s s' := by
  obtain ⟨v, dev, o, x⟩ := w
  have hplaces : GicPlaces start S (s.onCore v.val) := G.congr rfl rfl fun _ _ => Set.eqOn_refl _ _
  have hframes : FramesFilled S (s.onCore v.val) := ⟨C.nvcpu, C.entry⟩
  have hleaves : LeavesBytes (keptBytes S s t n) (s.onCore v.val) s' := by
    cases dev with
    | gicd =>
        have hcore : (s.onCore v.val).ram.core < 2 ^ 31 :=
          lt_of_lt_of_le v.isLt (by decide : ncpu ≤ 2 ^ 31)
        exact vgicdWrite_kept hplaces ht htvm hn O.machine hcore (fun L hL => H v L ⟨rfl, hL⟩) hrun
    | gicr =>
        exact vgicrWrite_kept hplaces hframes O.machine (O.region rfl)
          (fun w L hframe hL => H w L ⟨hframe, hL⟩) hrun
  exact ⟨hleaves.vcpus, hleaves.vms, hleaves.mem⟩

/-- A write to another register of a redistributor spares those of the first frame. -/
theorem GicWrite.Other.spares {w : GicWrite} (O : w.Other S s (s.vcpus t).vm (prioOffset 0 r))
    (G : GicPlaces start S s) (C : FramesFilled S s) (ht : t ∈ S.cpus) (hr : r < 8)
    (hdev : w.dev = .gicr) : w.Spares S s t (countedIrq 0 r) := by
  rw [countedIrq_first]
  intro v L hloops i hi _ hin
  rw [Loops, hdev] at hloops
  exact absurd hin (G.gicr_notMem C O.machine ht hr hloops.1 (O.other hdev) hloops.2 i hi)

/-- **Writes that spare the bytes** leave them. -/
theorem OtherWrites.leaves {ws : List (Hyp × GicWrite)}
    (W : OtherWrites S (s.vcpus t).vm (prioOffset k r) s ws s') (G : GicPlaces start S s)
    (C : FramesFilled S s) (ht : t ∈ S.cpus) (htvm : (s.vcpus t).vm ∈ S.vms) (hr : r < 8)
    (hspare : ∀ p ∈ ws, p.2.dev = .gicd ∨ 0 < k.val → p.2.Spares S p.1 t (countedIrq k r)) :
    LeavesBytes (keptBytes S s t (countedIrq k r)) s s' := by
  induction W with
  | start => exact LeavesBytes.refl
  | @write ws u s' w rc W O hrun ih =>
      have H := ih fun p hp => hspare p (List.mem_cons_of_mem _ hp)
      have hvm : (u.vcpus t).vm = (s.vcpus t).vm := by rw [H.vcpus]
      have G' := G.left H
      have C' := C.left H
      have hstep : w.Spares S u t (countedIrq k r) := by
        by_cases hneed : w.dev = .gicd ∨ 0 < k.val
        · exact hspare (u, w) List.mem_cons_self hneed
        · rw [not_or, not_lt, Nat.le_zero] at hneed
          obtain ⟨hdev, hk⟩ := hneed
          rw [hk] at O ⊢
          rw [← hvm] at O
          refine O.spares G' C' ht hr ?_
          cases hd : w.dev with
          | gicd => exact absurd hd hdev
          | gicr => rfl
      have H' := hstep.leaves G' C' ht (hvm ▸ htvm) (fun i hi => counted_irq hr hi k) O hrun
      rw [H.kept htvm] at H'
      exact H.trans H'

end others

/-! ## What the code does -/

/-- **A read** by any virtual CPU of the machine, after a write and then writes to other registers
that spare what the write has set, gets the value. -/
def PrioritiesRead (S : GicSystem) (s : Hyp) (v k t : Fin ncpu) (r : ℕ) (val : BitVec 64) :
    Prop :=
  ∀ (s₁ s' : Hyp) (rc : ℤ) (ws : List (Hyp × GicWrite)),
    vgicrWrite v (prioOffset k r) val s = .ok rc s₁ →
    OtherWrites S (s.vcpus v).vm (prioOffset k r) s₁ ws s' →
    (∀ p ∈ ws, p.2.dev = .gicd ∨ 0 < k.val → p.2.Spares S p.1 t (countedIrq k r)) →
    ∀ (hw : GicrHw) (u : Fin ncpu) (x : Fin 31), (s.vcpus u).vm = (s.vcpus v).vm →
      vgicrRead hw u (prioOffset k r) (some x) s' = .ok 0 (s'.setX u x (lowBytes val 4))

section readBack
variable {start r : ℕ} {S : GicSystem} {s₀ s s' : Hyp} {v k t : Fin ncpu} {val : BitVec 64}
  {cs : List MadeCpu} {ds : List ℕ}

/-- **After a write** the bytes that the code looks for are those of the value, and everything is
where it was. -/
theorem FrameAt.written (A : FrameAt S s v k t) (G : GicPlaces start S s) (C : FramesFilled S s)
    (hr : r < 8) {rc : ℤ} (hrun : vgicrWrite v (prioOffset k r) val s = .ok rc s') :
    GicPlaces start S s' ∧ s'.vcpus = s.vcpus ∧ s'.vms = s.vms ∧
      ∀ i < 4, s'.ram.mem (s'.lookup t (countedIrq k r + i)) = valByte val i := by
  obtain ⟨ht, hsame⟩ := C.entry _ A.machine k t A.entry
  have hvm : (s.vcpus t).vm ∈ S.vms := hsame ▸ A.machine
  have hloop := gicrLoop_prioOffset hr k.val val
  have hkeeps := G.gicr_keepsPtr ht hvm hloop
  rw [A.write G C hr val] at hrun
  cases hrun
  refine ⟨G.congr rfl rfl fun vm hin x hx => ?_, rfl, rfl, fun i hi => ?_⟩
  · rw [RegLoop.after_mem]
    have hdist := ptr_subset_dist _ hx
    exact scatter_of_notMem fun i hi _ heq => G.gicrLoop_out ht hvm hloop hin i hi (heq ▸ hdist)
  · have hrecord := @RegLoop.KeepsPtr.lookup _ _ _ hkeeps 4 le_rfl
    rw [hrecord]
    exact prioLoop_sets hr hi

/-- **What is written can be read back**, in every frame. -/
theorem priorities_read (G : GicPlaces start S s) (C : FramesFilled S s) (A : FrameAt S s v k t)
    (hr : r < 8) (val : BitVec 64) : PrioritiesRead S s v k t r val := by
  intro s₁ s' rc ws hwrite W hspare hw u x hu
  obtain ⟨ht, hsame⟩ := C.entry _ A.machine k t A.entry
  obtain ⟨G₁, hvcpus, hvms, hbytes⟩ := A.written G C hr hwrite
  have C₁ : FramesFilled S s₁ := ⟨hvms ▸ C.nvcpu, by rw [hvms, hvcpus]; exact C.entry⟩
  have hvm : (s₁.vcpus t).vm = (s.vcpus v).vm := by rw [hvcpus, hsame]
  have htvm : (s₁.vcpus t).vm ∈ S.vms := hvm ▸ A.machine
  rw [← hvm] at W
  have H := W.leaves G₁ C₁ ht htvm hr hspare
  have A' : FrameAt S s' u k t := by
    refine ⟨?_, ?_, ?_⟩
    · rw [H.vcpus, hvcpus, hu]
      exact A.machine
    · rw [H.vms, H.vcpus, hvms, hvcpus, hu]
      exact A.present
    · rw [H.vms, H.vcpus, hvms, hvcpus, hu]
      exact A.entry
  have hread := A'.read (G₁.left H) (C₁.left H) hr hw x
  have hvalue : (gathered s'.ram.mem (fun i => s'.lookup t (countedIrq k r + i)) 8 0 4).setWidth
      64 = lowBytes val 4 := by
    refine (gathered_eq_lowBytes le_rfl).mpr ⟨fun i hi => ?_, fun i hi hle => by omega⟩
    rw [H.lookup htvm, H.mem (Or.inl ⟨i, hi, rfl⟩), hbytes i hi]
  rw [hread, hvalue]

end readBack

/-! ## A machine with two frames -/

/-- No byte of a value is that of its complement. -/
theorem valByte_ne_not {x : BitVec 64} {i : ℕ} (hi : i < 8) :
    valByte x i ≠ valByte (~~~ x) i := by
  intro h
  have hbit := congrArg (fun b : Byte => b.getLsbD 0) h
  have hin : i * 8 + 0 < 64 := by omega
  simp only [getLsbD_valByte (by decide : 0 < 8), BitVec.getLsbD_not, decide_eq_true hin,
    Bool.true_and] at hbit
  exact absurd hbit (Bool.eq_not_self _).mp

/-- A machine with two virtual CPUs, each with its frame. -/
theorem exists_twoFrames (P : Platform) {spis : ℤ} {c : Fin blkSliceBit}
    (hc : ofClass (nspis spis) c) : ∃ (cs : List MadeCpu) (s : Hyp),
    GicHistory P 0x10000 { emptyVm with gicMaxSpi := spis } cs [0x200] s ∧ s.gicMaxSpi = spis ∧
      FramesFilled (s.gicSystem cs [0x200]) s ∧ FrameAt (s.gicSystem cs [0x200]) s 0 0 0 ∧
        FrameAt (s.gicSystem cs [0x200]) s 0 1 1 := by
  obtain ⟨d, e, s, hrun, hspis, hd, he, hvm, hvm', hcount, hslots⟩ := exists_twoCpus P hc
  have hmem : 0x200 ∈ (s.gicSystem [e, d] [0x200]).vms := List.mem_singleton_self _
  refine ⟨[e, d], s, hrun, hspis, ⟨?_, ?_⟩, ⟨?_, ?_, ?_⟩, ⟨?_, ?_, ?_⟩⟩
  · intro vm hin
    rw [List.mem_singleton.mp hin, hcount]
    decide
  · intro vm hin k t hentry
    obtain rfl := List.mem_singleton.mp hin
    rw [hslots] at hentry
    dsimp only at hentry
    by_cases hk : k.val < 2
    · rw [if_pos hk] at hentry
      obtain rfl := Option.some.inj hentry
      have hcases : k.val = 0 ∨ k.val = 1 := by omega
      rcases hcases with h | h
      · obtain rfl : k = 0 := Fin.ext h
        exact ⟨⟨d, List.mem_cons_of_mem _ (List.mem_singleton_self d), hd⟩, hvm⟩
      · obtain rfl : k = 1 := Fin.ext h
        exact ⟨⟨e, List.mem_cons_self, he⟩, hvm'⟩
    · rw [if_neg hk] at hentry
      cases hentry
  · rw [hvm]
    exact hmem
  · rw [hvm, hcount]
    decide
  · rw [hvm, hslots]
    rfl
  · rw [hvm]
    exact hmem
  · rw [hvm, hcount]
    decide
  · rw [hvm, hslots]
    rfl

/-- Without shared interrupts no record lies over a private one. -/
theorem GicPlaces.priv_notMem_others (G : GicPlaces start S s) (hmax : S.max < 32)
    (ht : t ∈ S.cpus) (hr : r < 8) {i : ℕ} (hi : i < 4) :
    (Irq.priv t (4 * r + i)).record s ∉ S.others s (s.named t (4 * r) 4) 0 := by
  rintro ⟨q, hq, f, hf, heq, hnot⟩
  cases q with
  | priv w n =>
      have hmem := @priv_mem n f s w hq.2 hf
      rw [← heq] at hmem
      have hmem' := @priv_mem (4 * r + i) 0 s t (by omega) (by decide)
      have hwt : w = t := by
        by_contra hne
        exact Set.disjoint_left.mp (G.cpu_cpu w hq.1 t ht hne) hmem hmem'
      subst hwt
      obtain ⟨hn, hf0⟩ := @priv_inj _ 0 _ _ _ _ (by omega) hq.2 (by decide) hf heq
      refine hnot ⟨⟨i, hi, ?_⟩, hf0.symm⟩
      rw [Hyp.irq, if_pos (by omega), hn]
  | spi vm n =>
      obtain ⟨_, hlo, hle, _⟩ := hq
      omega

end Xhyper
