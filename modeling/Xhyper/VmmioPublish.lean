import Xhyper.MmioDispatch
import Xhyper.VgicStorage

/-!
# Registering a region, step by step

`vmmio_handler_register` puts the new record into the list under the machine's lock, and fills in
the region and the functions after it gave the lock back.  In between, the list has a record with
whatever was in that block of the heap.

## Main definitions

* `Registration`, `Listed` — a call, and the record that it made.
* `RegisterPoint`, `RegisterRun` — where a core is in a call, and any number of calls.
* `Consistent` — the list holds what was registered.
* `RegisterPoint.Filled` — the words that were not stored yet are right by chance.
* `vmmio_list_consistent` — when the list is consistent while its lock is free.
-/

namespace Xhyper

open Memory Prog

/-! ## Calls and records -/

/-- The arguments of `vmmio_handler_register`, less the machine. -/
structure Registration where
  ipa : BitVec 64
  size : BitVec 64
  vmmioRead : BitVec 64
  vmmioWrite : BitVec 64

/-- The four words behind `next`, in the order of the stores. -/
def Registration.word (r : Registration) : Fin 4 → BitVec 64 :=
  ![r.ipa, r.size, r.vmmioRead, r.vmmioWrite]

/-- The call of the function for an access, with the registered address and region. -/
def Registration.call (r : Registration) (H : VmmioHandlers) (v : Fin ncpu)
    (reg : Option (Fin 31)) (val : BitVec 64) (x : VmmioAccess) : Exec Hyp ℤ :=
  if x.wnr then H.write r.vmmioWrite.toNat v (x.ipa - r.ipa.toNat) val x
  else H.read r.vmmioRead.toNat v (x.ipa - r.ipa.toNat) reg x

/-- The access is in the region. -/
def Registration.Covers (r : Registration) (ipa : ℕ) : Prop :=
  r.ipa.toNat ≤ ipa ∧ ipa < (r.ipa + r.size).toNat

/-- A record: its address, the call that made it, and memory when its block was taken. -/
structure Listed where
  node : ℕ
  reg : Registration
  before : Mem

namespace Listed

variable (d : Listed) (m : Mem)

/-- The word `k` behind `next`. -/
def word (k : Fin 4) : ℕ := read64 m (d.node + 8 + 8 * k.val)

/-- The word `k` is the registered one. -/
def Holds (k : Fin 4) : Prop := d.word m k = (d.reg.word k).toNat

/-- The record holds what was registered. -/
def Carries : Prop := ∀ k, d.Holds m k

/-- The bytes of the record. -/
def room : Set ℕ := block d.node sizeofVmmioInfo

variable {d m}

theorem carries_iff : d.Carries m ↔ (readVmmio m d.node).base = d.reg.ipa.toNat ∧
    (readVmmio m d.node).size = d.reg.size.toNat ∧
    (readVmmio m d.node).vmmioRead = d.reg.vmmioRead.toNat ∧
    (readVmmio m d.node).vmmioWrite = d.reg.vmmioWrite.toNat := by
  constructor
  · exact fun h => ⟨h 0, h 1, h 2, h 3⟩
  · rintro ⟨h0, h1, h2, h3⟩ k
    match k with
    | 0 => exact h0
    | 1 => exact h1
    | 2 => exact h2
    | 3 => exact h3

/-- A word depends on the record's bytes. -/
theorem word_congr {m' : Mem} (h : Set.EqOn m' m d.room) (k : Fin 4) :
    d.word m' k = d.word m k := by
  refine readLe_congr fun x hx => h ?_
  have hk := k.isLt
  simp only [room, mem_block, sizeofVmmioInfo] at hx ⊢
  omega

theorem next_congr {m' : Mem} (h : Set.EqOn m' m d.room) :
    (readVmmio m' d.node).next = (readVmmio m d.node).next := by
  refine readLe_congr fun x hx => h ?_
  simp only [room, mem_block, sizeofVmmioInfo] at hx ⊢
  omega

theorem Carries.congr {m' : Mem} (h : d.Carries m) (hm : Set.EqOn m' m d.room) :
    d.Carries m' := by
  intro k
  rw [Holds, word_congr hm]
  exact h k

/-- Storing a word leaves the others alone. -/
theorem word_store {j k : Fin 4} {v : ℕ} (h : j ≠ k) :
    d.word (write64 m (d.node + 8 + 8 * k.val) v) j = d.word m j := by
  have hne : j.val ≠ k.val := fun heq => h (Fin.ext heq)
  exact read64_write64_of_disjoint m (by omega)

theorem holds_store (k : Fin 4) :
    d.Holds (write64 m (d.node + 8 + 8 * k.val) (d.reg.word k).toNat) k :=
  read64_write64 m _ (d.reg.word k).isLt

end Listed

/-! ## Runs -/

/-- Where a core is in `vmmio_handler_register`. -/
inductive RegisterPoint
  | idle
  /-- Behind `arch_spin_lock`. -/
  | locked (r : Registration)
  /-- Behind `xmalloc`. -/
  | taken (d : Listed)
  /-- Behind the store to `next`. -/
  | linked (d : Listed)
  /-- Behind the store to `vm->vmmios`. -/
  | published (d : Listed)
  /-- Behind `arch_spin_unlock` and the stores of the first `k` words. -/
  | storing (d : Listed) (k : ℕ)

namespace RegisterPoint

/-- The records with a block, after the calls that made `made` returned. -/
def blocks (made : List Listed) : RegisterPoint → List Listed
  | taken d => d :: made
  | linked d => d :: made
  | published d => d :: made
  | storing d _ => d :: made
  | _ => made

/-- The records in the list. -/
def listed (made : List Listed) : RegisterPoint → List Listed
  | published d => d :: made
  | storing d _ => d :: made
  | _ => made

/-- **The words that are not stored yet** were in the block when it was taken. -/
def Filled : RegisterPoint → Prop
  | storing d k => ∀ j : Fin 4, k ≤ j.val → d.Holds d.before j
  | _ => True

end RegisterPoint

/-- Calls of `vmmio_handler_register` for one machine, each on any core, step by step.  The
records of the calls that returned are listed, the last one first. -/
inductive RegisterRun (vm : ℕ) (s₀ : Hyp) : List Listed → RegisterPoint → Hyp → Prop
  | start : RegisterRun vm s₀ [] .idle s₀
  | lock {made : List Listed} {core : Fin ncpu} {r : Registration} {s s' : Hyp} :
      RegisterRun vm s₀ made .idle s → r.size ≠ 0 →
      spinLock (Hyp.vmLockPart vm) core (s.onCore core) = .ok () s' →
      RegisterRun vm s₀ made (.locked r) s'
  | alloc {made : List Listed} {r : Registration} {new : ℕ} {s s' : Hyp} :
      RegisterRun vm s₀ made (.locked r) s →
      zoom Hyp.heapPart (xmalloc sizeofVmmioInfo) s = .ok (some new) s' →
      RegisterRun vm s₀ made (.taken ⟨new, r, s'.ram.mem⟩) s'
  | link {made : List Listed} {d : Listed} {s s' : Hyp} :
      RegisterRun vm s₀ made (.taken d) s → storeLe d.node 8 (s.vms vm).vmmios s = .ok () s' →
      RegisterRun vm s₀ made (.linked d) s'
  | publish {made : List Listed} {d : Listed} {s s' : Hyp} :
      RegisterRun vm s₀ made (.linked d) s →
      modifyVm vm (fun V => { V with vmmios := d.node }) s = .ok () s' →
      RegisterRun vm s₀ made (.published d) s'
  | unlock {made : List Listed} {d : Listed} {s s' : Hyp} :
      RegisterRun vm s₀ made (.published d) s →
      spinUnlock (Hyp.vmLockPart vm) s.ram.core s = .ok () s' →
      RegisterRun vm s₀ made (.storing d 0) s'
  | store {made : List Listed} {d : Listed} {k : Fin 4} {s s' : Hyp} :
      RegisterRun vm s₀ made (.storing d k.val) s →
      storeLe (d.node + 8 + 8 * k.val) 8 (d.reg.word k).toNat s = .ok () s' →
      RegisterRun vm s₀ made (.storing d (k.val + 1)) s'
  | ret {made : List Listed} {d : Listed} {s : Hyp} :
      RegisterRun vm s₀ made (.storing d 4) s → RegisterRun vm s₀ (d :: made) .idle s

/-- **The list is consistent**: it is made of the records of the calls, and each holds what its
call registered. -/
structure Consistent (vm : ℕ) (ds : List Listed) (s : Hyp) : Prop where
  regions : Regions s vm (ds.map Listed.node)
  carries : ∀ d ∈ ds, d.Carries s.ram.mem

/-- **A traversal**, as `vmmio_handler` does it for a virtual CPU of the machine, calls nothing, or
a function that was registered for the region of the access. -/
def Traverses (vm : ℕ) (ds : List Listed) (s : Hyp) : Prop :=
  ∀ (H : VmmioHandlers) (v : Fin ncpu) (n : ℕ) (x : VmmioAccess), (s.vcpus v).vm = vm →
    (∃ rc, vmmioHandler H v n x s = .ok rc s) ∨
    ∃ d ∈ ds, d.reg.Covers x.ipa ∧ vmmioHandler H v n x s =
      d.reg.call H v (vmmioReg n) (vmmioVal (s.vcpus v) n) x s

/-! ## The blocks of the records -/

/-- The records `ds` are different blocks of the heap, which are in use and large enough. -/
structure NodesApart (start : ℕ) (ds : List Listed) (s : Hyp) : Prop where
  blocks : ∃ live free, Blocks start (Hyp.heapPart.get s) live free ∧ ∀ d ∈ ds, d.node ∈ live
  carved : ∀ d ∈ ds, ∃ c, Carved s.sysBlk c d.node ∧ sizeofVmmioInfo ≤ 2 ^ c.val
  nodup : (ds.map Listed.node).Nodup

section nodes
variable {start : ℕ} {ds : List Listed} {s s' : Hyp} {d e : Listed}

/-- The invariant of the heap is about its pool and memory. -/
theorem Blocks.congr {h h' : Heap} {live : List ℕ} {free : Fin blkSliceBit → List ℕ}
    (B : Blocks start h live free) (hpool : h'.pool = h.pool) (hmem : h'.mem = h.mem) :
    Blocks start h' live free := by
  obtain ⟨core, mem, pool⟩ := h
  obtain ⟨core', mem', pool'⟩ := h'
  obtain rfl : pool' = pool := hpool
  obtain rfl : mem' = mem := hmem
  exact ⟨⟨B.region, B.start_eq, B.end_eq, B.blk_size, B.slice_le, B.slice_type, B.slice_sum,
    B.current, B.live_carved, B.live_nodup, B.chain, B.free_carved, B.free_apart, B.free_cnt⟩,
    B.nofree_cnt⟩

theorem NodesApart.ne_zero (A : NodesApart start ds s) (hd : d ∈ ds) : d.node ≠ 0 := by
  obtain ⟨live, free, B, _⟩ := A.blocks
  obtain ⟨c, hc, _⟩ := A.carved d hd
  exact B.toLayout.ne_zero hc

theorem NodesApart.lt (A : NodesApart start ds s) (hd : d ∈ ds) : d.node < 2 ^ 64 := by
  obtain ⟨live, free, B, _⟩ := A.blocks
  obtain ⟨c, hc, hsize⟩ := A.carved d hd
  have hbound := B.region.bound
  have hhi := hc.bounds.2
  have hstart : s.sysBlk.poolStart = start := B.start_eq
  omega

/-- Different records share no byte. -/
theorem NodesApart.disjoint (A : NodesApart start ds s) (hd : d ∈ ds) (he : e ∈ ds)
    (hne : d.node ≠ e.node) : Disjoint d.room e.room := by
  obtain ⟨c, hc, hsize⟩ := A.carved d hd
  obtain ⟨c', hc', hsize'⟩ := A.carved e he
  have hdis := hc.disjoint hc' hne
  rw [Set.disjoint_left] at hdis ⊢
  intro x hx hx'
  simp only [Listed.room, mem_block] at hx hx'
  refine @hdis x ?_ ?_ <;>
  · rw [mem_block]
    omega

/-- Only bytes of a record change. -/
theorem NodesApart.write (A : NodesApart start ds s) (hd : d ∈ ds)
    (hpool : s'.sysBlk = s.sysBlk) (hmem : Set.EqOn s'.ram.mem s.ram.mem d.roomᶜ) :
    NodesApart start ds s' := by
  obtain ⟨live, free, B, hlive⟩ := A.blocks
  obtain ⟨c, hc, hsize⟩ := A.carved d hd
  have hblocks : Blocks start { Hyp.heapPart.get s with mem := s'.ram.mem } live free := by
    refine B.fill (hlive d hd) hc fun x hx => hmem fun hin => hx ?_
    simp only [Listed.room, mem_block] at hin ⊢
    omega
  refine ⟨⟨live, free, hblocks.congr hpool rfl, hlive⟩, ?_, A.nodup⟩
  rw [hpool]
  exact A.carved

/-- Nothing but the machines and the core change. -/
theorem NodesApart.congr (A : NodesApart start ds s) (hpool : s'.sysBlk = s.sysBlk)
    (hmem : s'.ram.mem = s.ram.mem) : NodesApart start ds s' := by
  obtain ⟨live, free, B, hlive⟩ := A.blocks
  refine ⟨⟨live, free, B.congr hpool hmem, hlive⟩, ?_, A.nodup⟩
  rw [hpool]
  exact A.carved

/-- Another block is a record. -/
theorem NodesApart.given (A : NodesApart start ds s) {live : List ℕ}
    (hlive : ∀ d ∈ ds, d.node ∈ live) {h' : Heap}
    (G : Given start (Hyp.heapPart.get s) h' live sizeofVmmioInfo d.node)
    (hpool : s'.sysBlk = h'.pool) (hmem : s'.ram.mem = s.ram.mem) :
    NodesApart start (d :: ds) s' := by
  obtain ⟨free', B⟩ := G.blocks
  obtain ⟨c, hc, hsize, _⟩ := G.carved
  have hnew : d.node ∉ live := (List.nodup_cons.mp B.live_nodup).1
  refine ⟨⟨d.node :: live, free', B.congr hpool (hmem.trans G.mem_eq.symm), fun e he => ?_⟩,
    fun e he => ?_, ?_⟩
  · rcases List.mem_cons.mp he with rfl | he
    · exact List.mem_cons_self
    · exact List.mem_cons_of_mem _ (hlive e he)
  · rw [hpool]
    rcases List.mem_cons.mp he with rfl | he
    · exact ⟨c, hc, hsize⟩
    · obtain ⟨c', hc', hsize'⟩ := A.carved e he
      exact ⟨c', G.keep _ _ hc', hsize'⟩
  · refine List.nodup_cons.mpr ⟨fun hin => ?_, A.nodup⟩
    obtain ⟨e, he, heq⟩ := List.mem_map.mp hin
    exact hnew (heq ▸ hlive e he)

/-- Another block is taken. -/
theorem NodesApart.alloc (A : NodesApart start ds s) {r : Registration} {new : ℕ}
    (hrun : zoom Hyp.heapPart (xmalloc sizeofVmmioInfo) s = .ok (some new) s') :
    NodesApart start (⟨new, r, s'.ram.mem⟩ :: ds) s' ∧ s'.ram.mem = s.ram.mem ∧
      s'.vms = s.vms ∧ s'.vcpus = s.vcpus := by
  obtain ⟨live, free, B, hlive⟩ := A.blocks
  have hwp : wp (zoom Hyp.heapPart (xmalloc sizeofVmmioInfo)) (fun q t => ∀ b, q = some b →
      NodesApart start (⟨b, r, t.ram.mem⟩ :: ds) t ∧ t.ram.mem = s.ram.mem ∧
        t.vms = s.vms ∧ t.vcpus = s.vcpus) (fun _ _ => True) s := by
    rw [wp_zoom]
    refine wp_mono (xmalloc_spec B (by decide)) ?_ fun _ _ _ => trivial
    rintro q h' ⟨_, ⟨rfl, _⟩ | ⟨b, rfl, _, G⟩⟩ b' hb'
    · cases hb'
    · obtain rfl := Option.some.inj hb'
      exact ⟨A.given hlive G rfl G.mem_eq, G.mem_eq, rfl, rfl⟩
  exact wp_partial.mp hwp _ _ hrun new rfl

end nodes

/-! ## The invariant -/

/-- What holds of the machine's lock and of the record in work. -/
def RegisterPoint.At (vm : ℕ) (s : Hyp) : RegisterPoint → Prop
  | idle => True
  | locked _ => (s.vms vm).vmLock.word ≠ 0
  | taken d => (s.vms vm).vmLock.word ≠ 0 ∧ ∀ k, d.word s.ram.mem k = d.word d.before k
  | linked d => (s.vms vm).vmLock.word ≠ 0 ∧
      (readVmmio s.ram.mem d.node).next = (s.vms vm).vmmios ∧
      ∀ k, d.word s.ram.mem k = d.word d.before k
  | published d => (s.vms vm).vmLock.word ≠ 0 ∧ ∀ k, d.word s.ram.mem k = d.word d.before k
  | storing d k => (s.vms vm).vmLock.word = 0 ∧ ∀ j : Fin 4,
      (j.val < k → d.Holds s.ram.mem j) ∧ (k ≤ j.val → d.word s.ram.mem j = d.word d.before j)

/-- **The invariant**: the list is made of the records, those of the calls that returned hold what
was registered, and the one in work holds what was stored so far. -/
structure RegisterInv (start vm : ℕ) (made : List Listed) (pt : RegisterPoint) (s : Hyp) :
    Prop where
  nodes : NodesApart start (pt.blocks made) s
  regions : Regions s vm ((pt.listed made).map Listed.node)
  carries : ∀ d ∈ made, d.Carries s.ram.mem
  point : pt.At vm s

section invariant
variable {start vm : ℕ} {made ds : List Listed} {pt : RegisterPoint} {s s' : Hyp} {d : Listed}
  {r : Registration}

/-- The list depends on its head and on the links of its records. -/
theorem Regions.congr (R : Regions s vm (ds.map Listed.node))
    (hhead : (s'.vms vm).vmmios = (s.vms vm).vmmios)
    (hnext : ∀ d ∈ ds, (readVmmio s'.ram.mem d.node).next = (readVmmio s.ram.mem d.node).next) :
    Regions s' vm (ds.map Listed.node) := by
  refine ⟨?_, ?_⟩
  · rw [hhead]
    refine R.chain.congr fun a ha => ?_
    obtain ⟨d, hd, rfl⟩ := List.mem_map.mp ha
    exact hnext d hd
  · rw [hhead]
    exact R.pointer

theorem RegisterInv.lock (I : RegisterInv start vm made .idle s) {core : Fin ncpu}
    (hrun : spinLock (Hyp.vmLockPart vm) core (s.onCore core) = .ok () s') :
    RegisterInv start vm made (.locked r) s' := by
  have hwp : wp (spinLock (Hyp.vmLockPart vm) core) (fun _ s' =>
      RegisterInv start vm made (.locked r) s') (fun _ _ => True) (s.onCore core) := by
    refine wp_spinLock_of (fun _ => ?_) fun _ _ => trivial
    refine ⟨I.nodes.congr rfl rfl, I.regions.congr ?_ fun _ _ => rfl, I.carries, ?_⟩
    · simp [Hyp.setVm, Hyp.onCore]
    · simp [RegisterPoint.At, Hyp.setVm, Spinlock.heldBy]
  exact wp_partial.mp hwp _ _ hrun

theorem RegisterInv.alloc (I : RegisterInv start vm made (.locked r) s) {new : ℕ}
    (hrun : zoom Hyp.heapPart (xmalloc sizeofVmmioInfo) s = .ok (some new) s') :
    RegisterInv start vm made (.taken ⟨new, r, s'.ram.mem⟩) s' := by
  obtain ⟨hnodes, hmem, hvms, _⟩ := I.nodes.alloc (r := r) hrun
  refine ⟨hnodes, I.regions.congr ?_ fun d _ => ?_, ?_, ?_, fun _ => rfl⟩
  · rw [hvms]
  · rw [hmem]
  · rw [hmem]
    exact I.carries
  · rw [hvms]
    exact I.point

/-- Bytes of the record in work are not those of the others. -/
theorem NodesApart.eqOn_room (A : NodesApart start (d :: made) s) {m : Mem}
    (hm : Set.EqOn m s.ram.mem d.roomᶜ) {e : Listed} (he : e ∈ made) :
    Set.EqOn m s.ram.mem e.room := by
  have hne : d.node ≠ e.node := by
    intro heq
    exact (List.nodup_cons.mp A.nodup).1 (heq ▸ List.mem_map_of_mem he)
  intro x hx
  refine hm fun hin => ?_
  exact Set.disjoint_left.mp (A.disjoint List.mem_cons_self (List.mem_cons_of_mem _ he) hne) hin hx

/-- A store of a word changes bytes of the record only. -/
theorem Listed.eqOn_store {m : Mem} {i v : ℕ} (hi : i + 8 ≤ sizeofVmmioInfo) :
    Set.EqOn (writeLe m (d.node + i) 8 v) m d.roomᶜ := by
  intro x hx
  refine writeLe_of_notMem fun hin => hx ?_
  simp only [Listed.room, mem_block] at hin ⊢
  omega

/-- What a store leaves. -/
theorem storeLe_ok {a n v : ℕ} (hrun : storeLe a n v s = .ok () s') :
    s'.ram.mem = writeLe s.ram.mem a n v ∧ s'.vms = s.vms ∧ s'.sysBlk = s.sysBlk := by
  cases hrun
  exact ⟨rfl, rfl, rfl⟩

theorem RegisterInv.link (I : RegisterInv start vm made (.taken d) s)
    (hrun : storeLe d.node 8 (s.vms vm).vmmios s = .ok () s') :
    RegisterInv start vm made (.linked d) s' := by
  obtain ⟨hmem, hvms, hpool⟩ := storeLe_ok hrun
  have hm : Set.EqOn s'.ram.mem s.ram.mem d.roomᶜ := by
    rw [hmem]
    exact Listed.eqOn_store (i := 0) (by decide)
  have hothers : ∀ e ∈ made, Set.EqOn s'.ram.mem s.ram.mem e.room :=
    fun e he => I.nodes.eqOn_room hm he
  obtain ⟨hlock, hwords⟩ := I.point
  have hnext : (readVmmio s'.ram.mem d.node).next = (s.vms vm).vmmios := by
    rw [hmem]
    exact read64_write64 s.ram.mem d.node I.regions.pointer
  have hkeep : ∀ k, d.word s'.ram.mem k = d.word s.ram.mem k := by
    intro k
    rw [hmem]
    exact read64_write64_of_disjoint s.ram.mem (by omega)
  refine ⟨I.nodes.write List.mem_cons_self hpool hm,
    I.regions.congr (by rw [hvms]) fun e he => Listed.next_congr (hothers e he),
    fun e he => (I.carries e he).congr (hothers e he), ?_, ?_, fun k => ?_⟩
  · rw [hvms]
    exact hlock
  · rw [hvms]
    exact hnext
  · rw [hkeep]
    exact hwords k

theorem RegisterInv.publish (I : RegisterInv start vm made (.linked d) s)
    (hrun : modifyVm vm (fun V => { V with vmmios := d.node }) s = .ok () s') :
    RegisterInv start vm made (.published d) s' := by
  obtain ⟨hmem, hpool, hhead, hlock⟩ : s'.ram.mem = s.ram.mem ∧ s'.sysBlk = s.sysBlk ∧
      (s'.vms vm).vmmios = d.node ∧ (s'.vms vm).vmLock = (s.vms vm).vmLock := by
    cases hrun
    simp [Hyp.setVm]
  obtain ⟨hheld, hnext, hwords⟩ := I.point
  have hd : d ∈ RegisterPoint.blocks made (.linked d) := List.mem_cons_self
  refine ⟨I.nodes.congr hpool hmem, ⟨?_, ?_⟩, ?_, ?_, ?_⟩
  · rw [hhead, hmem]
    exact I.regions.chain.push (I.nodes.ne_zero hd) hnext fun _ _ => rfl
  · rw [hhead]
    exact I.nodes.lt hd
  · rw [hmem]
    exact I.carries
  · rw [hlock]
    exact hheld
  · rw [hmem]
    exact hwords

theorem RegisterInv.unlock (I : RegisterInv start vm made (.published d) s)
    (hrun : spinUnlock (Hyp.vmLockPart vm) s.ram.core s = .ok () s') :
    RegisterInv start vm made (.storing d 0) s' := by
  have hwp : wp (spinUnlock (Hyp.vmLockPart vm) s.ram.core) (fun _ s' =>
      RegisterInv start vm made (.storing d 0) s') (fun _ _ => True) s := by
    refine spinUnlock_frees fun k hk => ?_
    refine ⟨I.nodes.congr rfl rfl, I.regions.congr ?_ fun _ _ => rfl, I.carries, ?_, fun j => ?_⟩
    · simp [Hyp.setVm]
    · simpa [Hyp.setVm] using hk
    · exact ⟨fun h => absurd h (Nat.not_lt_zero _), fun _ => I.point.2 j⟩
  exact wp_partial.mp hwp _ _ hrun

theorem RegisterInv.store {k : Fin 4} (I : RegisterInv start vm made (.storing d k.val) s)
    (hrun : storeLe (d.node + 8 + 8 * k.val) 8 (d.reg.word k).toNat s = .ok () s') :
    RegisterInv start vm made (.storing d (k.val + 1)) s' := by
  obtain ⟨hmem, hvms, hpool⟩ := storeLe_ok hrun
  have hm : Set.EqOn s'.ram.mem s.ram.mem d.roomᶜ := by
    rw [hmem, Nat.add_assoc]
    have hk := k.isLt
    exact Listed.eqOn_store (by simp only [sizeofVmmioInfo]; omega)
  have hothers : ∀ e ∈ made, Set.EqOn s'.ram.mem s.ram.mem e.room :=
    fun e he => I.nodes.eqOn_room hm he
  have hnext : (readVmmio s'.ram.mem d.node).next = (readVmmio s.ram.mem d.node).next := by
    rw [hmem]
    exact read64_write64_of_disjoint s.ram.mem (by omega)
  refine ⟨I.nodes.write List.mem_cons_self hpool hm, I.regions.congr (by rw [hvms]) fun e he => ?_,
    fun e he => (I.carries e he).congr (hothers e he), ?_,
    fun j => ⟨fun hj => ?_, fun hj => ?_⟩⟩
  · rcases List.mem_cons.mp he with rfl | he
    · exact hnext
    · exact Listed.next_congr (hothers e he)
  · rw [hvms]
    exact I.point.1
  · by_cases hjk : j = k
    · subst hjk
      rw [hmem]
      exact Listed.holds_store j
    · have hlt : j.val < k.val := by
        have hne : j.val ≠ k.val := fun h => hjk (Fin.ext h)
        omega
      rw [Listed.Holds, hmem]
      exact (Listed.word_store hjk).trans ((I.point.2 j).1 hlt)
  · have hjk : j ≠ k := by
      rintro rfl
      omega
    rw [hmem]
    exact (Listed.word_store hjk).trans ((I.point.2 j).2 (by omega))

/-- **The invariant holds in every run**, from a machine with an empty list. -/
theorem RegisterRun.inv {s₀ : Hyp} (hheap : ∃ live free,
    Blocks start (Hyp.heapPart.get s₀) live free) (hempty : (s₀.vms vm).vmmios = 0)
    (hrun : RegisterRun vm s₀ made pt s) : RegisterInv start vm made pt s := by
  induction hrun with
  | start =>
      obtain ⟨live, free, B⟩ := hheap
      refine ⟨⟨⟨live, free, B, nofun⟩, nofun, List.nodup_nil⟩, ⟨hempty, ?_⟩, nofun, trivial⟩
      rw [hempty]
      norm_num
  | lock _ _ hlock ih => exact ih.lock hlock
  | alloc _ halloc ih => exact ih.alloc halloc
  | link _ hlink ih => exact ih.link hlink
  | publish _ hpublish ih => exact ih.publish hpublish
  | unlock _ hunlock ih => exact ih.unlock hunlock
  | store _ hstore ih => exact ih.store hstore
  | @ret made d s _ ih =>
      refine ⟨ih.nodes, ih.regions, fun e he => ?_, trivial⟩
      rcases List.mem_cons.mp he with rfl | he
      · exact fun k => (ih.point.2 k).1 k.isLt
      · exact ih.carries e he

end invariant

/-! ## When the list is consistent -/

section consistent
variable {start vm : ℕ} {made ds : List Listed} {pt : RegisterPoint} {s₀ s s' : Hyp}

/-- While the lock is free, the list is consistent when the words that are missing are there by
chance. -/
theorem RegisterInv.consistent_iff (I : RegisterInv start vm made pt s)
    (hfree : (s.vms vm).vmLock.word = 0) : Consistent vm (pt.listed made) s ↔ pt.Filled := by
  cases pt with
  | idle => exact ⟨fun _ => trivial, fun _ => ⟨I.regions, I.carries⟩⟩
  | locked r => exact absurd hfree I.point
  | taken d => exact absurd hfree I.point.1
  | linked d => exact absurd hfree I.point.1
  | published d => exact absurd hfree I.point.1
  | storing d k =>
      constructor
      · intro C j hj
        have hcarries := C.carries d List.mem_cons_self j
        rw [Listed.Holds, (I.point.2 j).2 hj] at hcarries
        exact hcarries
      · intro hfill
        refine ⟨I.regions, fun e he => ?_⟩
        rcases List.mem_cons.mp he with rfl | he
        · intro j
          rcases Nat.lt_or_ge j.val k with hj | hj
          · exact (I.point.2 j).1 hj
          · rw [Listed.Holds, (I.point.2 j).2 hj]
            exact hfill j hj
        · exact I.carries e he

/-- A record that holds what was registered is called as it was registered. -/
theorem Listed.Carries.call_eq {d : Listed} {m : Mem} (C : d.Carries m) (H : VmmioHandlers)
    (v : Fin ncpu) (reg : Option (Fin 31)) (val : BitVec 64) (x : VmmioAccess) :
    (readVmmio m d.node).call H v reg val x = d.reg.call H v reg val x := by
  obtain ⟨hbase, _, hread, hwrite⟩ := Listed.carries_iff.mp C
  rw [VmmioInfo.call, Registration.call, hbase, hread, hwrite]

theorem Listed.Carries.covers {d : Listed} {m : Mem} (C : d.Carries m) {wnr : Bool} {ipa : ℕ}
    (h : (readVmmio m d.node).Serves wnr ipa) : d.reg.Covers ipa := by
  obtain ⟨hbase, hsize, _, _⟩ := Listed.carries_iff.mp C
  have hin := h.1
  rw [hbase, hsize] at hin
  rw [Registration.Covers, BitVec.toNat_add]
  exact hin

/-- A traversal of a consistent list uses what was registered. -/
theorem Consistent.traverses (C : Consistent vm ds s) (hvm : vm ≠ 0) : Traverses vm ds s := by
  rintro H v n x rfl
  have hhandler := @vmmioHandler_eq H s v _ x hvm C.regions n
  cases hserved : served s.ram.mem (ds.map Listed.node) x.wnr x.ipa with
  | none =>
      rw [hserved] at hhandler
      exact Or.inl ⟨_, hhandler⟩
  | some info =>
      rw [hserved] at hhandler
      have hfind := hserved
      rw [served] at hfind
      have hserves := of_decide_eq_true
        (List.find?_some (p := fun info : VmmioInfo => decide (info.Serves x.wnr x.ipa)) hfind)
      obtain ⟨a, ha, rfl⟩ := List.mem_map.mp (List.mem_of_find?_eq_some hfind)
      obtain ⟨d, hd, rfl⟩ := List.mem_map.mp ha
      have hcarries := C.carries d hd
      exact Or.inr ⟨d, hd, hcarries.covers hserves,
        hhandler.trans (congrFun (hcarries.call_eq H v _ _ x) s)⟩

/-- **The list while its lock is free**, at every step of any number of calls, from any heap and
any memory: it is consistent exactly when the words that a call has not stored yet were in its
block already, and then a traversal uses only what was registered.  So it always is when every
block held what was registered when it was taken. -/
theorem vmmio_list_consistent (hvm : vm ≠ 0)
    (hheap : ∃ live free, Blocks start (Hyp.heapPart.get s₀) live free)
    (hempty : (s₀.vms vm).vmmios = 0) (hrun : RegisterRun vm s₀ made pt s)
    (hfree : (s.vms vm).vmLock.word = 0) :
    (Consistent vm (pt.listed made) s ↔ pt.Filled) ∧
    (pt.Filled → Traverses vm (pt.listed made) s) ∧
    ((∀ d ∈ pt.listed made, d.Carries d.before) → Consistent vm (pt.listed made) s) := by
  have hiff := (hrun.inv hheap hempty).consistent_iff hfree
  refine ⟨hiff, fun hfill => (hiff.mpr hfill).traverses hvm, fun hall => hiff.mpr ?_⟩
  cases pt with
  | storing d k => exact fun j _ => hall d List.mem_cons_self j
  | _ => trivial

/-! ## A call is such steps -/

/-- **`vmmio_handler_register`**, when it returns, has gone through the steps, with a block that
held what memory held. -/
theorem vmmioHandlerRegister_run {r : Registration} {core : Fin ncpu} {rc : ℤ}
    (hheap : ∃ live free, Blocks start (Hyp.heapPart.get s₀) live free)
    (hempty : (s₀.vms vm).vmmios = 0) (hrun : RegisterRun vm s₀ made .idle s) (hvm : vm ≠ 0)
    (hsize : r.size ≠ 0)
    (hcall : vmmioHandlerRegister vm r.ipa.toNat r.size.toNat r.vmmioRead.toNat
      r.vmmioWrite.toNat (s.onCore core) = .ok rc s') :
    ∃ d s₁, d.reg = r ∧ d.before = s.ram.mem ∧ RegisterRun vm s₀ made (.storing d 0) s₁ ∧
      RegisterRun vm s₀ made (.storing d 4) s' := by
  have hno : ¬ (r.size.toNat = 0 ∨ vm = 0) := by
    rintro (h | h)
    · exact hsize (BitVec.eq_of_toNat_eq h)
    · exact hvm h
  rw [vmmioHandlerRegister, if_neg hno] at hcall
  obtain ⟨_, _, ⟨⟩, hcall⟩ := ok_of_bind hcall
  obtain ⟨_, s₂, hlock, hcall⟩ := ok_of_bind hcall
  obtain ⟨q, s₃, halloc, hcall⟩ := ok_of_bind hcall
  cases q with
  | none => cases hcall
  | some new =>
      obtain ⟨_, _, ⟨⟩, hcall⟩ := ok_of_bind hcall
      obtain ⟨_, s₄, hlink, hcall⟩ := ok_of_bind hcall
      obtain ⟨_, s₅, hpublish, hcall⟩ := ok_of_bind hcall
      obtain ⟨_, _, ⟨⟩, hcall⟩ := ok_of_bind hcall
      obtain ⟨_, s₆, hunlock, hcall⟩ := ok_of_bind hcall
      obtain ⟨_, s₇, h0, hcall⟩ := ok_of_bind hcall
      obtain ⟨_, s₈, h1, hcall⟩ := ok_of_bind hcall
      obtain ⟨_, s₉, h2, hcall⟩ := ok_of_bind hcall
      obtain ⟨_, s₁₀, h3, hcall⟩ := ok_of_bind hcall
      cases hcall
      have hlocked := hrun.lock hsize hlock
      have hbefore : s₃.ram.mem = s.ram.mem := by
        have hkept : wp (spinLock (Hyp.vmLockPart vm) core) (fun _ t => t.ram.mem = s.ram.mem)
            (fun _ _ => True) (s.onCore core) := spinLock_ends fun _ => rfl
        rw [((hlocked.inv hheap hempty).nodes.alloc (r := r) halloc).2.1]
        exact wp_partial.mp hkept _ _ hlock
      have hopen := (((hlocked.alloc halloc).link hlink).publish hpublish).unlock hunlock
      have hlast := (((hopen.store (k := 0) h0).store (k := 1) h1).store (k := 2) h2).store
        (k := 3) h3
      exact ⟨_, s₆, rfl, hbefore, hopen, hlast⟩

end consistent

/-- The distributor's window, with functions at `4` and `8`. -/
def distWindow : Registration := ⟨0x8000000, 0x10000, 4, 8⟩

theorem emptyVm_blocks : ∃ live free, Blocks 0x10000 (Hyp.heapPart.get emptyVm) live free :=
  ⟨[], _, freshPool_blocks emptyVm_region _ _ _⟩

/-- The first call, for a machine in cleared memory: right behind its unlock, and at its end. -/
theorem exists_registerRun : ∃ d s₁ s₂, d.reg = distWindow ∧ d.before = emptyVm.ram.mem ∧
    RegisterRun 0x200 emptyVm [] (.storing d 0) s₁ ∧
    RegisterRun 0x200 emptyVm [] (.storing d 4) s₂ := by
  have A : Able 0x10000 63 [6] (emptyVm.onCore 0) :=
    ⟨⟨_, emptyVm_heap⟩, emptyVm_room _ (by decide), rfl, rfl, rfl⟩
  have hlock : ((emptyVm.onCore 0).vms 0x200).vmLock.word = 0 := rfl
  have hheap := emptyVm_blocks
  have hempty : (emptyVm.vms 0x200).vmmios = 0 := rfl
  generalize emptyVm = s at A hlock hheap hempty ⊢
  obtain ⟨rc, s₂, hcall, _⟩ := exists_ok_of_wp
    (@Able.vmmioHandlerRegister _ _ _ _ _ distWindow.ipa.toNat distWindow.size.toNat
      distWindow.vmmioRead.toNat distWindow.vmmioWrite.toNat A (by decide) (by decide) hlock)
  obtain ⟨d, s₁, hreg, hbefore, hfirst, hlast⟩ := @vmmioHandlerRegister_run 0x10000 0x200 [] s s s₂
    distWindow 0 rc hheap hempty .start (by decide) (by decide) hcall
  exact ⟨d, s₁, s₂, hreg, hbefore, hfirst, hlast⟩

/-- Behind the call the list is consistent. -/
theorem vmmio_list_consistent_returned : ∃ d s, RegisterRun 0x200 emptyVm [d] .idle s ∧
    Consistent 0x200 [d] s ∧ Traverses 0x200 [d] s := by
  obtain ⟨d, _, s, _, _, _, hrun⟩ := exists_registerRun
  have hfree := (hrun.inv emptyVm_blocks rfl).point.1
  have H := vmmio_list_consistent (by decide) emptyVm_blocks rfl hrun.ret hfree
  exact ⟨d, s, hrun.ret, H.1.mpr trivial, H.2.1 trivial⟩

/-- Right behind the unlock the record has no region. -/
theorem vmmio_list_unfilled : ∃ d s, RegisterRun 0x200 emptyVm [] (.storing d 0) s ∧
    (s.vms 0x200).vmLock.word = 0 ∧ ¬ Consistent 0x200 [d] s := by
  obtain ⟨d, s, _, hreg, hbefore, hrun, _⟩ := exists_registerRun
  have I := hrun.inv emptyVm_blocks rfl
  refine ⟨d, s, hrun, I.point.1, fun C => ?_⟩
  have hzero : d.word d.before 0 = 0 := by
    rw [hbefore]
    exact readLe_eq_zero fun _ _ => rfl
  have hbase := (I.consistent_iff I.point.1).mp C 0 (Nat.zero_le _)
  rw [Listed.Holds, hzero, hreg] at hbase
  revert hbase
  decide

end Xhyper
