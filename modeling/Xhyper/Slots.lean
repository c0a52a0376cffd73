import Xhyper.Psci
import Xhyper.Unfreed
import Xhyper.Vm

/-!
# Which machine a virtual CPU belongs to

Virtual CPUs are taken from the front of the array `vcpus`, so a machine gets a run of
neighbouring places in it: the virtual CPU with number `k` of the machine is at place
`base + k`, where `base` counts the virtual CPUs of the machines that were made before.

What creating a machine does to the records is proved for every run that returns, whatever
is written to memory on the way: the records are found by address, and the addresses of
machines are blocks of a heap that memory does not influence.

## Main definitions

* `Used` — the virtual CPUs in use are the first ones.
* `Owns` — a machine and its run of virtual CPUs.
* `Slots` — every virtual CPU in use belongs to such a machine.
* `buildGuestVm_ends` — making a machine gives it the next run.
-/

namespace Xhyper

open Memory Prog

/-- The first `u` virtual CPUs are in use. -/
def Used (s : Hyp) (u : ℕ) : Prop := ∀ i, (s.vcpus i).state = .unused ↔ u ≤ i.val

/-- The heap of a state has the blocks `live`, and perhaps others, in use. -/
def HeapHas (start : ℕ) (s : Hyp) (live : List ℕ) : Prop :=
  ∃ live', live ⊆ live' ∧ Unfreed start (Hyp.heapPart.get s) live'

theorem HeapHas.congr {start : ℕ} {s s' : Hyp} {live : List ℕ} (h : HeapHas start s live)
    (hpool : s'.sysBlk = s.sysBlk) : HeapHas start s' live := by
  obtain ⟨live', hsub, U⟩ := h
  exact ⟨live', hsub, U.congr hpool⟩

/-- Only memory and the allocators' variables changed. -/
structure SameRecords (s s' : Hyp) : Prop where
  vms : s'.vms = s.vms
  vcpus : s'.vcpus = s.vcpus

theorem SameRecords.trans {s t u : Hyp} (h : SameRecords s t) (h' : SameRecords t u) :
    SameRecords s u := ⟨h'.vms.trans h.vms, h'.vcpus.trans h.vcpus⟩

/-! ## Steps that leave the records alone -/

section records
variable {start : ℕ} {s : Hyp} {live : List ℕ}

/-- What works on pages leaves the records and the heap's variables alone. -/
theorem wp_ramPart_ends {α : Type} {Q : α → Hyp → Prop} {x : Exec Ram α}
    (h : ∀ a r, x s.ram = .ok a r → Q a { s with ram := r }) :
    wp (zoom Hyp.ramPart x) Q (fun _ _ => True) s := by
  rw [wp_zoom, wp_partial]
  exact h

/-- A block from the heap. -/
theorem wp_xmalloc_ends {Q : Option ℕ → Hyp → Prop} {size : ℕ} (h32 : size < 2 ^ 32)
    (H : HeapHas start s live)
    (hsome : ∀ b s', b ≠ 0 → b ∉ live → SameRecords s s' → s'.ram = s.ram →
      block b size ⊆ block start configBlkSize → HeapHas start s' (b :: live) → Q (some b) s')
    (hnull : ∀ s', Q none s') :
    wp (zoom Hyp.heapPart (xmalloc size)) Q (fun _ _ => True) s := by
  obtain ⟨live', hsub, U⟩ := H
  rw [wp_zoom]
  refine wp_mono (xmalloc_unfreed U h32) ?_ fun _ _ _ => trivial
  rintro r h' ⟨hmem, hcore, ⟨rfl, _⟩ | ⟨b, rfl, hnew, U', hin⟩⟩
  · exact hnull _
  · refine hsome b _ (U'.ne_zero List.mem_cons_self) (fun hb => hnew (hsub hb)) ⟨rfl, rfl⟩ ?_ hin
      ⟨b :: live', List.cons_subset_cons b hsub, U'.congr rfl⟩
    simp only [Hyp.set_heapPart, hmem, hcore, Hyp.get_heapPart]

/-- Fewer blocks need not be looked after. -/
theorem HeapHas.tail {b : ℕ} (H : HeapHas start s (b :: live)) : HeapHas start s live := by
  obtain ⟨live', hsub, U⟩ := H
  exact ⟨live', fun x hx => hsub (List.mem_cons_of_mem _ hx), U⟩

/-- A step that fills in blocks of the heap. -/
structure FillsHeap (start : ℕ) (live : List ℕ) (s s' : Hyp) : Prop where
  same : SameRecords s s'
  writes : HeapWrites start s.ram s'.ram
  heap : HeapHas start s' live

/-- A field of a block is written. -/
theorem FillsHeap.store {s' : Hyp} (h : FillsHeap start live s s') {a n : ℕ} (v : ℕ)
    (hsub : block a n ⊆ block start configBlkSize) :
    FillsHeap start live s
      { s' with ram := { s'.ram with mem := writeLe s'.ram.mem a n v } } :=
  ⟨⟨h.same.vms, h.same.vcpus⟩, h.writes.store v hsub, h.heap.congr rfl⟩

/-- A virtual CPU's interrupts. -/
theorem createVgicCpu_ends {vcpuid : ℕ} (H : HeapHas start s live) :
    wp (createVgicCpu vcpuid) (fun _ s' => FillsHeap start live s s') (fun _ _ => True) s := by
  simp only [createVgicCpu, wp_bind]
  refine wp_xmalloc_ends (by decide) H ?_ fun _ => trivial
  intro b t _ _ hsame hram hin Ht
  simp only [wp_bind, wp_storeLe, wp_pure]
  have hfirst : FillsHeap start live s t :=
    ⟨hsame, by rw [hram]; exact .refl _, Ht.tail⟩
  -- the two arrays are in the block
  have hloop : ∀ (i₀ : ℕ), i₀ + 64 ≤ sizeofVgicCpu → ∀ (Q : ℕ → Hyp → Prop) (u : Hyp),
      FillsHeap start live s u → (∀ k u', FillsHeap start live s u' → Q k u') →
      wp (forRange 1 0 gicNsgi fun i => initIrqConfig (1 <<< vcpuid)
        (b + i₀ + sizeofIrqConfig * i)) Q (fun _ _ => True) u := by
    intro i₀ hi₀ Q u hu hQ
    refine wp_forRange (fun _ u' => FillsHeap start live s u') (by decide) ?_ hu
      fun k u' _ h => hQ _ u' h
    intro k u' hk hu'
    simp only [initIrqConfig, wp_bind, wp_storeLe]
    have hfield : ∀ j, j < 4 → block (b + i₀ + sizeofIrqConfig * (0 + k * 1) + j) 1 ⊆
        block start configBlkSize := by
      intro j hj x hx
      apply hin
      simp only [mem_block, sizeofIrqConfig, gicNsgi] at *
      omega
    exact ((hu'.store _ (hfield 2 (by decide))).store _ (hfield 1 (by decide))).store _
      (hfield 3 (by decide))
  have hused : block b 2 ⊆ block start configBlkSize := fun x hx => hin (by
    simp only [mem_block, sizeofVgicCpu] at hx ⊢
    omega)
  refine hloop 2 (by decide) _ _ (hfirst.store 0 hused) fun _ u hu => ?_
  exact hloop 66 (by decide) _ _ hu fun _ u' hu' => hu'

/-- What a region's record changes of the machine's. -/
def Retrapped (s s' : Hyp) (vm : ℕ) : Prop :=
  s'.vcpus = s.vcpus ∧ ∃ a l, s'.vms = Function.update s.vms vm
    { s.vms vm with vmmios := a, vmLock := l }

theorem Retrapped.of_same {s s' : Hyp} (h : SameRecords s s') (vm : ℕ) : Retrapped s s' vm :=
  ⟨h.vcpus, (s.vms vm).vmmios, (s.vms vm).vmLock, by rw [Function.update_eq_self]; exact h.vms⟩

theorem Retrapped.trans {s t u : Hyp} {vm : ℕ} (h : Retrapped s t vm) (h' : Retrapped t u vm) :
    Retrapped s u vm := by
  obtain ⟨hc, a, l, hv⟩ := h
  obtain ⟨hc', a', l', hv'⟩ := h'
  refine ⟨hc'.trans hc, a', l', ?_⟩
  rw [hv', hv, Function.update_self, Function.update_idem]

theorem Retrapped.vttbr {s s' : Hyp} {vm : ℕ} (h : Retrapped s s' vm) :
    (s'.vms vm).vttbr = (s.vms vm).vttbr := by
  obtain ⟨_, a, l, hv⟩ := h
  rw [hv, Function.update_self]

/-- Registering a region writes its record. -/
theorem vmmioHandlerRegister_ends {vm ipa size vmmioRead vmmioWrite : ℕ}
    (H : HeapHas start s live) :
    wp (vmmioHandlerRegister vm ipa size vmmioRead vmmioWrite) (fun _ s' => Retrapped s s' vm ∧
      HeapHas start s' live ∧ HeapWrites start s.ram s'.ram) (fun _ _ => True) s := by
  simp only [vmmioHandlerRegister, wp_ite, wp_pure, wp_bind, wp_get]
  refine ⟨fun _ => ⟨.of_same ⟨rfl, rfl⟩ vm, H, .refl _⟩, fun _ => spinLock_ends fun k => ?_⟩
  have Hlocked : HeapHas start ((Hyp.vmLockPart vm).set k s) live := H.congr rfl
  refine wp_xmalloc_ends (by decide) Hlocked ?_ fun _ => trivial
  intro b t _ _ ht hram hin Ht
  simp only [wp_bind, wp_get, wp_storeLe, wp_modifyVm]
  refine spinUnlock_ends fun k' => ?_
  simp only [wp_pure, Hyp.set_vmLockPart, Hyp.setVm]
  have hfield : ∀ i, i + 8 ≤ sizeofVmmioInfo → block (b + i) 8 ⊆ block start configBlkSize :=
    fun i hi => (field_subset hi).trans hin
  have hram' : HeapWrites start s.ram t.ram := by
    rw [hram]
    exact .refl _
  refine ⟨⟨ht.vcpus, b, k', ?_⟩, Ht.tail.congr rfl, ?_⟩
  · simp only [ht.vms, Hyp.set_vmLockPart, Hyp.setVm, Function.update_idem, Function.update_self]
  · exact ((((hram'.store _ (hfield 0 (by decide))).store _ (hfield 8 (by decide))).store _
      (hfield 16 (by decide))).store _ (hfield 24 (by decide))).store _ (hfield 32 (by decide))

/-- Trapping a region whose first page has no last-level table writes a record only. -/
theorem createMmioTrap_ends {vm ipa size vmmioRead vmmioWrite : ℕ} (H : HeapHas start s live) :
    wp (createMmioTrap vm ipa size vmmioRead vmmioWrite) (fun _ s' => Retrapped s s' vm ∧
      HeapHas start s' live ∧ (pteAt s.ram.mem (s.vms vm).vttbr ipa = none →
        HeapWrites start s.ram s'.ram)) (fun _ _ => True) s := by
  by_cases hvm : vm = 0
  · simp only [createMmioTrap, derefVm, hvm, if_true, wp_bind, wp_get, wp_throw]
  rw [createMmioTrap, wp_bind, wp_derefVm hvm, wp_bind, wp_zoom, Hyp.get_ramPart,
    wp_pageWalk_false]
  cases hwalk : pteAt s.ram.mem (s.vms vm).vttbr ipa with
  | none =>
      simp only [wp_pure, wp_bind]
      refine wp_mono (vmmioHandlerRegister_ends H) ?_ fun _ _ _ => trivial
      exact fun _ s' h => ⟨h.1, h.2.1, fun _ => h.2.2⟩
  | some pte =>
      simp only [wp_bind, wp_pure]
      refine wp_ramPart_ends fun _ r _ => ?_
      refine wp_mono (vmmioHandlerRegister_ends (H.congr rfl)) ?_ fun _ _ _ => trivial
      exact fun _ s' h => ⟨(Retrapped.of_same ⟨rfl, rfl⟩ vm).trans h.1, h.2.1,
        by rintro ⟨⟩⟩

/-- The windows of the interrupt controller have no last-level table, and writing to the heap
does not make one. -/
def NoGicTable (start : ℕ) (r : Ram) (vttbr : ℕ) : Prop :=
  ∀ r', HeapWrites start r r' → pteAt r'.mem vttbr gicdBase = none ∧
    pteAt r'.mem vttbr gicrBase = none

theorem createVgicDist_ends {P : Platform} {vm : ℕ} (H : HeapHas start s live) :
    wp (createVgicDist P vm) (fun _ s' => Retrapped s s' vm ∧ HeapHas start s' live ∧
      (NoGicTable start s.ram (s.vms vm).vttbr → HeapWrites start s.ram s'.ram))
      (fun _ _ => True) s := by
  simp only [createVgicDist, wp_bind]
  refine wp_xmalloc_ends (by decide) H ?_ fun _ => trivial
  intro b t _ _ ht hram hin Ht
  simp only [wp_bind, wp_get, wp_storeLe]
  have hsize : ((t.gicMaxSpi - 31) % 2 ^ 32).toNat < 2 ^ 32 := by omega
  refine wp_xmalloc_ends hsize (Ht.congr rfl) ?_ fun _ => trivial
  intro b' u _ _ hu huram _ Hu
  simp only [wp_bind, wp_storeLe]
  have hfield : ∀ i n, i + n ≤ sizeofVgicDist → block (b + i) n ⊆ block start configBlkSize :=
    fun i n hi => (field_subset hi).trans hin
  have hwrites : HeapWrites start s.ram u.ram := by
    have h0 : HeapWrites start s.ram t.ram := by
      rw [hram]
      exact .refl _
    rw [huram]
    exact (h0.store _ (hfield 0 4 (by decide))).store _ (hfield 4 1 (by decide))
  have hwrites' : HeapWrites start s.ram
      { u.ram with mem := writeLe u.ram.mem (b + 8) 8 b' } :=
    hwrites.store b' (hfield 8 8 (by decide))
  have hvms : u.vms = s.vms := hu.vms.trans ht.vms
  have hsame : Retrapped s { u with ram := { u.ram with mem := writeLe u.ram.mem (b + 8) 8 b' } } vm :=
    .of_same ⟨hvms, hu.vcpus.trans ht.vcpus⟩ vm
  refine wp_mono (createMmioTrap_ends (Hu.tail.tail.congr rfl)) ?_ fun _ _ _ => trivial
  rintro _ u₁ ⟨hr₁, H₁, hw₁⟩
  refine wp_mono (createMmioTrap_ends H₁) ?_ fun _ _ _ => trivial
  rintro _ u₂ ⟨hr₂, H₂, hw₂⟩
  refine ⟨(hsame.trans hr₁).trans hr₂, H₂, fun hno => ?_⟩
  have hvttbr : (u.vms vm).vttbr = (s.vms vm).vttbr := by rw [hvms]
  have hvttbr₁ : (u₁.vms vm).vttbr = (s.vms vm).vttbr := hr₁.vttbr.trans hvttbr
  have hone : HeapWrites start s.ram u₁.ram := hwrites'.trans (hw₁ (by
    rw [hvttbr]
    exact (hno _ hwrites').1))
  refine hone.trans (hw₂ ?_)
  rw [hvttbr₁]
  exact (hno _ hone).2

end records

/-! ## Taking virtual CPUs -/

section vcpus
variable {start : ℕ} {s : Hyp} {live : List ℕ} {u vm : ℕ}

/-- The scan takes the first unused virtual CPU of a sorted list. -/
theorem vcpuScan_ends {l : List (Fin ncpu)} (hl : l.Pairwise (· < ·)) :
    wp (vcpuScan l) (fun r s' => ∃ i ∈ l, r = some i ∧ (s.vcpus i).state = .unused ∧
        (∀ j ∈ l, j < i → (s.vcpus j).state ≠ .unused) ∧ s'.vms = s.vms ∧ s'.sysBlk = s.sysBlk ∧
        s'.ram = s.ram ∧ s'.vcpus = Function.update s.vcpus i { s.vcpus i with state := .alloced })
      (fun _ _ => True) s := by
  induction l with
  | nil => trivial
  | cons i rest ih =>
      obtain ⟨hlt, hrest⟩ := List.pairwise_cons.mp hl
      simp only [vcpuScan, wp_bind, wp_get, wp_ite, wp_modifyVcpu]
      refine ⟨fun hfree => spinUnlock_ends fun k => ?_, fun hused => ?_⟩
      · refine ⟨i, List.mem_cons_self, rfl, hfree, ?_, rfl, rfl, rfl, rfl⟩
        intro j hj hji
        rcases List.mem_cons.mp hj with rfl | hj
        · exact absurd hji (lt_irrefl _)
        · exact absurd hji (lt_asymm (hlt j hj))
      · refine wp_mono (ih hrest) ?_ fun _ _ _ => trivial
        rintro r s' ⟨k, hk, hr, hfree, hfirst, hs'⟩
        refine ⟨k, List.mem_cons_of_mem _ hk, hr, hfree, fun j hj hjk => ?_, hs'⟩
        rcases List.mem_cons.mp hj with rfl | hj
        · exact hused
        · exact hfirst j hj hjk

/-- **`vcpu_alloc`** takes the place behind those in use. -/
theorem vcpuAlloc_ends (hu : Used s u) :
    wp vcpuAlloc (fun r s' => ∃ i, r = some i ∧ i.val = u ∧ s'.vms = s.vms ∧
        s'.sysBlk = s.sysBlk ∧ s'.ram = s.ram ∧
        s'.vcpus = Function.update s.vcpus i { s.vcpus i with state := .alloced })
      (fun _ _ => True) s := by
  simp only [vcpuAlloc, wp_bind, wp_get]
  refine spinLock_ends fun k => ?_
  refine wp_mono (vcpuScan_ends (List.pairwise_lt_finRange ncpu)) ?_ fun _ _ _ => trivial
  rintro r s' ⟨i, _, hr, hfree, hfirst, hs'⟩
  refine ⟨i, hr, ?_, hs'⟩
  have hle : u ≤ i.val := (hu i).mp hfree
  by_contra hne
  have hlt : u < i.val := lt_of_le_of_ne hle (Ne.symm hne)
  have hbad := hfirst ⟨u, hlt.trans i.isLt⟩ (List.mem_finRange _) hlt
  exact hbad ((hu _).mpr le_rfl)

/-- The virtual CPU `i` was made part of the machine `vm`, and no other record changed. -/
structure Made (s : Hyp) (i : Fin ncpu) (vm : ℕ) (s' : Hyp) : Prop where
  vms : s'.vms = s.vms
  vm_eq : (s'.vcpus i).vm = vm
  state_eq : (s'.vcpus i).state = .alloced
  others : ∀ j, j ≠ i → s'.vcpus j = s.vcpus j

/-- Other fields of the new virtual CPU are filled in. -/
theorem Made.wp_modify {i : Fin ncpu} {s' : Hyp} {Q : Unit → Hyp → Prop} {E : Fault → Hyp → Prop}
    (h : Made s i vm s') {f : Vcpu → Vcpu} (hvm : ∀ v, (f v).vm = v.vm)
    (hstate : ∀ v, (f v).state = v.state)
    (hQ : ∀ t, Made s i vm t → t.sysBlk = s'.sysBlk → t.ram = s'.ram → Q () t) :
    wp (modifyVcpu i f) Q E s' := by
  rw [wp_modifyVcpu]
  refine hQ _ ⟨h.vms, ?_, ?_, fun j hj => ?_⟩ rfl rfl
  · simp only [Hyp.setVcpu, Function.update_self, hvm, h.vm_eq]
  · simp only [Hyp.setVcpu, Function.update_self, hstate, h.state_eq]
  · simp only [Hyp.setVcpu, Function.update_of_ne hj, h.others j hj]

theorem Made.same {i : Fin ncpu} {s' t : Hyp} (h : Made s i vm s') (hs : SameRecords s' t) :
    Made s i vm t := by
  refine ⟨hs.vms.trans h.vms, ?_, ?_, fun j hj => ?_⟩
  · rw [hs.vcpus, h.vm_eq]
  · rw [hs.vcpus, h.state_eq]
  · rw [hs.vcpus, h.others j hj]

/-- **`create_vcpu`** makes the place behind those in use part of the machine. -/
theorem createVcpu_ends {vcpuid : ℕ} {entry : BitVec 64} (hu : Used s u)
    (H : HeapHas start s live) :
    wp (createVcpu vm vcpuid entry) (fun i s' => i.val = u ∧ Made s i vm s' ∧
      HeapHas start s' live ∧ HeapWrites start s.ram s'.ram) (fun _ _ => True) s := by
  rw [createVcpu, wp_bind]
  refine wp_mono (vcpuAlloc_ends hu) ?_ fun _ _ _ => trivial
  rintro r t ⟨i, rfl, hi, hvms, hpool, hram, hvcpus⟩
  have Hpool : HeapHas start t live := H.congr hpool
  simp only [wp_bind, wp_get]
  rw [wp_modifyVcpu]
  have hfirst : Made s i vm (t.setVcpu i { t.vcpus i with vm := vm, cpuid := vcpuid }) := by
    refine ⟨hvms, ?_, ?_, fun j hj => ?_⟩
    · simp only [Hyp.setVcpu, Function.update_self]
    · simp only [Hyp.setVcpu, Function.update_self, hvcpus]
    · simp only [Hyp.setVcpu, hvcpus, Function.update_of_ne hj]
  refine hfirst.wp_modify (fun _ => rfl) (fun _ => rfl) fun t₁ ht₁ hp₁ hr₁ => ?_
  -- from here on only fields of this virtual CPU and its record on the heap are written
  have hrest : ∀ t₂, Made s i vm t₂ → t₂.sysBlk = t₁.sysBlk → t₂.ram = t₁.ram →
      wp (createVgicCpu vcpuid) (fun b t₃ => wp (modifyVcpu i fun v => { v with vgicCpu := b })
        (fun _ t₄ => wp (modifyVcpu i fun v => { v with
            gicContext := { v.gicContext with vmcr := (t₄.cores t₄.ram.core).ichVmcrEl2 } })
          (fun _ s' => i.val = u ∧ Made s i vm s' ∧ HeapHas start s' live ∧
            HeapWrites start s.ram s'.ram) (fun _ _ => True) t₄)
        (fun _ _ => True) t₃) (fun _ _ => True) t₂ := by
    intro t₂ ht₂ hp₂ hr₂
    refine wp_mono (createVgicCpu_ends (Hpool.congr (hp₂.trans hp₁))) ?_ fun _ _ _ => trivial
    intro b t₃ F
    refine (ht₂.same F.same).wp_modify (fun _ => rfl) (fun _ => rfl) fun t₄ ht₄ hp₄ hr₄ => ?_
    refine ht₄.wp_modify (fun _ => rfl) (fun _ => rfl) fun t₅ ht₅ hp₅ hr₅ => ?_
    refine ⟨hi, ht₅, F.heap.congr (hp₅.trans hp₄), ?_⟩
    have hw := F.writes
    rw [hr₅, hr₄, ← hram]
    rwa [hr₂, hr₁] at hw
  by_cases h0 : vcpuid = 0
  · rw [if_pos h0, wp_bind]
    by_cases hvm : vm = 0
    · simp only [derefVm, hvm, if_true, wp_bind, wp_get, wp_throw]
    · rw [wp_derefVm hvm]
      simp only [wp_bind, wp_get, wp_pure]
      refine ht₁.wp_modify (fun _ => rfl) (fun _ => rfl) fun t₂ ht₂ hp₂ hr₂ => ?_
      exact hrest t₂ ht₂ hp₂ hr₂
  · rw [if_neg h0]
    simp only [wp_bind, wp_get, wp_pure]
    exact hrest t₁ ht₁ rfl rfl

end vcpus

/-! ## Making a machine -/

/-- The machine `vm` has the places from `base` on as its first `n` virtual CPUs, and they
are in the state `first` and `alloced`. -/
structure Run (s₀ s : Hyp) (vm base n : ℕ) (first : VcpuState) : Prop where
  slots : ∀ k i : Fin ncpu, (s.vms vm).vcpus k = some i ↔ k.val < n ∧ i.val = base + k.val
  fits : ∀ k, k < n → base + k < ncpu
  vm_eq : ∀ i : Fin ncpu, base ≤ i.val → i.val < base + n → (s.vcpus i).vm = vm
  state_eq : ∀ i : Fin ncpu, base ≤ i.val → i.val < base + n →
    (s.vcpus i).state = if i.val = base then first else .alloced
  other_vcpus : ∀ i : Fin ncpu, ¬ (base ≤ i.val ∧ i.val < base + n) → s.vcpus i = s₀.vcpus i
  other_vms : ∀ a, a ≠ vm → s.vms a = s₀.vms a

section make
variable {start : ℕ} {s₀ s : Hyp} {live : List ℕ} {vm base n : ℕ} {first : VcpuState}

theorem Run.used (R : Run s₀ s vm base n first) (hu : Used s₀ base) (hfirst : first ≠ .unused) :
    Used s (base + n) := by
  intro i
  by_cases hin : base ≤ i.val ∧ i.val < base + n
  · rw [R.state_eq i hin.1 hin.2]
    by_cases hb : i.val = base
    · rw [if_pos hb]
      exact ⟨fun h => absurd h hfirst, fun h => by omega⟩
    · rw [if_neg hb]
      exact ⟨fun h => (by cases h), fun h => by omega⟩
  · rw [R.other_vcpus i hin, hu i]
    omega

/-- A machine without virtual CPUs yet. -/
theorem Run.nil (hvms : ∀ a, a ≠ vm → s.vms a = s₀.vms a) (hvcpus : s.vcpus = s₀.vcpus)
    (hnone : ∀ k, (s.vms vm).vcpus k = none) : Run s₀ s vm base 0 first := by
  refine ⟨fun k i => ?_, fun k h => absurd h (Nat.not_lt_zero k), fun i h h' => ?_,
    fun i h h' => ?_, fun i _ => by rw [hvcpus], hvms⟩
  · rw [hnone k]
    exact ⟨fun h => (by cases h), fun h => absurd h.1 (Nat.not_lt_zero _)⟩
  · omega
  · omega

/-- Fields of the machine's record that do not concern its virtual CPUs may change, and so may
memory. -/
theorem Run.congr {t : Hyp} (R : Run s₀ s vm base n first) (hvcpus : t.vcpus = s.vcpus)
    (hslots : (t.vms vm).vcpus = (s.vms vm).vcpus) (hvms : ∀ a, a ≠ vm → t.vms a = s.vms a) :
    Run s₀ t vm base n first := by
  refine ⟨fun k i => ?_, R.fits, fun i h h' => ?_, fun i h h' => ?_, fun i h => ?_,
    fun a ha => ?_⟩
  · rw [hslots]
    exact R.slots k i
  · rw [hvcpus]
    exact R.vm_eq i h h'
  · rw [hvcpus]
    exact R.state_eq i h h'
  · rw [hvcpus]
    exact R.other_vcpus i h
  · rw [hvms a ha, R.other_vms a ha]

theorem Run.retrapped {t : Hyp} (R : Run s₀ s vm base n first) (h : Retrapped s t vm) :
    Run s₀ t vm base n first := by
  obtain ⟨hvcpus, a, l, hvms⟩ := h
  refine R.congr hvcpus ?_ fun a ha => ?_
  · rw [hvms, Function.update_self]
  · rw [hvms, Function.update_of_ne ha]

/-- Before the machine was made, memory may have changed. -/
theorem Run.rebase {t : Hyp} (R : Run t s vm base n first) (h : SameRecords s₀ t) :
    Run s₀ s vm base n first := by
  refine ⟨R.slots, R.fits, R.vm_eq, R.state_eq, fun i hi => ?_, fun a ha => ?_⟩
  · rw [R.other_vcpus i hi, h.vcpus]
  · rw [R.other_vms a ha, h.vms]

/-- The first virtual CPU is made ready. -/
theorem Run.ready (R : Run s₀ s vm base n .alloced) (hn : 0 < n) {i : Fin ncpu}
    (hi : i.val = base) :
    Run s₀ (s.setVcpu i { s.vcpus i with state := .ready }) vm base n .ready := by
  refine ⟨R.slots, R.fits, fun j hlo hhi => ?_, fun j hlo hhi => ?_, fun j hj => ?_,
    R.other_vms⟩
  · by_cases hji : j = i
    · subst hji
      simp only [Hyp.setVcpu, Function.update_self]
      exact R.vm_eq j hlo hhi
    · simp only [Hyp.setVcpu, Function.update_of_ne hji]
      exact R.vm_eq j hlo hhi
  · by_cases hji : j = i
    · subst hji
      simp only [Hyp.setVcpu, Function.update_self, if_pos hi]
    · have hne : j.val ≠ base := fun h => hji (Fin.ext (h.trans hi.symm))
      simp only [Hyp.setVcpu, Function.update_of_ne hji, if_neg hne]
      rw [R.state_eq j hlo hhi, if_neg hne]
  · have hji : j ≠ i := by
      rintro rfl
      exact hj ⟨by omega, by omega⟩
    simp only [Hyp.setVcpu, Function.update_of_ne hji]
    exact R.other_vcpus j hj

/-- The next virtual CPU. -/
theorem addVcpu_ends {entry : BitVec 64} (hu : Used s₀ base) (R : Run s₀ s vm base n .alloced)
    (H : HeapHas start s live) :
    wp (addVcpu vm n entry) (fun _ s' => Run s₀ s' vm base (n + 1) .alloced ∧
        HeapHas start s' live ∧ HeapWrites start s.ram s'.ram ∧
        (s'.vms vm).nvcpu = (s.vms vm).nvcpu) (fun _ _ => True) s := by
  rw [addVcpu, wp_bind]
  refine wp_mono (createVcpu_ends (R.used hu (by decide)) H) ?_ fun _ _ _ => trivial
  rintro i t ⟨hi, M, Ht, hw⟩
  by_cases hn : n < ncpu
  · rw [dif_pos hn, wp_modifyVm]
    have hfits : ∀ k, k < n + 1 → base + k < ncpu := by
      intro k hk
      have hlt := i.isLt
      omega
    refine ⟨⟨fun k j => ?_, hfits, fun j hlo hhi => ?_, fun j hlo hhi => ?_, fun j hj => ?_,
      fun a ha => ?_⟩, Ht.congr rfl, hw, ?_⟩
    · simp only [Hyp.setVm, Function.update_self]
      by_cases hk : k = ⟨n, hn⟩
      · subst hk
        rw [Function.update_self, Option.some_inj]
        constructor
        · rintro rfl
          exact ⟨Nat.lt_succ_self n, hi⟩
        · intro hj
          exact Fin.ext (hi.trans hj.2.symm)
      · have hkn : k.val ≠ n := fun h => hk (Fin.ext h)
        rw [Function.update_of_ne hk, M.vms, R.slots k j]
        omega
    · by_cases hji : j = i
      · rw [hji]
        exact M.vm_eq
      · have hne : j.val ≠ i.val := fun h => hji (Fin.ext h)
        change (t.vcpus j).vm = vm
        rw [M.others j hji]
        exact R.vm_eq j hlo (by omega)
    · by_cases hji : j = i
      · rw [hji]
        change (t.vcpus i).state = _
        rw [M.state_eq, ite_self]
      · have hne : j.val ≠ i.val := fun h => hji (Fin.ext h)
        change (t.vcpus j).state = _
        rw [M.others j hji]
        exact R.state_eq j hlo (by omega)
    · have hji : j ≠ i := by
        rintro rfl
        omega
      change t.vcpus j = _
      rw [M.others j hji]
      exact R.other_vcpus j (by omega)
    · simp only [Hyp.setVm, Function.update_of_ne ha, M.vms]
      exact R.other_vms a ha
    · simp only [Hyp.setVm, Function.update_self, M.vms]
  · rw [dif_neg hn]
    trivial

/-- How many virtual CPUs a machine is given: one at least. -/
def VmConfig.slots (cfg : VmConfig) : ℕ := max 1 cfg.ncpu.toNat

/-- **`vm_init`** gives the machine its run. -/
theorem vmInit_ends {image : Guest} {cfg : VmConfig} (hu : Used s base)
    (H : HeapHas start s live) :
    wp (vmInit vm image cfg) (fun _ s' => Run s s' vm base cfg.slots .alloced ∧
        HeapHas start s' live ∧ HeapWrites start s.ram s'.ram ∧ (s'.vms vm).nvcpu = cfg.ncpu)
      (fun _ _ => True) s := by
  rw [vmInit, wp_bind, wp_modifyVm, wp_bind, setVmName]
  by_cases hname : image.guestName.length < vmNameLen
  swap
  · rw [if_neg hname]
    trivial
  rw [if_pos hname]
  simp only [wp_bind, wp_modifyVm, wp_pure]
  generalize ht : Hyp.setVm _ vm _ = t
  have hvms : ∀ a, a ≠ vm → t.vms a = s.vms a := by
    intro a ha
    simp only [← ht, Hyp.setVm, Function.update_of_ne ha]
  have hvcpus : t.vcpus = s.vcpus := by rw [← ht]; rfl
  have hpool : t.sysBlk = s.sysBlk := by rw [← ht]; rfl
  have hram : t.ram = s.ram := by rw [← ht]; rfl
  have hnone : ∀ k, (t.vms vm).vcpus k = none := by
    intro k
    simp only [← ht, Hyp.setVm, Function.update_self, zeroVm]
  have hcount : (t.vms vm).nvcpu = cfg.ncpu := by
    simp only [← ht, Hyp.setVm, Function.update_self]
  clear ht
  refine wp_mono (addVcpu_ends hu (.nil hvms hvcpus hnone) (H.congr hpool)) ?_
    fun _ _ _ => trivial
  rintro _ u ⟨Ru, Hu, hwu, hnu⟩
  rw [hcount] at hnu
  rw [hram] at hwu
  refine wp_forRange (fun k s' => Run s s' vm base (1 + k) .alloced ∧ HeapHas start s' live ∧
    HeapWrites start s.ram s'.ram ∧ (s'.vms vm).nvcpu = cfg.ncpu) (by decide) ?_
    ⟨Ru, Hu, hwu, hnu⟩ ?_
  · rintro k t' _ ⟨R', H', hw', hn'⟩
    rw [Nat.mul_one]
    refine wp_mono (addVcpu_ends hu R' H') ?_ fun _ _ _ => trivial
    rintro _ t'' ⟨R'', H'', hw'', hn''⟩
    exact ⟨R'', H'', hw'.trans hw'', hn''.trans hn'⟩
  · rintro k t' hk ⟨R', H', hw', hn'⟩
    have hslots : cfg.slots = 1 + k := by
      rw [VmConfig.slots]
      omega
    rw [hslots]
    exact ⟨R', H', hw', hn'⟩

/-- The memory side of making a machine: blocks of the heap are written, the table is built,
and the registers of the interrupt controller are trapped. -/
def BuildsTable (start : ℕ) (cfg : VmConfig) (r : Ram) (vttbr : ℕ) (r' : Ram) : Prop :=
  ∃ r₁ r₂ r₃ r₄, HeapWrites start r r₁ ∧ allocOnePage r₁ = .ok (some vttbr) r₂ ∧
    doMemoryMapping vttbr cfg r₂ = .ok () r₃ ∧ doDeviceMapping vttbr r₃ = .ok () r₄ ∧
    (NoGicTable start r₄ vttbr → HeapWrites start r₄ r')

/-- A machine made: its address is new, it has the places behind those in use, the first of
its virtual CPUs is ready, and its table was built. -/
structure Guested (start : ℕ) (live : List ℕ) (base : ℕ) (cfg : VmConfig) (s : Hyp) (vm : ℕ)
    (s' : Hyp) : Prop where
  ne_zero : vm ≠ 0
  new : vm ∉ live
  heap : HeapHas start s' (vm :: live)
  run : Run s s' vm base cfg.slots .ready
  nvcpu : (s'.vms vm).nvcpu = cfg.ncpu
  table : BuildsTable start cfg s.ram (s'.vms vm).vttbr s'.ram

/-- **Making a machine.** -/
theorem buildGuestVm_ends {P : Platform} {cfg : VmConfig} (hu : Used s base)
    (H : HeapHas start s live) :
    wp (buildGuestVm P cfg) (fun vm s' => Guested start live base cfg s vm s')
      (fun _ _ => True) s := by
  rw [buildGuestVm]
  cases cfg.guestImage with
  | none => trivial
  | some image =>
      by_cases hcpu : cfg.ncpu > ncpu
      · simp only [hcpu, if_true]
        trivial
      simp only [hcpu, if_false, wp_bind]
      refine wp_xmalloc_ends (by decide) H ?_ fun _ => trivial
      intro vm t hvm hnew ht htram _ Ht
      rw [wp_bind]
      have hut : Used t base := by
        intro i
        rw [ht.vcpus]
        exact hu i
      refine wp_mono (vmInit_ends hut Ht) ?_ fun _ _ _ => trivial
      rintro _ t₁ ⟨R, H₁, hw₁, hn₁⟩
      rw [htram] at hw₁
      rw [wp_bind]
      refine wp_ramPart_ends fun page r hpage => ?_
      cases page with
      | none => trivial
      | some vttbr =>
          simp only [wp_bind, wp_modifyVm]
          refine wp_ramPart_ends fun _ r₁ hmemory => wp_ramPart_ends fun _ r₂ hdevice => ?_
          refine wp_mono (createVgicDist_ends (H₁.congr rfl)) ?_ fun _ _ _ => trivial
          rintro vgicDist t₂ ⟨hr, H₂, hw₂⟩
          have R₂ : Run s t₂ vm base cfg.slots .alloced := by
            refine Run.retrapped ?_ hr
            refine (R.rebase ht).congr rfl ?_ fun a ha => ?_
            · simp only [Hyp.setVm, Function.update_self]
            · simp only [Hyp.setVm, Function.update_of_ne ha]
          have hn₂ : (t₂.vms vm).nvcpu = cfg.ncpu := by
            obtain ⟨_, a, l, hv⟩ := hr
            simp only [hv, Hyp.setVm, Function.update_self, hn₁]
          have hv₂ : (t₂.vms vm).vttbr = vttbr := by
            rw [hr.vttbr]
            simp only [Hyp.setVm, Function.update_self]
          have htable : BuildsTable start cfg s.ram vttbr t₂.ram := by
            refine ⟨t₁.ram, r, r₁, r₂, hw₁, hpage, hmemory, hdevice, fun hno => hw₂ ?_⟩
            simpa only [Hyp.setVm, Function.update_self] using hno
          -- the first virtual CPU is made ready
          generalize ht₃ : t₂.setVm vm { t₂.vms vm with vgicDist := vgicDist } = t₃
          have R₃ : Run s t₃ vm base cfg.slots .alloced := by
            rw [← ht₃]
            refine R₂.congr rfl ?_ fun a ha => ?_
            · simp only [Hyp.setVm, Function.update_self]
            · simp only [Hyp.setVm, Function.update_of_ne ha]
          have hn₃ : (t₃.vms vm).nvcpu = cfg.ncpu := by
            simp only [← ht₃, Hyp.setVm, Function.update_self, hn₂]
          have hv₃ : (t₃.vms vm).vttbr = vttbr := by
            simp only [← ht₃, Hyp.setVm, Function.update_self, hv₂]
          have H₃ : HeapHas start t₃ (vm :: live) := H₂.congr (by rw [← ht₃]; rfl)
          have hram₃ : t₃.ram = t₂.ram := by rw [← ht₃]; rfl
          simp only [readyFirst, wp_bind, wp_get]
          cases hslot : (t₃.vms vm).vcpus 0 with
          | none => trivial
          | some i =>
              simp only [wp_modifyVcpu, wp_pure]
              obtain ⟨hpos, hi⟩ := (R₃.slots 0 i).mp hslot
              refine ⟨hvm, hnew, H₃.congr rfl, R₃.ready hpos hi, hn₃, ?_⟩
              change BuildsTable start cfg s.ram (t₃.vms vm).vttbr t₃.ram
              rw [hv₃, hram₃]
              exact htable

end make

/-! ## All machines -/

/-- A machine that was made: its virtual CPUs are the `n` places from `base` on, and no other
virtual CPU in use is one of its. -/
structure Owns (s : Hyp) (vm base n : ℕ) : Prop where
  ne_zero : vm ≠ 0
  slots : ∀ k i : Fin ncpu, (s.vms vm).vcpus k = some i ↔ k.val < n ∧ i.val = base + k.val
  fits : ∀ k, k < n → base + k < ncpu
  mine : ∀ i : Fin ncpu, (s.vcpus i).state ≠ .unused →
    ((s.vcpus i).vm = vm ↔ base ≤ i.val ∧ i.val < base + n)
  used : ∀ i : Fin ncpu, base ≤ i.val → i.val < base + n → (s.vcpus i).state ≠ .unused
  nvcpu_le : (s.vms vm).nvcpu ≤ n

/-- **Every virtual CPU in use belongs to a machine**, and the machines are on the heap. -/
structure Slots (start : ℕ) (s : Hyp) : Prop where
  used : ∃ u, Used s u
  owner : ∀ i, (s.vcpus i).state ≠ .unused → ∃ base n, Owns s (s.vcpus i).vm base n
  heap : ∃ live, HeapHas start s live ∧ ∀ i, (s.vcpus i).state ≠ .unused → (s.vcpus i).vm ∈ live

section slots
variable {start : ℕ} {s s' : Hyp} {vm base n : ℕ}

/-- The states of virtual CPUs in use may change, and so may everything that is not about
machines. -/
theorem Slots.congr (S : Slots start s) (hvms : s'.vms = s.vms) (hpool : s'.sysBlk = s.sysBlk)
    (hvm : ∀ i, (s'.vcpus i).vm = (s.vcpus i).vm)
    (hused : ∀ i, (s'.vcpus i).state = .unused ↔ (s.vcpus i).state = .unused) :
    Slots start s' := by
  obtain ⟨u, hu⟩ := S.used
  obtain ⟨live, H, hlive⟩ := S.heap
  refine ⟨⟨u, fun i => (hused i).trans (hu i)⟩, fun i hi => ?_, live, H.congr hpool, fun i hi => ?_⟩
  · obtain ⟨base, n, O⟩ := S.owner i fun h => hi ((hused i).mpr h)
    refine ⟨base, n, ?_⟩
    rw [hvm i]
    refine ⟨O.ne_zero, ?_, O.fits, fun j hj => ?_, fun j hlo hhi h => ?_, ?_⟩
    · rw [hvms]
      exact O.slots
    · rw [hvm j]
      exact O.mine j fun h => hj ((hused j).mpr h)
    · exact O.used j hlo hhi ((hused j).mp h)
    · rw [hvms]
      exact O.nvcpu_le
  · rw [hvm i]
    exact hlive i fun h => hi ((hused i).mpr h)

/-- What is true once a machine was made. -/
theorem Slots.guested {cfg : VmConfig} (S : Slots start s) {live : List ℕ} {u : ℕ}
    (hu : Used s u) (hlive : ∀ i, (s.vcpus i).state ≠ .unused → (s.vcpus i).vm ∈ live)
    (G : Guested start live u cfg s vm s') : Slots start s' := by
  obtain ⟨hne, hnew, H', R, hn, _⟩ := G
  have hu' := R.used hu (by decide)
  -- the machines made before are at other addresses
  have hold : ∀ i, ¬ (u ≤ i.val ∧ i.val < u + cfg.slots) → (s'.vcpus i).state ≠ .unused →
      (s.vcpus i).state ≠ .unused ∧ (s.vcpus i).vm ≠ vm := by
    intro i hi hused
    rw [R.other_vcpus i hi] at hused
    exact ⟨hused, fun h => hnew (h ▸ hlive i hused)⟩
  refine ⟨⟨_, hu'⟩, fun i hi => ?_, vm :: live, H', fun i hi => ?_⟩
  · by_cases hin : u ≤ i.val ∧ i.val < u + cfg.slots
    · refine ⟨u, cfg.slots, ?_⟩
      rw [R.vm_eq i hin.1 hin.2]
      refine ⟨hne, R.slots, R.fits, fun j hj => ⟨fun h => ?_, fun h => R.vm_eq j h.1 h.2⟩,
        fun j hlo hhi h => ?_, ?_⟩
      · by_contra hout
        obtain ⟨_, hvm⟩ := hold j hout hj
        rw [R.other_vcpus j hout] at h
        exact hvm h
      · have := (hu' j).mp h
        omega
      · rw [hn, VmConfig.slots]
        omega
    · obtain ⟨hused, hvm⟩ := hold i hin hi
      obtain ⟨base, n, O⟩ := S.owner i hused
      refine ⟨base, n, ?_⟩
      rw [R.other_vcpus i hin]
      have hvms := R.other_vms _ hvm
      have hin' := (O.mine i hused).mp rfl
      have hlt : ∀ j : Fin ncpu, base ≤ j.val → j.val < base + n → j.val < u := by
        intro j hlo hhi
        by_contra hle
        exact O.used j hlo hhi ((hu j).mpr (not_lt.mp hle))
      have hsame : ∀ j : Fin ncpu, base ≤ j.val → j.val < base + n → s'.vcpus j = s.vcpus j := by
        intro j hlo hhi
        have := hlt j hlo hhi
        exact R.other_vcpus j (by omega)
      refine ⟨O.ne_zero, ?_, O.fits, fun j hj => ?_, fun j hlo hhi => ?_, ?_⟩
      · rw [hvms]
        exact O.slots
      · by_cases hjin : u ≤ j.val ∧ j.val < u + cfg.slots
        · rw [R.vm_eq j hjin.1 hjin.2]
          refine ⟨fun h => absurd h.symm hvm, fun h => ?_⟩
          have := hlt j h.1 h.2
          omega
        · rw [R.other_vcpus j hjin]
          exact O.mine j (hold j hjin hj).1
      · rw [hsame j hlo hhi]
        exact O.used j hlo hhi
      · rw [hvms]
        exact O.nvcpu_le
  · by_cases hin : u ≤ i.val ∧ i.val < u + cfg.slots
    · rw [R.vm_eq i hin.1 hin.2]
      exact List.mem_cons_self
    · rw [R.other_vcpus i hin]
      exact List.mem_cons_of_mem _ (hlive i (hold i hin hi).1)

/-- **Making a machine** keeps the order. -/
theorem createGuestVm_ends {P : Platform} {cfg : VmConfig} (S : Slots start s) :
    wp (createGuestVm P cfg) (fun _ s' => Slots start s' ∧ ∃ vm base live, Used s base ∧
      (∀ i, (s.vcpus i).state ≠ .unused → (s.vcpus i).vm ∈ live) ∧
      Guested start live base cfg s vm s') (fun _ _ => True) s := by
  obtain ⟨u, hu⟩ := S.used
  obtain ⟨live, H, hlive⟩ := S.heap
  rw [createGuestVm, wp_bind]
  refine wp_mono (buildGuestVm_ends hu H) ?_ fun _ _ _ => trivial
  intro vm s' G
  exact ⟨S.guested hu hlive G, vm, u, live, hu, hlive, G⟩

end slots

end Xhyper
