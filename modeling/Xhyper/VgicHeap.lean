import Xhyper.HypRun
import Xhyper.VgicRecords

/-!
# The heap blocks of the interrupt controllers

Each virtual CPU and each machine has a block of the heap for its interrupts.  The blocks were
all taken by `xmalloc` and never given back, so they share no byte; and a block is as long as the
class it was cut from, which for a virtual CPU's is 256 bytes.  The records that the code looks
for behind the end of the array of private interrupts are among these.

## Main definitions

* `HeapRooms` — blocks of the heap, each with the size that was asked for.
* `VgicRooms` — the blocks of the virtual CPUs in use.
* `VgicApart` — a state between two steps, `HypRun.vgicApart` that every run keeps it.
-/

namespace Xhyper

open Memory Prog

/-! ## Blocks and their sizes -/

/-- The blocks `rooms` of the heap are in use, with at least the sizes given. -/
def HeapRooms (start : ℕ) (s : Hyp) (rooms : List (ℕ × ℕ)) : Prop :=
  (rooms.map Prod.fst).Nodup ∧ ∃ live, Unfreed start (Hyp.heapPart.get s) live ∧
    ∀ p ∈ rooms, p.1 ∈ live ∧ ∃ c, Carved s.sysBlk c p.1 ∧ p.2 ≤ 2 ^ c.val

section rooms
variable {start : ℕ} {s s' : Hyp} {rooms rooms' : List (ℕ × ℕ)}

theorem HeapRooms.congr (H : HeapRooms start s rooms) (hpool : s'.sysBlk = s.sysBlk) :
    HeapRooms start s' rooms := by
  obtain ⟨hnd, live, U, hrooms⟩ := H
  refine ⟨hnd, live, U.congr hpool, ?_⟩
  rw [hpool]
  exact hrooms

theorem HeapRooms.ne_zero (H : HeapRooms start s rooms) {b n : ℕ} (hb : (b, n) ∈ rooms) :
    b ≠ 0 := by
  obtain ⟨_, live, U, hrooms⟩ := H
  exact U.ne_zero (hrooms _ hb).1

/-- A block has one size. -/
theorem HeapRooms.size_eq (H : HeapRooms start s rooms) {b n n' : ℕ} (hb : (b, n) ∈ rooms)
    (hb' : (b, n') ∈ rooms) : n = n' := by
  have heq := List.inj_on_of_nodup_map H.1 hb hb' rfl
  exact (Prod.mk.inj heq).2

/-- Different blocks share no byte, not even behind the sizes asked for. -/
theorem HeapRooms.disjoint (H : HeapRooms start s rooms) {b b' n n' c c' : ℕ}
    (hb : (b, n) ∈ rooms) (hb' : (b', n') ∈ rooms) (hne : b ≠ b') (hc : 2 ^ c < 2 * n)
    (hc' : 2 ^ c' < 2 * n') : Disjoint (block b (2 ^ c)) (block b' (2 ^ c')) := by
  obtain ⟨_, live, U, hrooms⟩ := H
  obtain ⟨_, d, hd, hn⟩ := hrooms _ hb
  obtain ⟨_, d', hd', hn'⟩ := hrooms _ hb'
  -- a power of two below twice the size is not larger than the class
  have hle : ∀ {c n : ℕ} {d : Fin blkSliceBit}, 2 ^ c < 2 * n → n ≤ 2 ^ d.val →
      2 ^ c ≤ 2 ^ d.val := by
    intro c n d h h'
    have hlt : 2 ^ c < 2 ^ (d.val + 1) := by
      rw [Nat.pow_succ]
      omega
    have hcd := (Nat.pow_lt_pow_iff_right (by norm_num)).mp hlt
    exact Nat.pow_le_pow_right (by norm_num) (Nat.lt_succ_iff.mp hcd)
  have h := hle hc hn
  have h' := hle hc' hn'
  exact (hd.disjoint hd' hne).mono (block_subset le_rfl (Nat.add_le_add_left h b))
    (block_subset le_rfl (Nat.add_le_add_left h' b'))

/-- A block from the heap. -/
theorem wp_xmalloc_rooms {Q : Option ℕ → Hyp → Prop} {size : ℕ} (h32 : size < 2 ^ 32)
    (H : HeapRooms start s rooms)
    (hsome : ∀ b s', SameRecords s s' → HeapRooms start s' ((b, size) :: rooms) → Q (some b) s')
    (hnull : ∀ s', Q none s') :
    wp (zoom Hyp.heapPart (xmalloc size)) Q (fun _ _ => True) s := by
  obtain ⟨hnd, live, U, hrooms⟩ := H
  rw [wp_zoom]
  have hspec : wp (xmalloc size) _ (fun _ _ => True) (Hyp.heapPart.get s) :=
    wp_mono (xmalloc_spec U h32) (fun _ _ hQ => hQ) fun _ _ _ => trivial
  refine wp_mono (wp_and hspec (xmalloc_noFree U.noFree)) ?_ fun _ _ _ => trivial
  rintro r h' ⟨⟨_, hr⟩, hno⟩
  rcases hr with ⟨rfl, _⟩ | ⟨b, rfl, _, G⟩
  · exact hnull _
  · obtain ⟨free', B⟩ := G.blocks
    obtain ⟨c, hc, hsize, _⟩ := G.carved
    have hnew : b ∉ live := (List.nodup_cons.mp B.live_nodup).1
    refine hsome b _ ⟨rfl, rfl⟩ ⟨?_, b :: live, (B.unfreed hno).congr rfl, ?_⟩
    · refine List.nodup_cons.mpr ⟨fun hmem => ?_, hnd⟩
      obtain ⟨p, hp, rfl⟩ := List.mem_map.mp hmem
      exact hnew (hrooms p hp).1
    · rintro p hp
      rcases List.mem_cons.mp hp with rfl | hp
      · exact ⟨List.mem_cons_self, c, hc, hsize⟩
      · obtain ⟨hlive, d, hd, hn⟩ := hrooms p hp
        exact ⟨List.mem_cons_of_mem b hlive, d, G.keep d p.1 hd, hn⟩

/-! ## Steps that take blocks -/

/-- Further blocks were taken, and the virtual CPUs are as before. -/
def Grows (start : ℕ) (rooms : List (ℕ × ℕ)) (s s' : Hyp) : Prop :=
  s'.vcpus = s.vcpus ∧ ∃ rooms', rooms ⊆ rooms' ∧ HeapRooms start s' rooms'

theorem vmmioHandlerRegister_rooms {vm ipa size vmmioRead vmmioWrite : ℕ}
    (H : HeapRooms start s rooms) :
    wp (vmmioHandlerRegister vm ipa size vmmioRead vmmioWrite)
      (fun _ s' => Grows start rooms s s') (fun _ _ => True) s := by
  simp only [vmmioHandlerRegister, wp_ite, wp_pure, wp_bind, wp_get]
  refine ⟨fun _ => ⟨rfl, rooms, List.Subset.refl _, H⟩, fun _ => spinLock_ends fun k => ?_⟩
  have Hlocked : HeapRooms start ((Hyp.vmLockPart vm).set k s) rooms := H.congr rfl
  refine wp_xmalloc_rooms (by decide) Hlocked ?_ fun _ => trivial
  intro b t ht Ht
  simp only [wp_bind, wp_get, wp_storeLe, wp_modifyVm]
  refine spinUnlock_ends fun k' => ?_
  exact ⟨ht.vcpus, _, List.subset_cons_self _ rooms, Ht.congr rfl⟩

theorem createMmioTrap_rooms {vm ipa size vmmioRead vmmioWrite : ℕ}
    (H : HeapRooms start s rooms) :
    wp (createMmioTrap vm ipa size vmmioRead vmmioWrite)
      (fun _ s' => Grows start rooms s s') (fun _ _ => True) s := by
  by_cases hvm : vm = 0
  · simp only [createMmioTrap, derefVm, hvm, if_true, wp_bind, wp_get, wp_throw]
  rw [createMmioTrap, wp_bind, wp_derefVm hvm, wp_bind, wp_zoom, Hyp.get_ramPart,
    wp_pageWalk_false]
  cases pteAt s.ram.mem (s.vms vm).vttbr ipa with
  | none =>
      simp only [wp_pure, wp_bind]
      exact vmmioHandlerRegister_rooms H
  | some pte =>
      simp only [wp_bind, wp_pure]
      refine wp_ramPart_ends fun _ r _ => ?_
      exact vmmioHandlerRegister_rooms (H.congr rfl)

/-- **A machine's block.** -/
theorem createVgicDist_rooms {P : Platform} {vm : ℕ} (H : HeapRooms start s rooms) :
    wp (createVgicDist P vm) (fun b s' => s'.vcpus = s.vcpus ∧ ∃ rooms', rooms ⊆ rooms' ∧
      HeapRooms start s' rooms' ∧ (b, sizeofVgicDist) ∈ rooms') (fun _ _ => True) s := by
  simp only [createVgicDist, wp_bind]
  refine wp_xmalloc_rooms (by decide) H ?_ fun _ => trivial
  intro b t ht Ht
  simp only [wp_bind, wp_get, wp_storeLe]
  have hsize : ((t.gicMaxSpi - 31) % 2 ^ 32).toNat < 2 ^ 32 := by omega
  refine wp_xmalloc_rooms hsize (Ht.congr rfl) ?_ fun _ => trivial
  intro b' u hu Hu
  simp only [wp_bind, wp_storeLe]
  refine wp_mono (createMmioTrap_rooms (Hu.congr rfl)) ?_ fun _ _ _ => trivial
  rintro _ u₁ ⟨hv₁, rooms₁, hsub₁, H₁⟩
  refine wp_mono (createMmioTrap_rooms H₁) ?_ fun _ _ _ => trivial
  rintro _ u₂ ⟨hv₂, rooms₂, hsub₂, H₂⟩
  have hvcpus : u₁.vcpus = s.vcpus := hv₁.trans (hu.vcpus.trans ht.vcpus)
  have hin : (b, sizeofVgicDist) ∈ rooms₁ := hsub₁ (List.mem_cons_of_mem _ List.mem_cons_self)
  refine ⟨hv₂.trans hvcpus, rooms₂, fun p hp => hsub₂ (hsub₁ ?_), H₂, hsub₂ hin⟩
  exact List.mem_cons_of_mem _ (List.mem_cons_of_mem _ hp)

/-- A virtual CPU's block. -/
theorem createVgicCpu_rooms {vcpuid : ℕ} (H : HeapRooms start s rooms) :
    wp (createVgicCpu vcpuid) (fun b s' => s'.vcpus = s.vcpus ∧
      HeapRooms start s' ((b, sizeofVgicCpu) :: rooms)) (fun _ _ => True) s := by
  simp only [createVgicCpu, wp_bind]
  refine wp_xmalloc_rooms (by decide) H ?_ fun _ => trivial
  intro b t ht Ht
  simp only [wp_bind, wp_storeLe, wp_pure]
  have hloop : ∀ (addr : ℕ → ℕ) (Q : ℕ → Hyp → Prop) (u : Hyp), u.vcpus = s.vcpus →
      u.sysBlk = t.sysBlk → (∀ k u', u'.vcpus = s.vcpus → u'.sysBlk = t.sysBlk → Q k u') →
      wp (forRange 1 0 gicNsgi fun i => initIrqConfig (1 <<< vcpuid) (addr i)) Q
        (fun _ _ => True) u := by
    intro addr Q u hu hpool hQ
    refine wp_forRange (fun _ u' => u'.vcpus = s.vcpus ∧ u'.sysBlk = t.sysBlk) (by decide) ?_
      ⟨hu, hpool⟩ fun k u' _ h => hQ _ u' h.1 h.2
    intro k u' _ h
    simp only [initIrqConfig, wp_bind, wp_storeLe]
    exact h
  refine hloop _ _ _ ht.vcpus rfl fun _ u hu hpool => ?_
  exact hloop _ _ _ hu hpool fun _ u' hu' hpool' => ⟨hu', Ht.congr hpool'⟩

end rooms

/-! ## The virtual CPUs' blocks -/

/-- The first `u` virtual CPUs are in use, and each has a block of its own. -/
structure VgicRooms (start u : ℕ) (rooms : List (ℕ × ℕ)) (s : Hyp) : Prop where
  heap : HeapRooms start s rooms
  used : Used s u
  cpu : ∀ i : Fin ncpu, i.val < u → ((s.vcpus i).vgicCpu, sizeofVgicCpu) ∈ rooms
  inj : ∀ i j : Fin ncpu, i.val < u → j.val < u →
    (s.vcpus i).vgicCpu = (s.vcpus j).vgicCpu → i = j

section cpus
variable {start u : ℕ} {s s' : Hyp} {rooms : List (ℕ × ℕ)}

/-- Blocks may be taken for other things. -/
theorem VgicRooms.grow (R : VgicRooms start u rooms s) (hvcpus : s'.vcpus = s.vcpus)
    {rooms' : List (ℕ × ℕ)} (hsub : rooms ⊆ rooms') (H : HeapRooms start s' rooms') :
    VgicRooms start u rooms' s' := by
  refine ⟨H, fun i => ?_, fun i hi => ?_, fun i j hi hj h => ?_⟩
  · rw [hvcpus]
    exact R.used i
  · rw [hvcpus]
    exact hsub (R.cpu i hi)
  · rw [hvcpus] at h
    exact R.inj i j hi hj h

theorem VgicRooms.congr (R : VgicRooms start u rooms s) (hvcpus : s'.vcpus = s.vcpus)
    (hpool : s'.sysBlk = s.sysBlk) : VgicRooms start u rooms s' :=
  R.grow hvcpus (List.Subset.refl rooms) (R.heap.congr hpool)

/-- Other fields of the virtual CPUs may change. -/
theorem VgicRooms.fields (R : VgicRooms start u rooms s) (hpool : s'.sysBlk = s.sysBlk)
    (hused : Used s' u) (hcpu : ∀ i, (s'.vcpus i).vgicCpu = (s.vcpus i).vgicCpu) :
    VgicRooms start u rooms s' := by
  refine ⟨R.heap.congr hpool, hused, fun i hi => ?_, fun i j hi hj h => ?_⟩
  · rw [hcpu]
    exact R.cpu i hi
  · rw [hcpu, hcpu] at h
    exact R.inj i j hi hj h

/-- A virtual CPU behind those in use gets a block. -/
theorem VgicRooms.push (R : VgicRooms start u rooms s) {b : ℕ} {i : Fin ncpu} (hi : i.val = u)
    (H : HeapRooms start s' ((b, sizeofVgicCpu) :: rooms)) (hb : (s'.vcpus i).vgicCpu = b)
    (hstate : (s'.vcpus i).state = .alloced) (hother : ∀ j, j ≠ i → s'.vcpus j = s.vcpus j) :
    VgicRooms start (u + 1) ((b, sizeofVgicCpu) :: rooms) s' := by
  have hlt : ∀ j : Fin ncpu, j.val < u + 1 → j ≠ i → j.val < u := by
    intro j hj hji
    have hne : j.val ≠ i.val := fun h => hji (Fin.ext h)
    omega
  have hnew : ∀ j : Fin ncpu, j.val < u → (s.vcpus j).vgicCpu ≠ b := by
    intro j hj heq
    exact (List.nodup_cons.mp H.1).1 (List.mem_map.mpr ⟨_, heq ▸ R.cpu j hj, rfl⟩)
  refine ⟨H, fun j => ?_, fun j hj => ?_, fun j k hj hk h => ?_⟩
  · by_cases hji : j = i
    · subst hji
      rw [hstate]
      exact ⟨nofun, fun h => by omega⟩
    · rw [hother j hji, R.used j]
      have hne : j.val ≠ i.val := fun h => hji (Fin.ext h)
      omega
  · by_cases hji : j = i
    · rw [hji, hb]
      exact List.mem_cons_self
    · rw [hother j hji]
      exact List.mem_cons_of_mem _ (R.cpu j (hlt j hj hji))
  · by_cases hji : j = i
    · by_cases hki : k = i
      · rw [hji, hki]
      · rw [hji, hb, hother k hki] at h
        exact absurd h.symm (hnew k (hlt k hk hki))
    · by_cases hki : k = i
      · rw [hki, hb, hother j hji] at h
        exact absurd h (hnew j (hlt j hj hji))
      · rw [hother j hji, hother k hki] at h
        exact R.inj j k (hlt j hj hji) (hlt k hk hki) h

/-- **`create_vcpu`** gives the next virtual CPU a new block. -/
theorem createVcpu_rooms {vm vcpuid : ℕ} {entry : BitVec 64} (R : VgicRooms start u rooms s) :
    wp (createVcpu vm vcpuid entry) (fun _ s' => ∃ rooms', rooms ⊆ rooms' ∧
      VgicRooms start (u + 1) rooms' s') (fun _ _ => True) s := by
  rw [createVcpu, wp_bind]
  refine wp_mono (vcpuAlloc_ends R.used) ?_ fun _ _ _ => trivial
  rintro r t ⟨i, rfl, hi, hvms, hpool, hram, hvcpus⟩
  simp only [wp_bind, wp_get]
  rw [wp_modifyVcpu]
  have hfirst : Made s i vm (t.setVcpu i { t.vcpus i with vm := vm, cpuid := vcpuid }) := by
    refine ⟨hvms, ?_, ?_, fun j hj => ?_⟩
    · simp only [Hyp.setVcpu, Function.update_self]
    · simp only [Hyp.setVcpu, Function.update_self, hvcpus]
    · simp only [Hyp.setVcpu, hvcpus, Function.update_of_ne hj]
  refine hfirst.wp_modify (fun _ => rfl) (fun _ => rfl) fun t₁ ht₁ hp₁ _ => ?_
  have hrest : ∀ t₂, Made s i vm t₂ → t₂.sysBlk = s.sysBlk →
      wp (createVgicCpu vcpuid) (fun b t₃ => wp (modifyVcpu i fun v => { v with vgicCpu := b })
        (fun _ t₄ => wp (modifyVcpu i fun v => { v with
            gicContext := { v.gicContext with vmcr := (t₄.cores t₄.ram.core).ichVmcrEl2 } })
          (fun _ s' => ∃ rooms', rooms ⊆ rooms' ∧ VgicRooms start (u + 1) rooms' s')
          (fun _ _ => True) t₄)
        (fun _ _ => True) t₃) (fun _ _ => True) t₂ := by
    intro t₂ ht₂ hp₂
    refine wp_mono (createVgicCpu_rooms (R.heap.congr hp₂)) ?_ fun _ _ _ => trivial
    rintro b t₃ ⟨hv₃, H₃⟩
    simp only [wp_modifyVcpu]
    refine ⟨_, List.subset_cons_self _ rooms, R.push hi (H₃.congr rfl) ?_ ?_ fun j hj => ?_⟩
    · simp only [Hyp.setVcpu, Function.update_self]
    · simp only [Hyp.setVcpu, Function.update_self, hv₃, ht₂.state_eq]
    · simp only [Hyp.setVcpu, Function.update_of_ne hj, hv₃, ht₂.others j hj]
  by_cases h0 : vcpuid = 0
  · rw [if_pos h0, wp_bind]
    by_cases hvm : vm = 0
    · simp only [derefVm, hvm, if_true, wp_bind, wp_get, wp_throw]
    · rw [wp_derefVm hvm]
      simp only [wp_bind, wp_get, wp_pure]
      refine ht₁.wp_modify (fun _ => rfl) (fun _ => rfl) fun t₂ ht₂ hp₂ _ => ?_
      exact hrest t₂ ht₂ (hp₂.trans (hp₁.trans hpool))
  · rw [if_neg h0]
    simp only [wp_bind, wp_get, wp_pure]
    exact hrest t₁ ht₁ (hp₁.trans hpool)

theorem addVcpu_rooms {vm n : ℕ} {entry : BitVec 64} (R : VgicRooms start u rooms s) :
    wp (addVcpu vm n entry) (fun _ s' => ∃ rooms', rooms ⊆ rooms' ∧
      VgicRooms start (u + 1) rooms' s') (fun _ _ => True) s := by
  rw [addVcpu, wp_bind]
  refine wp_mono (createVcpu_rooms R) ?_ fun _ _ _ => trivial
  rintro i t ⟨rooms', hsub, R'⟩
  by_cases hn : n < ncpu
  · rw [dif_pos hn, wp_modifyVm]
    exact ⟨rooms', hsub, R'.congr rfl rfl⟩
  · rw [dif_neg hn]
    trivial

theorem vmInit_rooms {vm : ℕ} {image : Guest} {cfg : VmConfig} (R : VgicRooms start u rooms s) :
    wp (vmInit vm image cfg) (fun _ s' => ∃ rooms', rooms ⊆ rooms' ∧
      VgicRooms start (u + cfg.slots) rooms' s') (fun _ _ => True) s := by
  rw [vmInit, wp_bind, wp_modifyVm, wp_bind, setVmName]
  by_cases hname : image.guestName.length < vmNameLen
  swap
  · rw [if_neg hname]
    trivial
  rw [if_pos hname]
  simp only [wp_bind, wp_modifyVm, wp_pure]
  refine wp_mono (addVcpu_rooms (R.congr rfl rfl)) ?_ fun _ _ _ => trivial
  intro _ t hfirst
  refine wp_forRange (fun k s' => ∃ rooms', rooms ⊆ rooms' ∧
    VgicRooms start (u + 1 + k) rooms' s') (by decide) ?_ hfirst ?_
  · rintro k t' _ ⟨rooms', hsub, R'⟩
    refine wp_mono (addVcpu_rooms R') ?_ fun _ _ _ => trivial
    rintro _ t'' ⟨rooms'', hsub', R''⟩
    exact ⟨rooms'', List.Subset.trans hsub hsub', R''⟩
  · intro k t' hk h
    have hslots : u + cfg.slots = u + 1 + k := by
      rw [VmConfig.slots]
      omega
    rw [hslots]
    exact h

/-- **Making a machine** takes a block for each of its virtual CPUs and one for itself. -/
theorem buildGuestVm_rooms {P : Platform} {cfg : VmConfig} (R : VgicRooms start u rooms s) :
    wp (buildGuestVm P cfg) (fun vm s' => ∃ rooms', rooms ⊆ rooms' ∧
      (Used s' (u + cfg.slots) → VgicRooms start (u + cfg.slots) rooms' s') ∧
      ((s'.vms vm).vgicDist, sizeofVgicDist) ∈ rooms') (fun _ _ => True) s := by
  rw [buildGuestVm]
  cases cfg.guestImage with
  | none => trivial
  | some image =>
      by_cases hcpu : cfg.ncpu > ncpu
      · simp only [hcpu, if_true]
        trivial
      simp only [hcpu, if_false, wp_bind]
      refine wp_xmalloc_rooms (by decide) R.heap ?_ fun _ => trivial
      intro vm t ht Ht
      have R₁ := R.grow ht.vcpus (List.subset_cons_self _ rooms) Ht
      rw [wp_bind]
      refine wp_mono (vmInit_rooms R₁) ?_ fun _ _ _ => trivial
      rintro _ t₂ ⟨rooms₂, hsub₂, R₂⟩
      rw [wp_bind]
      refine wp_ramPart_ends fun page r _ => ?_
      cases page with
      | none => trivial
      | some vttbr =>
          simp only [wp_bind, wp_modifyVm]
          refine wp_ramPart_ends fun _ r₁ _ => wp_ramPart_ends fun _ r₂ _ => ?_
          refine wp_mono (createVgicDist_rooms (R₂.heap.congr rfl)) ?_ fun _ _ _ => trivial
          rintro vgicDist t₃ ⟨hv₃, rooms₃, hsub₃, H₃, hdist⟩
          have R₃ : VgicRooms start (u + cfg.slots) rooms₃ t₃ := R₂.grow hv₃ hsub₃ H₃
          have hsub : rooms ⊆ rooms₃ := fun p hp =>
            hsub₃ (hsub₂ (List.mem_cons_of_mem _ hp))
          simp only [readyFirst, wp_bind, wp_get]
          generalize hslot : ((t₃.setVm vm _).vms vm).vcpus 0 = slot
          cases slot with
          | none => trivial
          | some i =>
              simp only [wp_modifyVcpu, wp_pure]
              refine ⟨rooms₃, hsub, fun hused => R₃.fields rfl hused fun j => ?_, ?_⟩
              · by_cases hji : j = i
                · subst hji
                  simp only [Hyp.setVcpu, Function.update_self, Hyp.setVm]
                · simp only [Hyp.setVcpu, Function.update_of_ne hji, Hyp.setVm]
              · simpa only [Hyp.setVcpu, Hyp.setVm, Function.update_self] using hdist

end cpus

/-! ## Runs -/

/-- **The interrupts' blocks between two steps**: each virtual CPU in use and each machine has its
own. -/
def VgicApart (start : ℕ) (s : Hyp) : Prop := ∃ u rooms, VgicRooms start u rooms s ∧
  ∀ i : Fin ncpu, i.val < u → ((s.vms (s.vcpus i).vm).vgicDist, sizeofVgicDist) ∈ rooms

section runs
variable {P : Platform} {himageEnd : ℕ} {start : ℕ} {s s' : Hyp} {core : Fin ncpu}

theorem VgicApart.fields (A : VgicApart start s) (hpool : s'.sysBlk = s.sysBlk)
    (hvms : s'.vms = s.vms) (hvm : ∀ i, (s'.vcpus i).vm = (s.vcpus i).vm)
    (hcpu : ∀ i, (s'.vcpus i).vgicCpu = (s.vcpus i).vgicCpu)
    (hused : ∀ i, (s'.vcpus i).state = .unused ↔ (s.vcpus i).state = .unused) :
    VgicApart start s' := by
  obtain ⟨u, rooms, R, hdist⟩ := A
  refine ⟨u, rooms, R.fields hpool (fun i => (hused i).trans (R.used i)) hcpu, fun i hi => ?_⟩
  rw [hvms, hvm]
  exact hdist i hi

/-- **Making a machine** keeps the blocks apart. -/
theorem VgicApart.create {cfg : VmConfig} (A : VgicApart start s) (S : Slots start s)
    (hrun : createGuestVm P cfg s = .ok () s') : VgicApart start s' := by
  obtain ⟨u, rooms, R, hdist⟩ := A
  obtain ⟨live, H, hlive⟩ := S.heap
  have hwp : wp (createGuestVm P cfg) (fun _ s' => VgicApart start s') (fun _ _ => True) s := by
    rw [createGuestVm, wp_bind]
    refine wp_mono (wp_and (buildGuestVm_ends R.used H) (buildGuestVm_rooms R)) ?_
      fun _ _ _ => trivial
    rintro vm t ⟨G, rooms', hsub, hrooms, hnew⟩
    have hused := G.run.used R.used (by decide)
    refine ⟨_, rooms', hrooms hused, fun i hi => ?_⟩
    by_cases hin : u ≤ i.val
    · rw [G.run.vm_eq i hin hi]
      exact hnew
    · have hlt := not_le.mp hin
      have hold : (s.vcpus i).state ≠ .unused := fun h => hin ((R.used i).mp h)
      have hvm : (s.vcpus i).vm ≠ vm := fun h => G.new (h ▸ hlive i hold)
      rw [G.run.other_vcpus i fun h => hin h.1, G.run.other_vms _ hvm]
      exact hsub (hdist i hlt)
  have hend := wp_partial.mp hwp _ _ hrun
  exact hend

/-- Turning a virtual CPU on, which is in use, keeps the blocks apart. -/
theorem VgicApart.cpuOn {i : Fin ncpu} {targetCpu entryAddr : BitVec 64} (A : VgicApart start s)
    (hused : (s.vcpus i).state ≠ .unused) :
    VgicApart start (s.cpuOn P i targetCpu entryAddr) := by
  have hsame : ∀ j, ((s.cpuOn P i targetCpu entryAddr).vcpus j).vm = (s.vcpus j).vm ∧
      ((s.cpuOn P i targetCpu entryAddr).vcpus j).vgicCpu = (s.vcpus j).vgicCpu ∧
      (((s.cpuOn P i targetCpu entryAddr).vcpus j).state = .unused ↔
        (s.vcpus j).state = .unused) := by
    intro j
    rw [cpuOn_vcpus]
    by_cases hj : j = i
    · subst hj
      rw [Function.update_self]
      exact ⟨rfl, rfl, fun h => (by cases h), fun h => absurd h hused⟩
    · rw [Function.update_of_ne hj]
      exact ⟨rfl, rfl, Iff.rfl⟩
  exact A.fields rfl rfl (fun j => (hsame j).1) (fun j => (hsame j).2.1) fun j => (hsame j).2.2

/-- **One step** keeps the blocks apart. -/
theorem HypStep.vgicApart {ev : HypEvent} (h : HypStep P core ev s s') (S : Slots start s)
    (A : VgicApart start s) : VgicApart start s' := by
  have Ac : VgicApart start (s.onCore core) := A.fields rfl rfl (fun _ => rfl) (fun _ => rfl)
    fun _ => Iff.rfl
  obtain ⟨_, hs⟩ := h.slots S
  cases h with
  | create hrun => exact Ac.create (S.onCore core) hrun
  | start _ =>
      cases hs with
      | start hs =>
          have hsame : ∀ j, (s'.vcpus j).vm = (s.vcpus j).vm ∧
              (s'.vcpus j).vgicCpu = (s.vcpus j).vgicCpu ∧
              ((s'.vcpus j).state = .unused ↔ (s.vcpus j).state = .unused) := by
            intro j
            rw [hs.vcpus]
            by_cases hj : j = core
            · subst hj
              have hready : (s.vcpus j).state = .ready := hs.ready
              rw [Function.update_self, hready]
              exact ⟨rfl, rfl, nofun, nofun⟩
            · rw [Function.update_of_ne hj]
              exact ⟨rfl, rfl, Iff.rfl⟩
          exact Ac.fields hs.sysBlk hs.vms (fun j => (hsame j).1) (fun j => (hsame j).2.1)
            fun j => (hsame j).2.2
  | cpuOn _ _ _ =>
      cases hs with
      | cpuOn _ hused => exact Ac.cpuOn hused

/-- After boot there is no block. -/
theorem Booted.vgicApart (himg : IsImage himageEnd) (h : Booted himageEnd s) :
    VgicApart (poolStart himageEnd) s := by
  obtain ⟨S, hu⟩ := h.slots himg
  obtain ⟨live, ⟨live', _, U⟩, _⟩ := S.heap
  have hnone : ∀ {P : Prop} (i : Fin ncpu), i.val < 0 → P := fun i h => absurd h (Nat.not_lt_zero _)
  refine ⟨0, [], ⟨⟨List.nodup_nil, live', U, fun p hp => absurd hp List.not_mem_nil⟩, hu,
    fun i => hnone i, fun i j hi => hnone i hi⟩, fun i => hnone i⟩

/-- **Every state of a run** has the blocks apart. -/
theorem HypRun.vgicApart {trace : List Transition} (himg : IsImage himageEnd)
    (hrun : HypRun P himageEnd trace s) : VgicApart (poolStart himageEnd) s := by
  induction hrun with
  | boot hboot => exact hboot.vgicApart himg
  | step hprev hstep ih => exact hstep.vgicApart (hprev.slots himg).1 ih

end runs

end Xhyper
