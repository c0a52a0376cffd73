import Xhyper.PageBudget
import Xhyper.VcpuNumbers

/-!
# What a new machine starts with

`create_guest_vm` gives the first virtual CPU of a machine the entry address and, in its first
register, the address of the device tree.  The machine's tables show it the images, laid out as the
configuration says, with zeros behind them, and the serial port; all of it may be read and written.

## Main definitions

* `Hyp.regsOf` — the registers of a virtual CPU.
* `createGuestVm_entry` — those of a new machine's first virtual CPU.
* `Stocked` — what the tables of a machine show.
* `BuildsTable.stocked` — what those of a new one show.
-/

namespace Xhyper

open Memory Prog

/-! ## Registers -/

/-- The registers of a virtual CPU. -/
def Hyp.regsOf (i : Fin ncpu) (s : Hyp) : Regs := (s.vcpus i).regs

section registers
variable {P : Platform} {cfg : VmConfig} {vm u n : ℕ} {s t : Hyp} {i j : Fin ncpu}

theorem Hyp.aside_regsOf (i : Fin ncpu) : Hyp.Aside (Hyp.regsOf i) :=
  ⟨fun _ _ => rfl, fun _ _ => rfl, fun _ _ _ _ => rfl⟩

theorem keeps_regsOf_modifyVm (i : Fin ncpu) (vm : ℕ) (g : Vm → Vm) :
    Keeps (Hyp.regsOf i) (modifyVm vm g) := .modify fun _ => rfl

theorem keeps_regsOf_modifyVcpu {f : Vcpu → Vcpu} (h : i ≠ j ∨ ∀ v, (f v).regs = v.regs) :
    Keeps (Hyp.regsOf i) (modifyVcpu j f) := by
  refine .modify fun s => ?_
  by_cases hij : i = j
  · subst hij
    simp only [Hyp.regsOf, Hyp.setVcpu, Function.update_self]
    exact h.resolve_left (fun hne => hne rfl) _
  · simp only [Hyp.regsOf, Hyp.setVcpu, Function.update_of_ne hij]

/-- What `create_vcpu` does last leaves the registers alone. -/
theorem keeps_regsOf_createVgicCpu (i j : Fin ncpu) (vcpuid : ℕ) : Keeps (Hyp.regsOf i) (do
    let vgicCpu ← createVgicCpu vcpuid
    modifyVcpu j fun v => { v with vgicCpu := vgicCpu }
    let vmcr := ((← get).cores (← get).ram.core).ichVmcrEl2
    modifyVcpu j fun v => { v with gicContext := { v.gicContext with vmcr := vmcr } }
    pure j) := by
  refine ((Hyp.aside_regsOf i).keeps_createVgicCpu _).bind fun _ => .bind ?_ fun _ => ?_
  · exact keeps_regsOf_modifyVcpu (Or.inr fun _ => rfl)
  refine .bind .get fun _ => .bind .get fun _ => .bind ?_ fun _ => .pure _
  exact keeps_regsOf_modifyVcpu (Or.inr fun _ => rfl)

/-- Making another virtual CPU. -/
theorem keeps_regsOf_createVcpuAfter (h : i ≠ j) (entry : BitVec 64) :
    Keeps (Hyp.regsOf i) (createVcpuAfter vm n entry (some j)) := by
  have hmodify : ∀ f : Vcpu → Vcpu, Keeps (Hyp.regsOf i) (modifyVcpu j f) :=
    fun _ => keeps_regsOf_modifyVcpu (Or.inl h)
  refine (hmodify _).bind fun _ => .bind .get fun _ => .bind .get fun _ => ?_
  refine (hmodify _).bind fun _ => Keeps.ite ?_ (keeps_regsOf_createVgicCpu i j n)
  exact (Hyp.Aside.keeps_derefVm _ _).bind fun _ => (hmodify _).bind fun _ =>
    keeps_regsOf_createVgicCpu i j n

/-- The registers that a machine's first virtual CPU starts with. -/
structure Regs.Entry (r : Regs) (cfg : VmConfig) : Prop where
  elr : r.elr = BitVec.ofNat 64 cfg.entryAddr
  x0 : r.x 0 = BitVec.ofNat 64 cfg.dtbAddr
  spsr : r.spsr = spsrInit

/-- The first virtual CPU. -/
theorem createVcpuAfter_entry (hdtb : (t.vms vm).dtb = cfg.dtbAddr) :
    wp (createVcpuAfter vm 0 (cfg.entryOf 0) (some i)) (fun _ s' => (s'.regsOf i).Entry cfg)
      (fun _ _ => True) t := by
  rw [createVcpuAfter]
  dsimp only
  rw [wp_bind, wp_modifyVcpu, wp_bind, wp_get, wp_bind, wp_get, wp_bind, wp_modifyVcpu]
  rw [if_pos rfl, wp_bind]
  by_cases hvm : vm = 0
  · simp only [derefVm, hvm, if_true, wp_bind, wp_get, wp_throw]
  rw [wp_derefVm hvm, wp_bind, wp_modifyVcpu]
  refine wp_mono (keeps_regsOf_createVgicCpu i i 0 _) (fun _ s' h => ?_) fun _ _ _ => trivial
  rw [h]
  constructor
  case elr => simp [Hyp.regsOf, Hyp.setVcpu, VmConfig.entryOf]
  case x0 => simp [Hyp.regsOf, Hyp.setVcpu, hdtb]
  case spsr => simp [Hyp.regsOf, Hyp.setVcpu]

/-- Taking a virtual CPU leaves the registers of all alone. -/
theorem regsOf_alloced (hvcpus : s.vcpus = Function.update t.vcpus j
    { t.vcpus j with state := .alloced }) (i : Fin ncpu) : s.regsOf i = t.regsOf i := by
  rw [Hyp.regsOf, hvcpus]
  by_cases hij : i = j
  · subst hij
    rw [Function.update_self]
    rfl
  · rw [Function.update_of_ne hij]
    rfl

/-- The first virtual CPU of a machine. -/
theorem addVcpu_entry (hu : Used t i.val) (hdtb : (t.vms vm).dtb = cfg.dtbAddr) :
    wp (addVcpu vm 0 (cfg.entryOf 0)) (fun _ s' => (s'.regsOf i).Entry cfg) (fun _ _ => True) t := by
  rw [addVcpu_eq, wp_bind]
  refine wp_mono (vcpuAlloc_ends hu) ?_ fun _ _ _ => trivial
  rintro _ t₁ ⟨j, rfl, hj, hvms, _, _, _⟩
  obtain rfl : j = i := Fin.ext hj
  rw [createVcpuAt, wp_bind]
  refine wp_mono (createVcpuAfter_entry (hvms ▸ hdtb)) (fun _ s' h => ?_) fun _ _ _ => trivial
  exact h

/-- A later one. -/
theorem addVcpu_later {entry : BitVec 64} (hu : Used t u) (hi : i.val < u) :
    wp (addVcpu vm n entry) (fun _ s' => s'.regsOf i = t.regsOf i) (fun _ _ => True) t := by
  rw [addVcpu_eq, wp_bind]
  refine wp_mono (vcpuAlloc_ends hu) ?_ fun _ _ _ => trivial
  rintro _ t₁ ⟨j, rfl, hj, _, _, _, hvcpus⟩
  have hij : i ≠ j := fun h => by
    rw [h, hj] at hi
    exact lt_irrefl _ hi
  rw [createVcpuAt, wp_bind, ← regsOf_alloced hvcpus i]
  refine wp_mono (keeps_regsOf_createVcpuAfter hij entry t₁) (fun _ t₂ h => ?_) fun _ _ _ => trivial
  split
  · exact h
  · trivial

/-- Where the device tree is, is written before. -/
theorem createStart_dtb : wp (createStart cfg) (fun vm s' => (s'.vms vm).dtb = cfg.dtbAddr)
    (fun _ _ => True) s := by
  unfold createStart
  cases cfg.guestImage with
  | none => trivial
  | some image =>
      simp only [wp_ite, wp_abort, imp_true_iff, true_and, wp_bind, wp_zoom]
      intro _
      refine wp_mono ( wp_partial.mpr fun _ _ _ => trivial) (fun r h _ => ?_) fun _ _ _ => trivial
      cases r with
      | none => trivial
      | some vm =>
          simp only [wp_bind, wp_modifyVm, setVmName, wp_ite, wp_throw, imp_true_iff, and_true,
            wp_pure]
          intro _
          simp [Hyp.setVm]

theorem keeps_regsOf_createEnd (i : Fin ncpu) : Keeps (Hyp.regsOf i) (createEnd P cfg vm) := by
  have A := Hyp.aside_regsOf i
  refine (A.keeps_ram _).bind fun r => ?_
  cases r with
  | none => exact .throw _
  | some vttbr =>
      refine (keeps_regsOf_modifyVm _ _ _).bind fun _ => (A.keeps_ram _).bind fun _ => ?_
      refine (A.keeps_ram _).bind fun _ => (A.unlisted.keeps_createVgicDist _ _).bind fun _ => ?_
      refine (keeps_regsOf_modifyVm _ _ _).bind fun _ => .bind .get fun s => ?_
      split
      · exact .throw _
      · exact keeps_regsOf_modifyVcpu (Or.inr fun _ => rfl)

/-- **Making a machine** gives its first virtual CPU the entry point and the device tree. -/
theorem createGuestVm_entry (hu : Used s i.val) :
    wp (createGuestVm P cfg) (fun _ s' => (s'.regsOf i).Entry cfg) (fun _ _ => True) s := by
  rw [createGuestVm_eq, wp_bind]
  have hkeep := wp_mono (@keeps_vcpus_createStart cfg s) (fun _ _ h => h) fun _ _ _ => trivial
  refine wp_mono (wp_and hkeep createStart_dtb) ?_ fun _ _ _ => trivial
  rintro vm t ⟨ht, hdtb⟩
  have hnone : Renumbered s i.val 0 t := by
    refine ⟨fun j => ?_, fun j => ?_⟩
    · rw [ht]
      exact hu j
    · rw [if_neg (by omega), Hyp.mpidrs, ht]
      rfl
  rw [wp_bind]
  refine wp_mono (wp_and (addVcpu_numbers hnone) (addVcpu_entry hnone.used hdtb)) ?_
    fun _ _ _ => trivial
  rintro _ t₁ ⟨R₁, E₁⟩
  rw [wp_bind]
  refine wp_forRange (fun k t => Renumbered s i.val (k + 1) t ∧ (t.regsOf i).Entry cfg) (by decide)
    ?_ ⟨R₁, E₁⟩ fun k t' hk h => ?_
  · rintro k t' _ ⟨R, E⟩
    have hindex : 1 + k * 1 = k + 1 := by omega
    rw [hindex]
    refine wp_mono (wp_and (addVcpu_numbers R) (addVcpu_later (i := i) R.used (by omega)))
      (fun _ t'' h => ⟨h.1, ?_⟩) fun _ _ _ => trivial
    rw [h.2]
    exact E
  · refine wp_mono (keeps_regsOf_createEnd i t') (fun _ s' hs => ?_) fun _ _ _ => trivial
    rw [hs]
    exact h.2

end registers

/-! ## Memory -/

section memory
variable {cfg : VmConfig} {image dtb initrd : Guest} {m m' : Mem} {start r ipa : ℕ} {u u' s s' : Ram}
  {l l₀ : List ℕ}

/-- The bytes of an image are the same in both memories. -/
def Guest.Same (g : Guest) (m m' : Mem) : Prop :=
  ∀ i < g.imageSize, m' (g.startAddr + i) = m (g.startAddr + i)

/-- What a guest should find depends on the images alone. -/
theorem VmConfig.byteAt_congr (himage : image.Same m m') (hdtb : dtb.Same m m')
    (hinitrd : initrd.Same m m') (ipa : ℕ) :
    cfg.byteAt image dtb initrd m' ipa = cfg.byteAt image dtb initrd m ipa := by
  rw [VmConfig.byteAt, VmConfig.byteAt]
  by_cases hr : cfg.rootfsAddr ≤ ipa ∧ ipa < cfg.rootfsAddr + initrd.imageSize
  · rw [if_pos hr, if_pos hr, hinitrd _ (by omega)]
  rw [if_neg hr, if_neg hr]
  by_cases hi : cfg.entryAddr ≤ ipa ∧ ipa < cfg.entryAddr + image.imageSize
  · rw [if_pos hi, if_pos hi, himage _ (by omega)]
  rw [if_neg hi, if_neg hi]
  by_cases hd : cfg.dtbAddr ≤ ipa ∧ ipa < cfg.dtbAddr + dtb.imageSize
  · rw [if_pos hd, if_pos hd, hdtb _ (by omega)]
  rw [if_neg hd, if_neg hd]

/-- A guest sees the same bytes when neither tables nor the pages they map are written. -/
theorem guestByte_frame (hm : ∀ p t, TableAt m r p t → Set.EqOn m' m (block t pageSize)) {ipa : ℕ}
    (hout : ∀ out a, translate m r ipa = some (out, a) →
      m' (out + ipa % pageSize) = m (out + ipa % pageSize)) :
    guestByte m' r ipa = guestByte m r ipa := by
  have htrans : translate m' r ipa = translate m r ipa := by
    rw [translate, translate, leafEntry_frame hm]
  rw [guestByte, guestByte, htrans]
  cases h : translate m r ipa with
  | none => rfl
  | some o => rw [Option.map_some, Option.map_some, hout o.1 o.2 h]

/-- The page of the serial port is a device, and may be read and written. -/
theorem doDeviceMapping_attr {m₀ : Mem} {l₀ l : List ℕ} {r : ℕ} {s s' : Ram}
    (B : Built ∅ m₀ l₀ r s l) (hhigh : ∀ p ∈ l₀, pl011Base < p)
    (hrun : doDeviceMapping r s = .ok () s') : translate s'.mem r pl011Base =
      some (pl011Base, s2pteDevice ||| s2pteRw ||| pteAf ||| pteV) := by
  have hpage : IsPage pl011Base := by constructor <;> decide
  have hwp : wp (doDeviceMapping r) (fun _ s' => translate s'.mem r pl011Base =
      some (pl011Base, s2pteDevice ||| s2pteRw ||| pteAf ||| pteV)) (fun _ _ => True) s := by
    rw [doDeviceMapping, wp_createGuestMapping_page (by decide) (by decide) (by decide) (by decide)]
    refine wp_mono (mapPage_spec B.stage2 hpage isAttr_device ?_ ?_) ?_ fun _ _ _ => trivial
    · intro hmem
      exact lt_irrefl _ (hhigh _ (B.free _ hmem))
    · rintro p t ht rfl
      exact lt_irrefl _ (hhigh _ (B.tables p _ ht))
    · rintro _ s' ⟨_, _, _, _, _, _, M, _⟩
      exact (M.translate hpage isAttr_device _).trans (if_pos rfl)
  have hend := ok_of_wp hwp hrun
  exact hend

/-- A new machine has the page of the serial port. -/
theorem BuildsTable.port {start : ℕ} {cfg : VmConfig} {l₀ : List ℕ} {r : ℕ} {u u' : Ram}
    (h : BuildsTable start cfg u r u') (G : GuestPlaced cfg) (H : u.Pool l₀)
    (hl : HighPages start l₀) : translate u'.mem r pl011Base =
      some (pl011Base, s2pteDevice ||| s2pteRw ||| pteAf ||| pteV) := by
  obtain ⟨s₁, s₂, s₃, s₄, hw, hroot, hmemory, hdevice, hrest⟩ := h
  obtain ⟨_, _, B₂⟩ := ok_of_wp (built_root (hw.pool hl H fun _ hp => hp)) hroot r rfl
  obtain ⟨_, B₃⟩ : ∃ l, Built ∅ s₁.mem l₀ r s₃ l := ok_of_wp (B₂.memory G) hmemory
  have hend := ok_of_wp (B₃.device hl.device) hdevice
  obtain ⟨l, _, B₄, _⟩ := hend
  have hw' := hrest (B₄.noGicTable hl)
  rw [← doDeviceMapping_attr B₃ hl.device hdevice, translate, translate,
    leafEntry_frame fun p t ht => hw'.page hl (B₄.tables p t ht)]

/-- **The serial port** is mapped beside what was there. -/
theorem doDeviceMapping_others {m₀ : Mem} (B : Built ∅ m₀ l₀ r s l)
    (hhigh : ∀ p ∈ l₀, pl011Base < p) (hrun : doDeviceMapping r s = .ok () s')
    (hport : vpn ipa ≠ vpn pl011Base) :
    translate s'.mem r ipa = translate s.mem r ipa ∧
      guestByte s'.mem r ipa = guestByte s.mem r ipa := by
  have hpage : IsPage pl011Base := by constructor <;> decide
  have hwp : wp (doDeviceMapping r) (fun _ s' => translate s'.mem r ipa = translate s.mem r ipa ∧
      guestByte s'.mem r ipa = guestByte s.mem r ipa) (fun _ _ => True) s := by
    rw [doDeviceMapping, wp_createGuestMapping_page (by decide) (by decide) (by decide) (by decide)]
    refine wp_mono (mapPage_spec B.stage2 hpage isAttr_device ?_ ?_) ?_ fun _ _ _ => trivial
    · intro hmem
      exact lt_irrefl _ (hhigh _ (B.free _ hmem))
    · rintro p t ht rfl
      exact lt_irrefl _ (hhigh _ (B.tables p _ ht))
    · rintro _ s' ⟨_, _, _, _, _, S', M, _⟩
      have htrans : translate s'.mem r ipa = translate s.mem r ipa := by
        rw [M.translate hpage isAttr_device, if_neg hport]
      refine ⟨htrans, ?_⟩
      cases h : translate s.mem r ipa with
      | none => rw [guestByte_eq_none.mpr h, guestByte_eq_none.mpr (htrans.trans h)]
      | some o =>
          have h' := htrans.trans h
          rw [guestByte_of_translate h, guestByte_of_translate h']
          congr 1
          -- the page that is mapped is no table
          refine M.frame _ fun p t ht hx => S'.out_apart ipa o.1 o.2 p t h' ht ?_
          have hoff := Nat.mod_lt ipa (show 0 < pageSize by decide)
          refine page_disjoint (S'.table.isPage ht).aligned (translate_isPage h').aligned hx ?_
          exact mem_block.mpr (by omega)
  have hend := ok_of_wp hwp hrun
  exact hend

/-- A page that a new machine finds anywhere but at the serial port was a free one. -/
theorem BuildsTable.outs (h : BuildsTable start cfg u r u') (G : GuestPlaced cfg) (H : u.Pool l₀)
    (hl : HighPages start l₀) {out a : ℕ} (hne : vpn ipa ≠ vpn pl011Base)
    (ht : translate u'.mem r ipa = some (out, a)) : out ∈ l₀ := by
  obtain ⟨s₁, s₂, s₃, s₄, hw, hroot, hmemory, hdevice, hrest⟩ := h
  obtain ⟨_, _, B₂⟩ := ok_of_wp (built_root (hw.pool hl H fun _ hp => hp)) hroot r rfl
  obtain ⟨_, B₃⟩ : ∃ l, Built ∅ s₁.mem l₀ r s₃ l := ok_of_wp (B₂.memory G) hmemory
  obtain ⟨_, _, B₄, _⟩ := ok_of_wp (B₃.device hl.device) hdevice
  have hw' := hrest (B₄.noGicTable hl)
  have htrans : translate u'.mem r ipa = translate s₄.mem r ipa := by
    rw [translate, translate, leafEntry_frame fun p t ht => hw'.page hl (B₄.tables p t ht)]
  rw [htrans, (doDeviceMapping_others B₃ hl.device hdevice hne).1] at ht
  exact (B₃.outs ipa out a ht).resolve_right (Set.notMem_empty _)

/-- What the tables of `r` show a guest, when the images are in the memory `m₀`: the serial port,
and in all other places what it should find there.  All of it may be read and written. -/
structure Stocked (cfg : VmConfig) (image dtb initrd : Guest) (m₀ m : Mem) (r : ℕ) : Prop where
  bytes : ∀ ipa < 2 ^ 48, vpn ipa ≠ vpn pl011Base →
    guestByte m r ipa = cfg.byteAt image dtb initrd m₀ ipa
  attr : ∀ ipa out attr, vpn ipa ≠ vpn pl011Base → translate m r ipa = some (out, attr) →
    attr = s2pteNormal ||| s2pteRw ||| pteAf ||| pteV
  port : translate m r pl011Base =
    some (pl011Base, s2pteDevice ||| s2pteRw ||| pteAf ||| pteV)

/-- **A new machine** is shown what its configuration says. -/
theorem BuildsTable.stocked (h : BuildsTable start cfg u r u')
    (C : Creatable l₀ cfg image dtb initrd) (H : u.Pool l₀) (hl : HighPages start l₀)
    (hlen : cfg.budget image dtb ≤ l₀.length)
    (hheap : ∀ g ∈ [image, dtb, initrd], ∀ i < g.imageSize,
      g.startAddr + i ∉ block start configBlkSize) :
    Stocked cfg image dtb initrd u.mem u'.mem r := by
  have hport := h.port C.placed H hl
  obtain ⟨s₁, s₂, s₃, s₄, hw, hroot, hmemory, hdevice, hrest⟩ := h
  have hne : l₀ ≠ [] := by
    rintro rfl
    simp [VmConfig.budget] at hlen
  have H₁ : s₁.Pool l₀ := hw.pool hl H fun _ hp => hp
  obtain ⟨r', l₁, hr, heq, hmem₂, L₂, B₂⟩ := ok_of_wp (allocOnePage_root H₁ hne) hroot
  obtain rfl : r' = r := (Option.some_inj.mp hr).symm
  subst heq
  have P := C.plan r' l₁ rfl
  obtain ⟨l₃, _, L₃⟩ := ok_of_wp (doMemoryMapping_spec P L₂) hmemory
  rw [VmConfig.budget] at hlen
  have hbuilt := ok_of_wp ((BuiltWith.root L₂ B₂).memory C.placed P.image_eq P.dtb_eq (by omega))
    hmemory
  obtain ⟨l₃', B₃, hrw, _⟩ := hbuilt
  obtain ⟨_, _, B₄, _⟩ := ok_of_wp (B₃.device hl.device) hdevice
  have hw' := hrest (B₄.noGicTable hl)
  have hothers : ∀ {ipa}, vpn ipa ≠ vpn pl011Base →
      translate s₄.mem r' ipa = translate s₃.mem r' ipa ∧
        guestByte s₄.mem r' ipa = guestByte s₃.mem r' ipa :=
    doDeviceMapping_others B₃ hl.device hdevice
  have htab : ∀ p t, TableAt s₄.mem r' p t → Set.EqOn u'.mem s₄.mem (block t pageSize) :=
    fun p t ht => hw'.page hl (B₄.tables p t ht)
  have htrans : ∀ ipa, vpn ipa ≠ vpn pl011Base → translate u'.mem r' ipa = translate s₃.mem r' ipa := by
    intro ipa hne
    rw [← (hothers hne).1, translate, translate, leafEntry_frame htab]
  refine ⟨fun ipa hipa hne => ?_, fun ipa out attr hne h => ?_, hport⟩
  · have hsame : ∀ g ∈ [image, dtb, initrd], Outside l₁ r' g.startAddr g.imageSize →
        g.Same u.mem s₂.mem := by
      intro g hg hout i hi
      rw [hmem₂, fill_of_notMem (hout i hi).1, hw.mem _ (hheap g hg i hi)]
    rw [← VmConfig.byteAt_congr (hsame image (by simp) P.image_out) (hsame dtb (by simp) P.dtb_out)
      (hsame initrd (by simp) P.initrd_out) ipa, ← L₃.bytes ipa hipa, ← (hothers hne).2]
    refine guestByte_frame htab fun out attr h => ?_
    rw [(hothers hne).1] at h
    have hout := (B₃.outs ipa out attr h).resolve_right (Set.notMem_empty _)
    have hoff := Nat.mod_lt ipa (show 0 < pageSize by decide)
    exact hw'.page hl hout (mem_block.mpr (by omega))
  · rw [htrans ipa hne] at h
    exact hrw ipa out attr h

/-- The second of two guests finds a page of its own at its entry. -/
theorem TwoGuests.entry {P : Platform} {s₀ s₁ s₂ : Hyp} {a b : ℕ}
    (T : TwoGuests P s₀ s₁ s₂ a b) : ∃ out, bootEnd ≤ out ∧
      translate s₂.ram.mem (s₂.vms b).vttbr smallGuest.entryAddr =
        some (out, s2pteNormal ||| s2pteRw ||| pteAf ||| pteV) := by
  obtain ⟨live, l, G, H, hbehind, hlen⟩ := T.made
  have C := @smallGuest_creatable l fun p hp => le_trans (by decide) (hbehind p hp)
  have hl := isImage_bootEnd.highPages hbehind
  have Hcore : (s₁.onCore 0).ram.Pool l := H.frame rfl fun _ _ _ _ => rfl
  have hne : vpn smallGuest.entryAddr ≠ vpn pl011Base := by decide
  -- the images are in front of the heap
  have St := G.table.stocked C Hcore hl (le_trans (by decide) hlen) fun g hg i hi => by
    have hlow : g.startAddr + g.imageSize ≤ 0x8000 := by
      simp only [List.mem_cons, List.not_mem_nil, or_false] at hg
      rcases hg with rfl | rfl | rfl <;> decide
    have hstart : poolStart bootEnd = 0x4ffdd218 := by decide
    simp only [mem_block, hstart]
    omega
  have hbyte : guestByte s₂.ram.mem (s₂.vms b).vttbr smallGuest.entryAddr ≠ none := by
    rw [St.bytes _ (by decide) hne]
    simp [VmConfig.byteAt, smallGuest]
  cases htrans : translate s₂.ram.mem (s₂.vms b).vttbr smallGuest.entryAddr with
  | none => exact absurd (guestByte_eq_none.mpr htrans) hbyte
  | some o =>
      obtain ⟨out, attr⟩ := o
      refine ⟨out, hbehind out (G.table.outs C.placed Hcore hl hne htrans), ?_⟩
      rw [St.attr _ _ _ hne htrans]

end memory

end Xhyper
