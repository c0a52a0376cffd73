import Xhyper.GuestMemory

/-!
# Images that a guest may do without

`create_guest_vm` tests the descriptors of the device tree and of the RAM disk for null
before it reports them, and the configuration of the repository's own test leaves both
out; `do_memory_mapping` tests neither.  It reads the descriptor of the device tree in
any case, and that of the RAM disk with every page of the device tree, so that an absent
device tree stops the hypervisor and an empty one loses the RAM disk.

## Main definitions

* `VmConfig.dtb`, `VmConfig.initrd` — the images, empty where the configuration has none.
* `ImagesLoaded` — the loader returns and the guest finds what is present.
* `ImagesNeeded` — what the loader asks of a configuration for that.
* `doMemoryMapping_optional` — it asks exactly that.
-/

namespace Xhyper

open Memory Prog

/-- An absent image. -/
def noGuest : Guest := ⟨[], 0, 0, 0⟩

/-- The device tree; an absent one is empty. -/
def VmConfig.dtb (cfg : VmConfig) : Guest := cfg.guestDtb.getD noGuest

/-- The RAM disk; an absent one is empty. -/
def VmConfig.initrd (cfg : VmConfig) : Guest := cfg.guestInitrd.getD noGuest

/-- `do_memory_mapping` returns, and the guest finds the image, the device tree if there
is one, the RAM disk if there is one, and nothing else. -/
def ImagesLoaded (r : ℕ) (cfg : VmConfig) (image : Guest) (s : Ram) : Prop :=
  ∃ s', doMemoryMapping r cfg s = .ok () s' ∧
    ∀ ipa < 2 ^ 48, guestByte s'.mem r ipa = cfg.byteAt image cfg.dtb cfg.initrd s.mem ipa

/-- The device tree has a descriptor; unless it is empty, the RAM disk has one too; if
it is empty, the RAM has the bytes of the RAM disk without a copy. -/
structure ImagesNeeded (cfg : VmConfig) (image : Guest) (m₀ : Mem) : Prop where
  dtb : cfg.guestDtb ≠ none
  initrd : 0 < cfg.dtb.imageSize → cfg.guestInitrd ≠ none
  copied : cfg.dtb.imageSize = 0 → ∀ i < cfg.initrd.imageSize,
    cfg.ramBytes image m₀ (cfg.rootfsAddr + i) = some (m₀ (cfg.initrd.startAddr + i))

section optional
variable {l₀ l : List ℕ} {r : ℕ} {cfg : VmConfig} {image : Guest} {s : Ram} {m₀ : Mem}

theorem VmConfig.dtb_eq {dtb : Guest} (h : cfg.guestDtb = some dtb) : cfg.dtb = dtb := by
  rw [VmConfig.dtb, h, Option.getD_some]

theorem VmConfig.initrd_eq {initrd : Guest} (h : cfg.guestInitrd = some initrd) :
    cfg.initrd = initrd := by
  rw [VmConfig.initrd, h, Option.getD_some]

/-- **An empty device tree** ends the last loop before its first round. -/
theorem wp_loadDtb_empty {Q : Unit → Ram → Prop} {E : Fault → Ram → Prop}
    (hdtb : cfg.guestDtb ≠ none) (hzero : cfg.dtb.imageSize = 0) :
    wp (loadDtb r cfg) Q E s ↔ Q () s := by
  obtain ⟨dtb, h⟩ := Option.ne_none_iff_exists'.mp hdtb
  rw [VmConfig.dtb_eq h] at hzero
  have hloop : ∀ body : ℕ → Exec Ram Unit, forRange pageSize 0 0 body = pure 0 := fun _ => rfl
  simp only [loadDtb, h, derefGuest, hzero, hloop, wp_bind, wp_pure]

/-- **Without the descriptor of the device tree** the last loop does not begin. -/
theorem wp_loadDtb_null {Q : Unit → Ram → Prop} (hdtb : cfg.guestDtb = none) :
    wp (loadDtb r cfg) Q (fun _ _ => True) s := by
  simp only [loadDtb, hdtb, derefGuest, wp_bind, wp_throw]

/-- **Without the descriptor of the RAM disk** the first round of the last loop does not
end. -/
theorem wp_loadDtb_nullInitrd {Q : Unit → Ram → Prop} {dtb : Guest}
    (hdtb : cfg.guestDtb = some dtb) (hpos : 0 < dtb.imageSize)
    (hinitrd : cfg.guestInitrd = none) :
    wp (loadDtb r cfg) Q (fun _ _ => True) s := by
  simp only [loadDtb, hdtb, derefGuest, wp_bind, wp_pure]
  refine wp_forRange (fun k _ => k = 0) (by decide) ?_ rfl ?_
  · intro k t _ _
    have hany : ∀ (x : Exec Ram Unit) (t : Ram), wp x (fun _ _ => True) (fun _ _ => True) t := by
      intro x t
      rw [wp]
      cases x t <;> trivial
    rw [wp_bind]
    refine wp_mono (hany _ t) ?_ (fun _ _ h => h)
    intro _ t' _
    simp only [hinitrd, wp_bind, wp_throw]
  · intro k t hk hzero
    have hrounds := pagesFor_pos hpos
    rw [hzero, Nat.sub_zero] at hk
    rw [pagesFor] at hrounds
    omega

/-- With an empty device tree, the guest finds what the RAM loops left exactly where the
RAM has the bytes of the RAM disk by itself. -/
theorem Laid.ramBytes_iff (P : Laid l₀ r cfg image cfg.dtb cfg.initrd)
    (hzero : cfg.dtb.imageSize = 0) :
    (∀ ipa < 2 ^ 48, cfg.ramBytes image m₀ ipa = cfg.byteAt image cfg.dtb cfg.initrd m₀ ipa) ↔
      ∀ i < cfg.initrd.imageSize,
        cfg.ramBytes image m₀ (cfg.rootfsAddr + i) = some (m₀ (cfg.initrd.startAddr + i)) := by
  have hramb := P.ram_bound
  have hplaced : ∀ x, cfg.byteAt image cfg.dtb cfg.initrd m₀ x
      = patched m₀ cfg.rootfsAddr cfg.initrd.startAddr cfg.initrd.imageSize
        (cfg.ramBytes image m₀) x := by
    intro x
    have hnone : ∀ g, placed m₀ cfg.dtbAddr cfg.dtb.startAddr 0 0 g x = g x := by
      intro g
      rw [placed, if_neg (by omega)]
    rw [← P.byteAt_eq, hzero, pagesFor_zero, patched, patched, hnone]
  constructor
  · intro h i hi
    have hlo := P.rootfs_lo (by omega)
    have hhi := P.rootfs_hi (by omega)
    have hoff : cfg.rootfsAddr + i - cfg.rootfsAddr = i := by omega
    rw [h _ (by omega), hplaced, patched, if_pos (by omega), hoff]
  · intro h ipa _
    rw [hplaced, patched]
    by_cases hin : cfg.rootfsAddr ≤ ipa ∧ ipa < cfg.rootfsAddr + cfg.initrd.imageSize
    · have hipa : cfg.rootfsAddr + (ipa - cfg.rootfsAddr) = ipa := by omega
      have hbyte := h (ipa - cfg.rootfsAddr) (by omega)
      rw [hipa] at hbyte
      rw [if_pos hin, hbyte]
    · rw [if_neg hin]

/-- What the loader needs is enough. -/
theorem Laid.loads (P : Laid l₀ r cfg image cfg.dtb cfg.initrd)
    (N : ImagesNeeded cfg image s.mem) (L : Loaded s.mem l₀ r s l₀ fun _ => none) :
    wp (doMemoryMapping r cfg)
      (fun _ s' => ∃ l', Loaded s.mem l₀ r s' l' (cfg.byteAt image cfg.dtb cfg.initrd s.mem))
      (fun e _ => OutOfPages e ∧
        l₀.length < 4 * (cfg.ramPages image + pagesFor cfg.dtb.imageSize)) s := by
  refine P.ramLoops L (fun e s' he hlt => ⟨he, by omega⟩) ?_
  intro l s₁ hlen L₁
  rcases Nat.eq_zero_or_pos cfg.dtb.imageSize with hzero | hpos
  · rw [wp_loadDtb_empty N.dtb hzero]
    have hram := (P.ramBytes_iff hzero).mpr (N.copied hzero)
    exact ⟨l, L₁.congr hram⟩
  · obtain ⟨dtb, hdtb⟩ := Option.ne_none_iff_exists'.mp N.dtb
    obtain ⟨initrd, hinitrd⟩ := Option.ne_none_iff_exists'.mp (N.initrd hpos)
    rw [VmConfig.dtb_eq hdtb, VmConfig.initrd_eq hinitrd] at P
    rw [VmConfig.dtb_eq hdtb] at hpos
    rw [VmConfig.dtb_eq hdtb, VmConfig.initrd_eq hinitrd]
    refine wp_mono (P.dtbLoop hdtb hinitrd hpos L₁) ?_ ?_
    · rintro _ s₂ ⟨l', _, L₂⟩
      exact ⟨l', L₂⟩
    · rintro e s₂ ⟨he, hlt⟩
      exact ⟨he, by omega⟩

/-- And it is necessary. -/
theorem Laid.needed (P : Laid l₀ r cfg image cfg.dtb cfg.initrd)
    (L : Loaded s.mem l₀ r s l₀ fun _ => none) (h : ImagesLoaded r cfg image s) :
    ImagesNeeded cfg image s.mem := by
  obtain ⟨s', hrun, hbytes⟩ := h
  have hdtb : cfg.guestDtb ≠ none := by
    intro hnull
    have hstop : wp (doMemoryMapping r cfg) (fun _ _ => False) (fun _ _ => True) s :=
      P.ramLoops L (fun _ _ _ _ => trivial) fun _ _ _ _ => wp_loadDtb_null hnull
    exact ok_of_wp hstop hrun
  refine ⟨hdtb, ?_, ?_⟩
  · intro hpos hnull
    obtain ⟨dtb, hsome⟩ := Option.ne_none_iff_exists'.mp hdtb
    rw [VmConfig.dtb_eq hsome] at hpos
    have hstop : wp (doMemoryMapping r cfg) (fun _ _ => False) (fun _ _ => True) s :=
      P.ramLoops L (fun _ _ _ _ => trivial) fun _ _ _ _ => wp_loadDtb_nullInitrd hsome hpos hnull
    exact ok_of_wp hstop hrun
  · intro hzero
    rw [← P.ramBytes_iff hzero]
    have hram : wp (doMemoryMapping r cfg)
        (fun _ t => ∀ ipa < 2 ^ 48, guestByte t.mem r ipa = cfg.ramBytes image s.mem ipa)
        (fun _ _ => True) s := by
      refine P.ramLoops L (fun _ _ _ _ => trivial) ?_
      intro _ s₁ _ L₁
      rw [wp_loadDtb_empty hdtb hzero]
      exact L₁.bytes
    intro ipa hipa
    rw [← ok_of_wp hram hrun ipa hipa, hbytes ipa hipa]

/-- **The device tree is not optional, and the RAM disk depends on it.**  From a zeroed
root page and the free pages `l₀`, for every configuration whose ranges are laid out
apart, any descriptor null and any image empty: with four free pages for each page of
guest memory, the loader returns with the images that are present exactly if
`ImagesNeeded` holds; with fewer, it may run out of them. -/
theorem doMemoryMapping_optional (H : s.Pool l₀) (hr : IsPage r) (hne : r ≠ 0) (hfree : r ∉ l₀)
    (hroot : ∀ x ∈ block r pageSize, s.mem x = 0)
    (P : Laid l₀ r cfg image cfg.dtb cfg.initrd) :
    (4 * (cfg.ramPages image + pagesFor cfg.dtb.imageSize) ≤ l₀.length →
      (ImagesLoaded r cfg image s ↔ ImagesNeeded cfg image s.mem)) ∧
    (ImagesNeeded cfg image s.mem → ImagesLoaded r cfg image s ∨
      ∃ e s', doMemoryMapping r cfg s = .error e s' ∧ OutOfPages e ∧
        l₀.length < 4 * (cfg.ramPages image + pagesFor cfg.dtb.imageSize)) := by
  have L := Loaded.fresh H hr hne hfree hroot
  have hsome : ImagesNeeded cfg image s.mem → ImagesLoaded r cfg image s ∨
      ∃ e s', doMemoryMapping r cfg s = .error e s' ∧ OutOfPages e ∧
        l₀.length < 4 * (cfg.ramPages image + pagesFor cfg.dtb.imageSize) := by
    intro N
    have hspec := P.loads N L
    cases hx : doMemoryMapping r cfg s with
    | ok _ s' =>
        obtain ⟨_, L'⟩ := ok_of_wp hspec hx
        exact Or.inl ⟨s', hx, L'.bytes⟩
    | error e s' =>
        have h := error_of_wp hspec hx
        exact Or.inr ⟨e, s', rfl, h⟩
  refine ⟨?_, hsome⟩
  intro hpages
  refine ⟨P.needed L, ?_⟩
  intro N
  rcases hsome N with h | ⟨_, _, _, _, hlt⟩
  · exact h
  · exact absurd hlt (Nat.not_lt.mpr hpages)

end optional

/-- The eight free pages of `countingRam` are enough for the small guest, which has all
three images. -/
theorem doMemoryMapping_optional_small : ∃ s : Ram,
    (4 * (smallGuest.ramPages ⟨[], 0x5000, 0x5010, 0x10⟩ + pagesFor smallGuest.dtb.imageSize) ≤ 8 ∧
      ImagesNeeded smallGuest ⟨[], 0x5000, 0x5010, 0x10⟩ s.mem) ∧
    ImagesLoaded 0x1000 smallGuest ⟨[], 0x5000, 0x5010, 0x10⟩ s := by
  obtain ⟨s, hpool, hroot, _⟩ := countingRam_pool
  have hplan := @smallGuest_plan 0x1000 (initPages smallEnd 8) (by decide)
  have hneeded : ImagesNeeded smallGuest ⟨[], 0x5000, 0x5010, 0x10⟩ s.mem := by
    refine ⟨by decide, fun _ => by decide, fun h => absurd h (by decide)⟩
  have hpages : 4 * (smallGuest.ramPages ⟨[], 0x5000, 0x5010, 0x10⟩
      + pagesFor smallGuest.dtb.imageSize) ≤ 8 := by decide
  have hiff := (doMemoryMapping_optional hpool (by constructor <;> decide) (by decide) (by decide)
    hroot hplan.laid).1 hpages
  exact ⟨s, ⟨hpages, hneeded⟩, hiff.mpr hneeded⟩

/-- The small guest with its image alone, as the repository's test configures one. -/
def bareGuest : VmConfig := { smallGuest with guestDtb := none, guestInitrd := none }

/-- The loader stops on the null descriptor of the device tree: images are not optional. -/
theorem doMemoryMapping_bare : ¬ ∀ (s : Ram) (l₀ : List ℕ) (r : ℕ) (cfg : VmConfig) (image : Guest),
    s.Pool l₀ → IsPage r → r ≠ 0 → r ∉ l₀ → (∀ x ∈ block r pageSize, s.mem x = 0) →
    Laid l₀ r cfg image cfg.dtb cfg.initrd →
    4 * (cfg.ramPages image + pagesFor cfg.dtb.imageSize) ≤ l₀.length →
    ImagesLoaded r cfg image s := by
  intro hall
  obtain ⟨s, hpool, hroot, _⟩ := countingRam_pool
  have hpage : IsPage 0x1000 := by constructor <;> decide
  have hempty : ∀ src, Outside (initPages smallEnd 8) 0x1000 src 0 := by
    intro src i hi
    exact absurd hi (Nat.not_lt_zero i)
  have hplan := @smallGuest_plan 0x1000 (initPages smallEnd 8) (by decide)
  have hlaid : Laid (initPages smallEnd 8) 0x1000 bareGuest ⟨[], 0x5000, 0x5010, 0x10⟩
      bareGuest.dtb bareGuest.initrd :=
    { image_eq := rfl
      entry_aligned := hplan.entry_aligned
      ram_bound := hplan.ram_bound
      image_end := hplan.image_end
      image_out := hplan.image_out
      dtb_aligned := fun h => absurd h (by decide)
      dtb_bound := fun h => absurd h (by decide)
      apart := fun h => absurd h (by decide)
      dtb_end := fun h => absurd h (by decide)
      dtb_out := hempty _
      rootfs_lo := fun h => absurd h (by decide)
      rootfs_hi := fun h => absurd h (by decide)
      initrd_end := fun h => absurd h (by decide)
      initrd_out := hempty _ }
  have hloaded := hall s _ _ _ _ hpool hpage (by decide) (by decide) hroot hlaid (by decide)
  have L := Loaded.fresh hpool hpage (by decide) (by decide) hroot
  exact (hlaid.needed L hloaded).dtb rfl

end Xhyper
