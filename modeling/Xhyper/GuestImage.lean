import Xhyper.CopyToIpa

/-!
# Building a guest's memory

`do_memory_mapping` gives a new guest its memory: fresh pages with the guest's image,
zeroed pages up to its RAM size, pages with its device tree, and its initial RAM disk
copied into what was mapped before.

All pages come about in one way: a page is taken from the pool, the first bytes of it
are copied from an image, and it is mapped.  `loadPage` is that round, and
`loadPage_spec` what it does to the tables and to memory.

## Main definitions

* `Guest`, `VmConfig` — what a guest is made from.
* `doMemoryMapping`, `doDeviceMapping` — its memory and its device.
* `loadPage_spec` — one page.
-/

namespace Xhyper

open Memory Prog Radix

/-- `guest_t`: an image in the hypervisor's memory. -/
structure Guest where
  /-- The bytes of the name, less the zero that ends it. -/
  guestName : List Byte
  startAddr : ℕ
  endAddr : ℕ
  imageSize : ℕ
  deriving DecidableEq, Repr

/-- `vm_config_t`; a null pointer is `none`. -/
structure VmConfig where
  guestImage : Option Guest
  guestDtb : Option Guest
  guestInitrd : Option Guest
  entryAddr : ℕ
  ramSize : ℕ
  ncpu : ℤ
  dtbAddr : ℕ
  rootfsAddr : ℕ

/-- `S2PTE_NORMAL`. -/
abbrev s2pteNormal : ℕ := 1 <<< 2

/-- `S2PTE_DEVICE`. -/
abbrev s2pteDevice : ℕ := 0

/-- `S2PTE_RW`. -/
abbrev s2pteRw : ℕ := 3 <<< 6

/-- Read through a pointer to an image. -/
def derefGuest (g : Option Guest) : Exec Ram Guest :=
  match g with
  | some g => pure g
  | none => throw .nullDeref

/-- A page from the pool, or a stop. -/
def takePage : Exec Ram ℕ := do
  match ← allocOnePage with
  | none => abort "Unable to alloc a page"
  | some page => pure page

/-- A fresh page at guest address `ipa` that starts with the `n` bytes from `src`. -/
def loadPage (pgt ipa src n : ℕ) : Exec Ram Unit := do
  let page ← takePage
  memcpy page src n
  createGuestMapping pgt ipa page pageSize (s2pteNormal ||| s2pteRw)

/-- The part of an image of `size` bytes that goes to the page at `p`. -/
def copySize (size p : ℕ) : ℕ := if size - p > pageSize then pageSize else size - p

/-- `do_memory_mapping`. -/
def doMemoryMapping (pgt : ℕ) (vmConfig : VmConfig) : Exec Ram Unit := do
  let image ← derefGuest vmConfig.guestImage
  let p ← forRange pageSize 0 image.imageSize fun p =>
    loadPage pgt ((vmConfig.entryAddr + p) % 2 ^ 64) ((image.startAddr + p) % 2 ^ 64)
      (copySize image.imageSize p)
  let _ ← forRange pageSize p vmConfig.ramSize fun p => do
    let page ← takePage
    createGuestMapping pgt ((vmConfig.entryAddr + p) % 2 ^ 64) page pageSize
      (s2pteNormal ||| s2pteRw)
  let dtb ← derefGuest vmConfig.guestDtb
  let _ ← forRange pageSize 0 dtb.imageSize fun p => do
    loadPage pgt ((vmConfig.dtbAddr + p) % 2 ^ 64) ((dtb.startAddr + p) % 2 ^ 64)
      (copySize dtb.imageSize p)
    -- the whole RAM disk is copied again with every page of the device tree
    let initrd ← derefGuest vmConfig.guestInitrd
    copyToIpa pgt vmConfig.rootfsAddr initrd.startAddr initrd.imageSize

/-- `do_device_mapping`. -/
def doDeviceMapping (pgt : ℕ) : Exec Ram Unit :=
  createGuestMapping pgt pl011Base pl011Base pageSize (s2pteDevice ||| s2pteRw)

/-! ## One page -/

section page
variable {Q : Unit → Ram → Prop} {E : Fault → Ram → Prop} {s : Ram}

/-- Mapping a range of one page is mapping that page. -/
theorem wp_createGuestMapping_page {r va pa attr : ℕ} (hva : va % pageSize = 0)
    (hpa : pa % pageSize = 0) (hvb : va < 2 ^ 64) (hpb : pa < 2 ^ 64) :
    wp (createGuestMapping r va pa pageSize attr) Q E s ↔ wp (mapPage r va pa attr) Q E s := by
  have hpar : ¬ (va % pageSize ≠ 0 ∨ pa % pageSize ≠ 0 ∨ pageSize % pageSize ≠ 0) := by
    simp [hva, hpa]
  have hva' : (va + 0) % 2 ^ 64 = va := Nat.mod_eq_of_lt hvb
  have hpa' : (pa + 0) % 2 ^ 64 = pa := Nat.mod_eq_of_lt hpb
  simp only [createGuestMapping, hpar, if_false, wp_bind, wp_pure]
  rw [wp_forRange_once (by decide) (by decide), hva', hpa']

/-- A page of RAM starts with no bytes of an image. -/
theorem wp_zeroPage {r ipa : ℕ} (src : ℕ) :
    wp (do
        let page ← takePage
        createGuestMapping r ipa page pageSize (s2pteNormal ||| s2pteRw)) Q E s ↔
      wp (loadPage r ipa src 0) Q E s := by
  simp only [loadPage, wp_bind, wp_memcpy, copy]

theorem isAttr_normal : IsAttr (s2pteNormal ||| s2pteRw) := by constructor <;> decide

theorem isAttr_device : IsAttr (s2pteDevice ||| s2pteRw) := by constructor <;> decide

/-- The messages of a mapping that runs out of pages. -/
def OutOfPages (e : Fault) : Prop := e = .abort "Unable to alloc a page" ∨ e = walkOom

/-- A fresh page with the first `n` bytes from `src`. -/
abbrev freshPage (m : Mem) (page src n : ℕ) : Mem := copy (fill m page pageSize 0) page src n

theorem freshPage_of_notMem {m : Mem} {page src n x : ℕ} (hn : n ≤ pageSize)
    (hx : x ∉ block page pageSize) : freshPage m page src n x = m x := by
  rw [freshPage, copy_of_notMem, fill_of_notMem hx]
  simp only [mem_block] at hx ⊢
  omega

/-- The bytes of a fresh page. -/
theorem freshPage_of_mem {m : Mem} {page src n i : ℕ} (hn : n ≤ pageSize) (hi : i < pageSize)
    (hsrc : ∀ j < n, src + j ∉ block page pageSize) :
    freshPage m page src n (page + i) = if i < n then m (src + i) else 0 := by
  have hdisj : 0 < n → src + n ≤ page ∨ page + n ≤ src := by
    intro hpos
    by_contra hno
    by_cases hle : src ≤ page
    · apply hsrc (page - src) (by omega)
      simp only [mem_block, pageSize]
      omega
    · apply hsrc 0 hpos
      simp only [mem_block]
      omega
  by_cases hin : i < n
  · rw [if_pos hin, freshPage, copy_of_mem (hdisj (by omega)) hin, fill_of_notMem (hsrc i hin)]
  · have hout : page + i ∉ block page n := by
      simp only [mem_block]
      omega
    rw [if_neg hin, freshPage, copy_of_notMem hout]
    apply fill_of_mem
    simp only [mem_block]
    omega

/-- **Loading one page.**  The page comes off the pool, gets the bytes, and is mapped
where nothing was. -/
theorem loadPage_spec {r ipa src n : ℕ} {l : List ℕ} (S : Stage2 s r l)
    (hipa : ipa % pageSize = 0) (hb : ipa < 2 ^ 48) (hn : n ≤ pageSize) :
    wp (loadPage r ipa src n) (fun _ s' => leafEntry s.mem r ipa = 0 ∧ ∃ page used l',
        l = page :: (used ++ l') ∧ used.length ≤ 3 ∧ Stage2 s' r l' ∧
        (∀ p t, TableAt (freshPage s.mem page src n) r p t ↔ TableAt s.mem r p t) ∧
        (∀ ipa, leafEntry (freshPage s.mem page src n) r ipa = leafEntry s.mem r ipa) ∧
        Maps (freshPage s.mem page src n) s'.mem r ipa page (s2pteNormal ||| s2pteRw) used ∧
        s'.core = s.core)
      (fun e _ => (e = mapUsed ∧ leafEntry s.mem r ipa ≠ 0) ∨
        (OutOfPages e ∧ l.length < 4)) s := by
  simp only [loadPage, takePage, wp_bind]
  cases l with
  | nil =>
      refine wp_mono (allocOnePage_nil S.pool) ?_ (fun _ _ h => h)
      intro res s₁ hres
      subst hres
      exact Or.inr ⟨Or.inl rfl, by decide⟩
  | cons page l =>
      have hpage := S.pool.page page List.mem_cons_self
      have hpageb := hpage.bound
      have hnd := List.nodup_cons.mp S.pool.nodup
      refine wp_mono (allocOnePage_cons S.pool) ?_ (fun _ _ h => h)
      rintro res s₁ ⟨hres, hpool, hmem, hcore⟩
      subst hres
      simp only [wp_pure, wp_memcpy]
      rw [wp_createGuestMapping_page hipa hpage.aligned (by omega) (by omega)]
      have hfresh : copy s₁.mem page src n = freshPage s.mem page src n := by rw [hmem]
      rw [hfresh]
      have hout : Set.EqOn (freshPage s.mem page src n) s.mem (block page pageSize)ᶜ :=
        fun x hx => freshPage_of_notMem hn hx
      have hsame := S.eqOn_tables List.mem_cons_self hout
      have hpool₂ : Ram.Pool { s₁ with mem := freshPage s.mem page src n } l := by
        refine hpool.frame rfl fun q hq x hx => ?_
        have hxp : x ∉ block page pageSize := by
          intro hxp
          apply hnd.1
          rw [← page_disjoint (hpool.page q hq).aligned hpage.aligned hx hxp]
          exact hq
        change freshPage s.mem page src n x = s₁.mem x
        rw [freshPage_of_notMem hn hxp, hmem, fill_of_notMem hxp]
      have S₂ : Stage2 { s₁ with mem := freshPage s.mem page src n } r l :=
        S.frame hpool₂ (fun p hp => List.mem_cons_of_mem _ hp) hsame
      have htab := tableAt_frame hsame
      have hleaf := leafEntry_frame hsame
      have hnot : ∀ p t, TableAt (freshPage s.mem page src n) r p t → t ≠ page := by
        intro p t ht heq
        exact S.table_used p t ((htab p t).mp ht) (heq ▸ List.mem_cons_self)
      refine wp_mono (mapPage_spec S₂ hpage isAttr_normal hnd.1 hnot) ?_ ?_
      · rintro _ s' ⟨h0, used, l', hl, hlen, S', M, hcore'⟩
        exact ⟨hleaf ipa ▸ h0, page, used, l', by rw [hl], hlen, S', htab, hleaf, M,
          hcore'.trans hcore⟩
      · intro e s' he
        rcases he with ⟨he, hne⟩ | ⟨he, hlt⟩
        · exact Or.inl ⟨he, hleaf ipa ▸ hne⟩
        · refine Or.inr ⟨Or.inr he, ?_⟩
          simp only [List.length_cons]
          omega

end page

end Xhyper
