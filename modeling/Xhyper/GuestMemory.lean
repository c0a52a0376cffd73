import Xhyper.GuestImage

/-!
# What the guest finds in its memory

`guestByte m r ipa` is the byte a guest reads at `ipa` through the tables of `r`.
`Loaded m₀ l₀ r s l g` says that these bytes are `g`, that everything the tables use
came from the free pages `l₀` of the beginning, and that memory outside these pages is
still `m₀`; in particular the images, which lie outside, are untouched.

Loading a page and copying the RAM disk change `g` in one range each
(`Loaded.loadPage`, `Loaded.copy`), and the three loops of `do_memory_mapping` are
inductions over these two steps.

## Main definitions

* `guestByte` — the guest's view of memory.
* `Loaded` — a table under construction.
* `LoadPlan`, `VmConfig.byteAt` — a well-formed configuration, and what it should give.
* `doMemoryMapping_loads` — the loader.
-/

namespace Xhyper

open Memory Prog Radix

/-- The byte that a guest with the tables of `r` reads at `ipa`. -/
def guestByte (m : Mem) (r ipa : ℕ) : Option Byte :=
  (translate m r ipa).map fun out => m (out.1 + ipa % pageSize)

theorem guestByte_of_translate {m : Mem} {r ipa out a : ℕ}
    (h : translate m r ipa = some (out, a)) :
    guestByte m r ipa = some (m (out + ipa % pageSize)) := by
  rw [guestByte, h]
  rfl

theorem guestByte_eq_none {m : Mem} {r ipa : ℕ} :
    guestByte m r ipa = none ↔ translate m r ipa = none := by
  rw [guestByte, Option.map_eq_none_iff]

/-- The `n` bytes from `src` lie outside the root page and the pages of `l₀`. -/
def Outside (l₀ : List ℕ) (r src n : ℕ) : Prop :=
  ∀ i < n, src + i ∉ block r pageSize ∧ ∀ p ∈ l₀, src + i ∉ block p pageSize

/-- The tables of `r` under construction from the free pages `l₀` and the memory `m₀`;
the guest reads `g`. -/
structure Loaded (m₀ : Mem) (l₀ : List ℕ) (r : ℕ) (s : Ram) (l : List ℕ) (g : ℕ → Option Byte) :
    Prop where
  stage2 : Stage2 s r l
  free : ∃ used, l₀ = used ++ l
  pages : ∀ p ∈ l₀, p ≠ 0
  tables : ∀ p t, TableAt s.mem r p t → t = r ∨ t ∈ l₀
  outs : ∀ ipa out a, translate s.mem r ipa = some (out, a) → out ∈ l₀
  once : ∀ a b out x y, translate s.mem r a = some (out, x) →
    translate s.mem r b = some (out, y) → vpn a = vpn b
  bytes : ∀ ipa < 2 ^ 48, guestByte s.mem r ipa = g ipa
  frame : ∀ x, x ∉ block r pageSize → (∀ p ∈ l₀, x ∉ block p pageSize) → s.mem x = m₀ x

namespace Loaded

variable {m₀ : Mem} {l₀ l : List ℕ} {r : ℕ} {s : Ram} {g g' : ℕ → Option Byte}

/-- The bytes are read below `2 ^ 48` only. -/
theorem congr (L : Loaded m₀ l₀ r s l g) (h : ∀ ipa < 2 ^ 48, g ipa = g' ipa) :
    Loaded m₀ l₀ r s l g' :=
  { L with bytes := fun ipa hb => (L.bytes ipa hb).trans (h ipa hb) }

/-- An image is still in memory. -/
theorem image (L : Loaded m₀ l₀ r s l g) {src n i : ℕ} (hsrc : Outside l₀ r src n) (hi : i < n) :
    s.mem (src + i) = m₀ (src + i) :=
  L.frame _ (hsrc i hi).1 (hsrc i hi).2

/-- A free page is one of the pages of the beginning. -/
theorem mem_of_free (L : Loaded m₀ l₀ r s l g) {p : ℕ} (hp : p ∈ l) : p ∈ l₀ := by
  obtain ⟨used, h⟩ := L.free
  rw [h]
  exact List.mem_append_right _ hp

/-- A page has been taken from the list, filled from an image and mapped. -/
structure PageLoaded (s s' : Ram) (r ipa src n page : ℕ) (l used l' : List ℕ) : Prop where
  list : l = page :: (used ++ l')
  stage2 : Stage2 s' r l'
  tables : ∀ p t, TableAt (freshPage s.mem page src n) r p t ↔ TableAt s.mem r p t
  leaves : ∀ ipa, leafEntry (freshPage s.mem page src n) r ipa = leafEntry s.mem r ipa
  maps : Maps (freshPage s.mem page src n) s'.mem r ipa page (s2pteNormal ||| s2pteRw) used

section page
variable {s' : Ram} {ipa src n page : ℕ} {used l' : List ℕ}

theorem PageLoaded.mem_page (F : PageLoaded s s' r ipa src n page l used l') : page ∈ l := by
  rw [F.list]
  exact List.mem_cons_self

/-- The page is mapped, and every other one as before. -/
theorem PageLoaded.translate (F : PageLoaded s s' r ipa src n page l used l')
    (L : Loaded m₀ l₀ r s l g) (x : ℕ) : translate s'.mem r x =
      if vpn x = vpn ipa then some (page, s2pteNormal ||| s2pteRw ||| pteAf ||| pteV)
      else Xhyper.translate s.mem r x := by
  rw [F.maps.translate (L.stage2.pool.page page F.mem_page) isAttr_normal, Xhyper.translate,
    Xhyper.translate, F.leaves]

/-- A mapped page is no table, so the mapping itself did not write to it. -/
theorem PageLoaded.kept (F : PageLoaded s s' r ipa src n page l used l') {out a x : ℕ}
    (hx : Xhyper.translate s'.mem r x = some (out, a)) :
    Set.EqOn s'.mem (freshPage s.mem page src n) (block out pageSize) := by
  intro y hy
  apply F.maps.frame
  intro p t ht hyt
  apply F.stage2.out_apart x out a p t hx ht
  exact page_disjoint (F.stage2.table.isPage ht).aligned (translate_isPage hx).aligned hyt hy

/-- The tables come from the free pages of the beginning. -/
theorem PageLoaded.tableAt (F : PageLoaded s s' r ipa src n page l used l')
    (L : Loaded m₀ l₀ r s l g) {p : List ℕ} {t : ℕ} (ht : TableAt s'.mem r p t) :
    t = r ∨ t ∈ l₀ := by
  rcases F.maps.new p t ht with hold | ⟨hu, _⟩
  · exact L.tables p t ((F.tables p t).mp hold)
  · refine Or.inr (L.mem_of_free ?_)
    rw [F.list]
    exact List.mem_cons_of_mem _ (List.mem_append_left _ hu)

/-- So do the mapped pages. -/
theorem PageLoaded.outs (F : PageLoaded s s' r ipa src n page l used l')
    (L : Loaded m₀ l₀ r s l g) {x out a : ℕ} (hx : Xhyper.translate s'.mem r x = some (out, a)) :
    out ∈ l₀ := by
  rw [F.translate L] at hx
  by_cases hv : vpn x = vpn ipa
  · rw [if_pos hv, Option.some_inj, Prod.mk.injEq] at hx
    exact hx.1 ▸ L.mem_of_free F.mem_page
  · rw [if_neg hv] at hx
    exact L.outs x out a hx

/-- They are mapped once each. -/
theorem PageLoaded.once (F : PageLoaded s s' r ipa src n page l used l')
    (L : Loaded m₀ l₀ r s l g) {a b out x y : ℕ}
    (hx : Xhyper.translate s'.mem r a = some (out, x))
    (hy : Xhyper.translate s'.mem r b = some (out, y)) : vpn a = vpn b := by
  rw [F.translate L] at hx hy
  by_cases hva : vpn a = vpn ipa
  · by_cases hvb : vpn b = vpn ipa
    · rw [hva, hvb]
    · rw [if_pos hva, Option.some_inj, Prod.mk.injEq] at hx
      rw [if_neg hvb, ← hx.1] at hy
      exact absurd F.mem_page (L.stage2.out_used b page y hy)
  · rw [if_neg hva] at hx
    by_cases hvb : vpn b = vpn ipa
    · rw [if_pos hvb, Option.some_inj, Prod.mk.injEq] at hy
      rw [← hy.1] at hx
      exact absurd F.mem_page (L.stage2.out_used a page x hx)
    · rw [if_neg hvb] at hy
      exact L.once a b out x y hx hy

/-- The guest finds the image in the page, and everything else as it was. -/
theorem PageLoaded.bytes (F : PageLoaded s s' r ipa src n page l used l')
    (L : Loaded m₀ l₀ r s l g) (hn : n ≤ pageSize) (hsrc : Outside l₀ r src n) {x : ℕ}
    (hb : ipa < 2 ^ 48) (hxb : x < 2 ^ 48) : guestByte s'.mem r x =
      if x / pageSize = ipa / pageSize then
        some (if x % pageSize < n then m₀ (src + x % pageSize) else 0)
      else g x := by
  have hpage := L.stage2.pool.page page F.mem_page
  have hsrc' : ∀ j < n, src + j ∉ block page pageSize :=
    fun j hj => (hsrc j hj).2 page (L.mem_of_free F.mem_page)
  have hvpn : vpn x = vpn ipa ↔ x / pageSize = ipa / pageSize := by
    simp only [vpn, pageSize]
    omega
  have hoff := Nat.mod_lt x (show 0 < pageSize by decide)
  have hx := F.translate L x
  by_cases hv : x / pageSize = ipa / pageSize
  · rw [if_pos (hvpn.mpr hv)] at hx
    rw [if_pos hv, guestByte_of_translate hx, F.kept hx (by simp only [mem_block]; omega),
      freshPage_of_mem hn hoff hsrc']
    by_cases hlt : x % pageSize < n
    · rw [if_pos hlt, if_pos hlt, L.image hsrc hlt]
    · rw [if_neg hlt, if_neg hlt]
  · rw [if_neg fun h => hv (hvpn.mp h)] at hx
    rw [if_neg hv, ← L.bytes x hxb]
    cases hold : Xhyper.translate s.mem r x with
    | none =>
        rw [guestByte_eq_none.mpr hold, guestByte_eq_none.mpr (hx.trans hold)]
    | some o =>
        obtain ⟨out, a⟩ := o
        have hx' := hx.trans hold
        rw [guestByte_of_translate hold, guestByte_of_translate hx',
          F.kept hx' (by simp only [mem_block]; omega), freshPage_of_notMem hn]
        intro hyp
        apply L.stage2.out_used x out a hold
        have hyo : out + x % pageSize ∈ block out pageSize := by
          simp only [mem_block]
          omega
        rw [page_disjoint (translate_isPage hold).aligned hpage.aligned hyo hyp]
        exact F.mem_page

/-- Memory outside the free pages of the beginning is not touched. -/
theorem PageLoaded.frame (F : PageLoaded s s' r ipa src n page l used l')
    (L : Loaded m₀ l₀ r s l g) (hn : n ≤ pageSize) {x : ℕ} (hxr : x ∉ block r pageSize)
    (hxl : ∀ p ∈ l₀, x ∉ block p pageSize) : s'.mem x = m₀ x := by
  have hxtab : ∀ p t, TableAt s'.mem r p t → x ∉ block t pageSize := by
    intro p t ht
    rcases F.tableAt L ht with rfl | hmem
    · exact hxr
    · exact hxl t hmem
  rw [F.maps.frame x hxtab, freshPage_of_notMem hn (hxl page (L.mem_of_free F.mem_page))]
  exact L.frame x hxr hxl

end page

/-- **Loading a page** where nothing was. -/
theorem loadPage (L : Loaded m₀ l₀ r s l g) {ipa src n : ℕ} (hipa : ipa % pageSize = 0)
    (hb : ipa < 2 ^ 48) (hn : n ≤ pageSize) (hsrc : Outside l₀ r src n) (hnew : g ipa = none) :
    wp (loadPage r ipa src n) (fun _ s' => ∃ l', l.length ≤ l'.length + 4 ∧
        Loaded m₀ l₀ r s' l' fun x =>
          if x / pageSize = ipa / pageSize then
            some (if x % pageSize < n then m₀ (src + x % pageSize) else 0)
          else g x)
      (fun e _ => OutOfPages e ∧ l.length < 4) s := by
  have hnone : translate s.mem r ipa = none := by
    rw [← guestByte_eq_none, L.bytes ipa hb, hnew]
  have h0 := (L.stage2.table.translate_eq_none_iff ipa).mp hnone
  refine wp_mono (loadPage_spec L.stage2 hipa hb hn) ?_ ?_
  · rintro _ s' ⟨_, page, used, l', hl, hlen, S', htab, hleaf, M, _⟩
    have F : PageLoaded s s' r ipa src n page l used l' := ⟨hl, S', htab, hleaf, M⟩
    refine ⟨l', ?_, S', ?_, L.pages, fun _ _ ht => F.tableAt L ht, fun _ _ _ hx => F.outs L hx,
      fun _ _ _ _ _ hx hy => F.once L hx hy, fun _ hxb => F.bytes L hn hsrc hb hxb,
      fun _ hxr hxl => F.frame L hn hxr hxl⟩
    · rw [hl]
      simp only [List.length_cons, List.length_append]
      omega
    · obtain ⟨used₀, h⟩ := L.free
      exact ⟨used₀ ++ page :: used, by rw [h, hl]; simp⟩
  · intro e s' he
    rcases he with ⟨_, hne⟩ | he
    · exact absurd h0 hne
    · exact he

/-- **Copying into mapped pages.** -/
theorem copy (L : Loaded m₀ l₀ r s l g) {dst src n : ℕ} {E : Fault → Ram → Prop}
    (hdst : 0 < n → dst + n ≤ 2 ^ 48) (hsb : 0 < n → src + n ≤ 2 ^ 64)
    (hsrc : Outside l₀ r src n) (hmapped : ∀ i < n, g (dst + i) ≠ none) :
    wp (copyToIpa r dst src n) (fun _ s' => Loaded m₀ l₀ r s' l fun x =>
      if dst ≤ x ∧ x < dst + n then some (m₀ (src + (x - dst))) else g x) E s := by
  rcases Nat.eq_zero_or_pos n with rfl | hpos
  · simp only [copyToIpa, whileLoop, lt_irrefl, decide_false, Bool.false_eq_true, if_false,
      wp_bind, wp_pure]
    exact L.congr fun x _ => by rw [if_neg (by omega)]
  replace hdst := hdst hpos
  replace hsb := hsb hpos
  have T := L.stage2.table
  have hout : ∀ i < n, ∃ out a, translate s.mem r (dst + i) = some (out, a) := by
    intro i hi
    have h := hmapped i hi
    rw [← L.bytes _ (by omega), Ne, guestByte_eq_none, ← Ne, Option.ne_none_iff_exists'] at h
    obtain ⟨⟨out, a⟩, h⟩ := h
    exact ⟨out, a, h⟩
  have W : Writable s.mem r dst src n := by
    refine ⟨hdst, hsb, fun i hi => ?_, fun i j out x y _ _ hx hy => L.once _ _ out x y hx hy⟩
    obtain ⟨out, a, h⟩ := hout i hi
    have hl₀ := L.outs _ out a h
    exact ⟨out, a, h, L.pages out hl₀, fun p t => L.stage2.out_apart _ out a p t h,
      fun j hj => (hsrc j hj).2 out hl₀⟩
  refine wp_mono (copyToIpa_spec T W) ?_ (fun _ _ h => h)
  rintro _ s' ⟨hs', C⟩
  have hsame := C.tables W.scattered (le_refl n) T
  have htab := tableAt_frame hsame
  have htrans : ∀ x, translate s'.mem r x = translate s.mem r x := by
    intro x
    rw [translate, translate, leafEntry_frame hsame]
  -- the addresses written to are bytes of mapped pages
  have hwritten : ∀ i < n, ∀ x, ipaPa s.mem r (dst + i) = some x →
      ∃ out a, translate s.mem r (dst + i) = some (out, a) ∧ x ∈ block out pageSize := by
    intro i _ x hx
    obtain ⟨out, a, h, hox⟩ := ipaPa_eq_some.mp hx
    have hoff := Nat.mod_lt (dst + i) (show 0 < pageSize by decide)
    exact ⟨out, a, h, by simp only [mem_block]; omega⟩
  have hpool : s'.Pool l := by
    refine L.stage2.pool.frame (by rw [hs']) fun q hq x hx => C.frame x fun i hi heq => ?_
    obtain ⟨out, a, h, hxo⟩ := hwritten i hi x heq
    apply L.stage2.out_used _ out a h
    rw [← page_disjoint (L.stage2.pool.page q hq).aligned (translate_isPage h).aligned hx hxo]
    exact hq
  refine ⟨L.stage2.frame hpool (fun _ h => h) hsame, L.free, L.pages, ?_, ?_, ?_, ?_, ?_⟩
  · exact fun p t ht => L.tables p t ((htab p t).mp ht)
  · exact fun x out a h => L.outs x out a (htrans x ▸ h)
  · exact fun a b out x y hx hy => L.once a b out x y (htrans a ▸ hx) (htrans b ▸ hy)
  · intro x hxb
    by_cases hin : dst ≤ x ∧ x < dst + n
    · have hi : x - dst < n := by omega
      have hxi : dst + (x - dst) = x := by omega
      obtain ⟨out, a, h⟩ := hout (x - dst) hi
      have hpa : ipaPa s.mem r (dst + (x - dst)) = some (out + x % pageSize) :=
        ipaPa_eq_some.mpr ⟨out, a, h, by rw [hxi]⟩
      rw [hxi] at h
      rw [if_pos hin, guestByte_of_translate ((htrans x).trans h), C.byte _ hi _ hpa,
        L.image hsrc hi]
    · rw [if_neg hin, ← L.bytes x hxb]
      cases h : translate s.mem r x with
      | none => rw [guestByte_eq_none.mpr h, guestByte_eq_none.mpr ((htrans x).trans h)]
      | some o =>
          obtain ⟨out, a⟩ := o
          rw [guestByte_of_translate h, guestByte_of_translate ((htrans x).trans h), C.frame]
          intro i hi heq
          obtain ⟨out', a', h', hox⟩ := ipaPa_eq_some.mp heq
          have halign := (translate_isPage h).aligned
          have halign' := (translate_isPage h').aligned
          have hsameout : out = out' := by
            simp only [pageSize] at *
            omega
          have hv := L.once x (dst + i) out a a' h (hsameout ▸ h')
          simp only [vpn, pageSize] at *
          omega
  · intro x hxr hxl
    rw [C.frame]
    · exact L.frame x hxr hxl
    · intro i hi heq
      obtain ⟨out, a, h, hxo⟩ := hwritten i hi x heq
      exact hxl out (L.outs _ out a h) hxo

end Loaded

/-! ## The loops -/

/-- The number of pages that hold `n` bytes. -/
def pagesFor (n : ℕ) : ℕ := (n + (pageSize - 1)) / pageSize

/-- `k` pages at `addr` with an image of `size` bytes and zeros behind it. -/
def placed (m₀ : Mem) (addr src size k : ℕ) (g : ℕ → Option Byte) (x : ℕ) : Option Byte :=
  if addr ≤ x ∧ x < addr + k * pageSize then
    some (if x - addr < size then m₀ (src + (x - addr)) else 0)
  else g x

/-- `n` bytes at `dst` replaced by an image. -/
def patched (m₀ : Mem) (dst src n : ℕ) (g : ℕ → Option Byte) (x : ℕ) : Option Byte :=
  if dst ≤ x ∧ x < dst + n then some (m₀ (src + (x - dst))) else g x

/-- One more page of an image. -/
theorem placed_succ {m₀ : Mem} {addr src size k : ℕ} {g : ℕ → Option Byte}
    (haddr : addr % pageSize = 0) (x : ℕ) :
    (if x / pageSize = (addr + k * pageSize) / pageSize then
      some (if x % pageSize < min pageSize (size - k * pageSize)
        then m₀ (src + k * pageSize + x % pageSize) else 0)
      else placed m₀ addr src size k g x) = placed m₀ addr src size (k + 1) g x := by
  rw [placed, placed]
  simp only [pageSize] at *
  by_cases hpage : x / 4096 = (addr + k * 4096) / 4096
  · have hin : addr ≤ x ∧ x < addr + (k + 1) * 4096 := by omega
    have hoff : x - addr = k * 4096 + x % 4096 := by omega
    rw [if_pos hpage, if_pos hin, hoff]
    by_cases hlt : k * 4096 + x % 4096 < size
    · rw [if_pos (by omega), if_pos hlt, Nat.add_assoc]
    · rw [if_neg (by omega), if_neg hlt]
  · have hside : x < addr + k * 4096 ∨ addr + k * 4096 + 4096 ≤ x := by omega
    rw [if_neg hpage, Nat.succ_mul]
    clear hpage
    generalize k * 4096 = q at *
    by_cases hin : addr ≤ x ∧ x < addr + q
    · have hin' : addr ≤ x ∧ x < addr + (q + 4096) := by omega
      rw [if_pos hin, if_pos hin']
    · have hout : ¬ (addr ≤ x ∧ x < addr + (q + 4096)) := by omega
      rw [if_neg hin, if_neg hout]

theorem copySize_eq (size p : ℕ) : copySize size p = min pageSize (size - p) := by
  rw [copySize]
  by_cases h : size - p > pageSize
  · rw [if_pos h, Nat.min_eq_left (Nat.le_of_lt h)]
  · rw [if_neg h, Nat.min_eq_right (Nat.le_of_not_lt h)]

theorem Outside.part {l₀ : List ℕ} {r src size k n : ℕ} (h : Outside l₀ r src size)
    (hn : k + n ≤ size) : Outside l₀ r (src + k) n := by
  intro i hi
  rw [Nat.add_assoc]
  exact h (k + i) (by omega)

/-- **One more page of an image in place.** -/
theorem Loaded.loadPlaced {m₀ : Mem} {l₀ l : List ℕ} {r addr src size k : ℕ} {s : Ram}
    {g : ℕ → Option Byte} (L : Loaded m₀ l₀ r s l (placed m₀ addr src size k g))
    (haddr : addr % pageSize = 0) (hb : addr + k * pageSize < 2 ^ 48)
    (hsrc : Outside l₀ r src size) (hnew : g (addr + k * pageSize) = none) :
    wp (Xhyper.loadPage r (addr + k * pageSize) (src + k * pageSize)
        (min pageSize (size - k * pageSize))) (fun _ s' => ∃ l', l.length ≤ l'.length + 4 ∧
          Loaded m₀ l₀ r s' l' (placed m₀ addr src size (k + 1) g))
      (fun e _ => OutOfPages e ∧ l.length < 4) s := by
  have halign : (addr + k * pageSize) % pageSize = 0 := by
    simp only [pageSize] at *
    omega
  have hfree : placed m₀ addr src size k g (addr + k * pageSize) = none := by
    rw [placed, if_neg (by omega), hnew]
  have hpart : Outside l₀ r (src + k * pageSize) (min pageSize (size - k * pageSize)) := by
    intro i hi
    exact hsrc.part (show k * pageSize + (size - k * pageSize) ≤ size by omega) i (by omega)
  refine wp_mono (L.loadPage halign hb (Nat.min_le_left _ _) hpart hfree) ?_ (fun _ _ h => h)
  rintro _ s' ⟨l', hlen, L'⟩
  exact ⟨l', hlen, L'.congr fun x _ => placed_succ haddr x⟩

/-- The pages of a guest's RAM. -/
def VmConfig.ramPages (cfg : VmConfig) (image : Guest) : ℕ :=
  pagesFor (max cfg.ramSize image.imageSize)

/-- A configuration with its three images, laid out apart. -/
structure LoadPlan (l₀ : List ℕ) (r : ℕ) (cfg : VmConfig) (image dtb initrd : Guest) : Prop where
  image_eq : cfg.guestImage = some image
  dtb_eq : cfg.guestDtb = some dtb
  initrd_eq : cfg.guestInitrd = some initrd
  image_pos : 0 < image.imageSize
  dtb_pos : 0 < dtb.imageSize
  initrd_pos : 0 < initrd.imageSize
  entry_aligned : cfg.entryAddr % pageSize = 0
  dtb_aligned : cfg.dtbAddr % pageSize = 0
  ram_bound : cfg.entryAddr + cfg.ramPages image * pageSize ≤ 2 ^ 48
  dtb_bound : cfg.dtbAddr + dtb.imageSize ≤ 2 ^ 48
  apart : cfg.entryAddr + cfg.ramPages image * pageSize ≤ cfg.dtbAddr ∨
    cfg.dtbAddr + dtb.imageSize ≤ cfg.entryAddr
  rootfs_lo : cfg.entryAddr ≤ cfg.rootfsAddr
  rootfs_hi : cfg.rootfsAddr + initrd.imageSize ≤ cfg.entryAddr + cfg.ramPages image * pageSize
  image_end : image.startAddr + image.imageSize ≤ 2 ^ 64
  dtb_end : dtb.startAddr + dtb.imageSize ≤ 2 ^ 64
  initrd_end : initrd.startAddr + initrd.imageSize ≤ 2 ^ 64
  image_out : Outside l₀ r image.startAddr image.imageSize
  dtb_out : Outside l₀ r dtb.startAddr dtb.imageSize
  initrd_out : Outside l₀ r initrd.startAddr initrd.imageSize

/-- The same for images that may be empty: an empty one is not laid out. -/
structure Laid (l₀ : List ℕ) (r : ℕ) (cfg : VmConfig) (image dtb initrd : Guest) : Prop where
  image_eq : cfg.guestImage = some image
  entry_aligned : cfg.entryAddr % pageSize = 0
  ram_bound : cfg.entryAddr + cfg.ramPages image * pageSize ≤ 2 ^ 48
  image_end : image.startAddr + image.imageSize ≤ 2 ^ 64
  image_out : Outside l₀ r image.startAddr image.imageSize
  dtb_aligned : 0 < dtb.imageSize → cfg.dtbAddr % pageSize = 0
  dtb_bound : 0 < dtb.imageSize → cfg.dtbAddr + dtb.imageSize ≤ 2 ^ 48
  apart : 0 < dtb.imageSize → cfg.entryAddr + cfg.ramPages image * pageSize ≤ cfg.dtbAddr ∨
    cfg.dtbAddr + dtb.imageSize ≤ cfg.entryAddr
  dtb_end : 0 < dtb.imageSize → dtb.startAddr + dtb.imageSize ≤ 2 ^ 64
  dtb_out : Outside l₀ r dtb.startAddr dtb.imageSize
  rootfs_lo : 0 < initrd.imageSize → cfg.entryAddr ≤ cfg.rootfsAddr
  rootfs_hi : 0 < initrd.imageSize →
    cfg.rootfsAddr + initrd.imageSize ≤ cfg.entryAddr + cfg.ramPages image * pageSize
  initrd_end : 0 < initrd.imageSize → initrd.startAddr + initrd.imageSize ≤ 2 ^ 64
  initrd_out : Outside l₀ r initrd.startAddr initrd.imageSize

theorem LoadPlan.laid {l₀ : List ℕ} {r : ℕ} {cfg : VmConfig} {image dtb initrd : Guest}
    (P : LoadPlan l₀ r cfg image dtb initrd) : Laid l₀ r cfg image dtb initrd where
  image_eq := P.image_eq
  entry_aligned := P.entry_aligned
  ram_bound := P.ram_bound
  image_end := P.image_end
  image_out := P.image_out
  dtb_aligned _ := P.dtb_aligned
  dtb_bound _ := P.dtb_bound
  apart _ := P.apart
  dtb_end _ := P.dtb_end
  dtb_out := P.dtb_out
  rootfs_lo _ := P.rootfs_lo
  rootfs_hi _ := P.rootfs_hi
  initrd_end _ := P.initrd_end
  initrd_out := P.initrd_out

/-- What the guest should find at `ipa` when the images are in the memory `m₀`. -/
def VmConfig.byteAt (cfg : VmConfig) (image dtb initrd : Guest) (m₀ : Mem) (ipa : ℕ) :
    Option Byte :=
  if cfg.rootfsAddr ≤ ipa ∧ ipa < cfg.rootfsAddr + initrd.imageSize then
    some (m₀ (initrd.startAddr + (ipa - cfg.rootfsAddr)))
  else if cfg.entryAddr ≤ ipa ∧ ipa < cfg.entryAddr + image.imageSize then
    some (m₀ (image.startAddr + (ipa - cfg.entryAddr)))
  else if cfg.dtbAddr ≤ ipa ∧ ipa < cfg.dtbAddr + dtb.imageSize then
    some (m₀ (dtb.startAddr + (ipa - cfg.dtbAddr)))
  else if (cfg.entryAddr ≤ ipa ∧ ipa < cfg.entryAddr + cfg.ramPages image * pageSize) ∨
      (cfg.dtbAddr ≤ ipa ∧ ipa < cfg.dtbAddr + pagesFor dtb.imageSize * pageSize) then
    some 0
  else none

/-- Two ranges that do not meet can be filled in either order. -/
theorem placed_patched {m₀ : Mem} {addr src size k dst src' n : ℕ} {g : ℕ → Option Byte}
    (hapart : 0 < n → dst + n ≤ addr ∨ addr + k * pageSize ≤ dst) (x : ℕ) :
    placed m₀ addr src size k (patched m₀ dst src' n g) x
      = patched m₀ dst src' n (placed m₀ addr src size k g) x := by
  simp only [placed, patched]
  by_cases hin : dst ≤ x ∧ x < dst + n
  · have hout : ¬ (addr ≤ x ∧ x < addr + k * pageSize) := by omega
    rw [if_neg hout, if_pos hin, if_pos hin]
  · rw [if_neg hin, if_neg hin]

/-- Filling a range twice is filling it once. -/
theorem patched_patched {m₀ : Mem} {dst src n : ℕ} {g : ℕ → Option Byte} (x : ℕ) :
    patched m₀ dst src n (patched m₀ dst src n g) x = patched m₀ dst src n g x := by
  simp only [patched]
  by_cases hin : dst ≤ x ∧ x < dst + n
  · rw [if_pos hin, if_pos hin]
  · rw [if_neg hin]

/-- The guest's RAM with its image. -/
def VmConfig.ramBytes (cfg : VmConfig) (image : Guest) (m₀ : Mem) : ℕ → Option Byte :=
  placed m₀ cfg.entryAddr image.startAddr image.imageSize (cfg.ramPages image) fun _ => none

/-- The guest's memory after `j` rounds of the device tree's loop: the first of them
puts the RAM disk in place. -/
def VmConfig.dtbBytes (cfg : VmConfig) (image dtb initrd : Guest) (m₀ : Mem) :
    ℕ → ℕ → Option Byte
  | 0 => cfg.ramBytes image m₀
  | j + 1 => patched m₀ cfg.rootfsAddr initrd.startAddr initrd.imageSize
      (placed m₀ cfg.dtbAddr dtb.startAddr dtb.imageSize (j + 1) (cfg.ramBytes image m₀))

section loader
variable {l₀ : List ℕ} {r : ℕ} {cfg : VmConfig} {image dtb initrd : Guest}

/-- The pages of the RAM and of the device tree do not meet. -/
theorem Laid.pages_apart (P : Laid l₀ r cfg image dtb initrd) (hpos : 0 < dtb.imageSize) :
    cfg.entryAddr + cfg.ramPages image * pageSize ≤ cfg.dtbAddr ∨
      cfg.dtbAddr + pagesFor dtb.imageSize * pageSize ≤ cfg.entryAddr := by
  have hentry := P.entry_aligned
  have hdtb := P.dtb_aligned hpos
  have hapart := P.apart hpos
  simp only [pagesFor, pageSize] at *
  omega

theorem pagesFor_zero : pagesFor 0 = 0 := rfl

theorem pagesFor_pos {n : ℕ} (hpos : 0 < n) : 0 < pagesFor n := by
  simp only [pagesFor, pageSize]
  omega

/-- The three ranges, one over the other, are what the guest should find. -/
theorem Laid.byteAt_eq (P : Laid l₀ r cfg image dtb initrd) (m₀ : Mem) (x : ℕ) :
    patched m₀ cfg.rootfsAddr initrd.startAddr initrd.imageSize
      (placed m₀ cfg.dtbAddr dtb.startAddr dtb.imageSize (pagesFor dtb.imageSize)
        (cfg.ramBytes image m₀)) x
      = cfg.byteAt image dtb initrd m₀ x := by
  have hram : image.imageSize ≤ cfg.ramPages image * pageSize := by
    simp only [VmConfig.ramPages, pagesFor, pageSize]
    omega
  have hdtbp : dtb.imageSize ≤ pagesFor dtb.imageSize * pageSize := by
    simp only [pagesFor, pageSize]
    omega
  have hzero : dtb.imageSize = 0 → pagesFor dtb.imageSize * pageSize = 0 := by
    intro h0
    rw [h0, pagesFor_zero, Nat.zero_mul]
  have hapart := P.pages_apart
  simp only [patched, placed, VmConfig.ramBytes, VmConfig.byteAt]
  by_cases hroot : cfg.rootfsAddr ≤ x ∧ x < cfg.rootfsAddr + initrd.imageSize
  · rw [if_pos hroot, if_pos hroot]
  rw [if_neg hroot, if_neg hroot]
  by_cases hind : cfg.dtbAddr ≤ x ∧ x < cfg.dtbAddr + pagesFor dtb.imageSize * pageSize
  · have hni : ¬ (cfg.entryAddr ≤ x ∧ x < cfg.entryAddr + image.imageSize) := by omega
    rw [if_pos hind, if_neg hni]
    by_cases hlt : x - cfg.dtbAddr < dtb.imageSize
    · have hdt : cfg.dtbAddr ≤ x ∧ x < cfg.dtbAddr + dtb.imageSize := by omega
      rw [if_pos hlt, if_pos hdt]
    · have hdt : ¬ (cfg.dtbAddr ≤ x ∧ x < cfg.dtbAddr + dtb.imageSize) := by omega
      rw [if_neg hlt, if_neg hdt, if_pos (Or.inr hind)]
  · have hdt : ¬ (cfg.dtbAddr ≤ x ∧ x < cfg.dtbAddr + dtb.imageSize) := by omega
    rw [if_neg hind]
    by_cases hinr : cfg.entryAddr ≤ x ∧ x < cfg.entryAddr + cfg.ramPages image * pageSize
    · rw [if_pos hinr]
      by_cases hlt : x - cfg.entryAddr < image.imageSize
      · have him : cfg.entryAddr ≤ x ∧ x < cfg.entryAddr + image.imageSize := by omega
        rw [if_pos hlt, if_pos him]
      · have him : ¬ (cfg.entryAddr ≤ x ∧ x < cfg.entryAddr + image.imageSize) := by omega
        rw [if_neg hlt, if_neg him, if_neg hdt, if_pos (Or.inl hinr)]
    · have him : ¬ (cfg.entryAddr ≤ x ∧ x < cfg.entryAddr + image.imageSize) := by omega
      have hnone : ¬ ((cfg.entryAddr ≤ x ∧ x < cfg.entryAddr + cfg.ramPages image * pageSize) ∨
          (cfg.dtbAddr ≤ x ∧ x < cfg.dtbAddr + pagesFor dtb.imageSize * pageSize)) := by
        rintro (h | h)
        · exact hinr h
        · exact hind h
      rw [if_neg hinr, if_neg him, if_neg hdt, if_neg hnone]

/-- The pages that the two RAM loops map together. -/
theorem ramPages_eq (a b : ℕ) :
    pagesFor a + (b - pagesFor a * pageSize + (pageSize - 1)) / pageSize = pagesFor (max b a) := by
  simp only [pagesFor, pageSize]
  omega

/-- **One round of the device tree's loop**: the next page, and the RAM disk again. -/
theorem Laid.dtbRound (P : Laid l₀ r cfg image dtb initrd) {m₀ : Mem} {l : List ℕ}
    {s : Ram} {j : ℕ} (hj : j < pagesFor dtb.imageSize)
    (L : Loaded m₀ l₀ r s l (cfg.dtbBytes image dtb initrd m₀ j)) :
    wp (do
        loadPage r (cfg.dtbAddr + j * pageSize) (dtb.startAddr + j * pageSize)
          (min pageSize (dtb.imageSize - j * pageSize))
        copyToIpa r cfg.rootfsAddr initrd.startAddr initrd.imageSize)
      (fun _ s' => ∃ l', l.length ≤ l'.length + 4 ∧
        Loaded m₀ l₀ r s' l' (cfg.dtbBytes image dtb initrd m₀ (j + 1)))
      (fun e _ => OutOfPages e ∧ l.length < 4) s := by
  have hpos : 0 < dtb.imageSize := by
    simp only [pagesFor, pageSize] at hj
    omega
  have hapart := P.pages_apart hpos
  have hlo := P.rootfs_lo
  have hhi := P.rootfs_hi
  have hdtba := P.dtb_aligned hpos
  have hdtbb := P.dtb_bound hpos
  have hramb := P.ram_bound
  have hpage : 0 < pageSize := by decide
  have hsucc : (j + 1) * pageSize = j * pageSize + pageSize := Nat.succ_mul _ _
  have hjle : (j + 1) * pageSize ≤ pagesFor dtb.imageSize * pageSize :=
    Nat.mul_le_mul_right _ hj
  -- the rest of the memory, with the RAM disk in place or not
  obtain ⟨b, hb, hbr, hdone⟩ : ∃ b : ℕ → Option Byte,
      (∀ x, cfg.dtbBytes image dtb initrd m₀ j x
        = placed m₀ cfg.dtbAddr dtb.startAddr dtb.imageSize j b x) ∧
      (∀ x, b x = none ↔ cfg.ramBytes image m₀ x = none) ∧
      ∀ x, patched m₀ cfg.rootfsAddr initrd.startAddr initrd.imageSize b x
        = patched m₀ cfg.rootfsAddr initrd.startAddr initrd.imageSize (cfg.ramBytes image m₀) x := by
    cases j with
    | zero =>
        refine ⟨cfg.ramBytes image m₀, fun x => ?_, fun _ => Iff.rfl, fun _ => rfl⟩
        rw [VmConfig.dtbBytes, placed, if_neg (by omega)]
    | succ j =>
        refine ⟨patched m₀ cfg.rootfsAddr initrd.startAddr initrd.imageSize
          (cfg.ramBytes image m₀), fun x => ?_, fun x => ?_, patched_patched⟩
        · rw [VmConfig.dtbBytes, placed_patched]
          omega
        · rw [patched]
          by_cases hin : cfg.rootfsAddr ≤ x ∧ x < cfg.rootfsAddr + initrd.imageSize
          · have hram : cfg.entryAddr ≤ x ∧
                x < cfg.entryAddr + cfg.ramPages image * pageSize := by omega
            rw [if_pos hin, VmConfig.ramBytes, placed, if_pos hram]
            simp
          · rw [if_neg hin]
  have hfree : b (cfg.dtbAddr + j * pageSize) = none := by
    rw [hbr, VmConfig.ramBytes, placed, if_neg (by omega)]
  have hbound : cfg.dtbAddr + j * pageSize < 2 ^ 48 := by
    simp only [pagesFor, pageSize] at *
    omega
  rw [wp_bind]
  refine wp_mono ((L.congr fun x _ => hb x).loadPlaced hdtba hbound P.dtb_out hfree) ?_
    (fun _ _ h => h)
  rintro _ s₁ ⟨l', hlen, L₁⟩
  have hmapped : ∀ i < initrd.imageSize,
      placed m₀ cfg.dtbAddr dtb.startAddr dtb.imageSize (j + 1) b (cfg.rootfsAddr + i) ≠ none := by
    intro i hi
    have hram : cfg.entryAddr ≤ cfg.rootfsAddr + i ∧
        cfg.rootfsAddr + i < cfg.entryAddr + cfg.ramPages image * pageSize := by omega
    rw [placed]
    by_cases hin : cfg.dtbAddr ≤ cfg.rootfsAddr + i ∧
        cfg.rootfsAddr + i < cfg.dtbAddr + (j + 1) * pageSize
    · simp [hin]
    · rw [if_neg hin, ne_eq, hbr, VmConfig.ramBytes, placed, if_pos hram]
      simp
  refine wp_mono (L₁.copy (by omega) P.initrd_end P.initrd_out hmapped) ?_ (fun _ _ h => h)
  intro _ s₂ L₂
  refine ⟨l', hlen, L₂.congr fun x _ => ?_⟩
  rw [VmConfig.dtbBytes, ← placed_patched (by omega)]
  change patched m₀ _ _ _ (placed m₀ _ _ _ (j + 1) b) x = _
  rw [← placed_patched (by omega)]
  simp only [placed, hdone]

/-- The last loop of `do_memory_mapping`. -/
def loadDtb (pgt : ℕ) (vmConfig : VmConfig) : Exec Ram Unit := do
  let dtb ← derefGuest vmConfig.guestDtb
  let _ ← forRange pageSize 0 dtb.imageSize fun p => do
    loadPage pgt ((vmConfig.dtbAddr + p) % 2 ^ 64) ((dtb.startAddr + p) % 2 ^ 64)
      (copySize dtb.imageSize p)
    let initrd ← derefGuest vmConfig.guestInitrd
    copyToIpa pgt vmConfig.rootfsAddr initrd.startAddr initrd.imageSize

/-- **The loops of the image and of the RAM** leave the RAM with the image to the last loop. -/
theorem Laid.ramLoops (P : Laid l₀ r cfg image dtb initrd) {s : Ram} {Q : Unit → Ram → Prop}
    {E : Fault → Ram → Prop} (L : Loaded s.mem l₀ r s l₀ fun _ => none)
    (hE : ∀ e s', OutOfPages e → l₀.length < 4 * cfg.ramPages image → E e s')
    (hrest : ∀ l' s', l₀.length ≤ l'.length + 4 * cfg.ramPages image →
      Loaded s.mem l₀ r s' l' (cfg.ramBytes image s.mem) → wp (loadDtb r cfg) Q E s') :
    wp (doMemoryMapping r cfg) Q E s := by
  have hramb := P.ram_bound
  have hentry := P.entry_aligned
  have himg := P.image_end
  rw [VmConfig.ramBytes] at hrest
  generalize hK : cfg.ramPages image = K at *
  have hKimg : pagesFor image.imageSize ≤ K := by
    rw [← hK]
    simp only [VmConfig.ramPages, pagesFor, pageSize]
    omega
  have himage : derefGuest cfg.guestImage = pure image := by rw [P.image_eq, derefGuest]
  simp only [doMemoryMapping, himage, wp_bind, wp_pure]
  -- the image
  refine wp_forRange (fun k s' => ∃ l', l₀.length ≤ l'.length + 4 * k ∧ Loaded s.mem l₀ r s' l'
    (placed s.mem cfg.entryAddr image.startAddr image.imageSize k fun _ => none)) (by decide)
    ?_ ⟨l₀, by omega, L.congr fun x _ => by rw [placed, if_neg (by omega)]⟩ ?_
  · rintro k t hk ⟨l, hlen, L⟩
    simp only [Nat.zero_add] at hk ⊢
    have hkK : k < K := by
      simp only [pagesFor, pageSize] at *
      omega
    have hkb : cfg.entryAddr + k * pageSize < 2 ^ 48 := by
      simp only [pageSize] at *
      omega
    rw [Nat.mod_eq_of_lt (show cfg.entryAddr + k * pageSize < 2 ^ 64 by omega),
      Nat.mod_eq_of_lt (show image.startAddr + k * pageSize < 2 ^ 64 by omega), copySize_eq]
    refine wp_mono (L.loadPlaced hentry hkb P.image_out rfl) ?_ ?_
    · rintro _ t' ⟨l', hlen', L'⟩
      exact ⟨l', by omega, L'⟩
    · rintro e _ ⟨he, hlt⟩
      exact hE e _ he (by omega)
  intro k₁ s₁ hk₁ hI₁
  have hk₁' : k₁ = pagesFor image.imageSize := by
    rw [hk₁, Nat.sub_zero]
    rfl
  subst hk₁'
  simp only [Nat.zero_add]
  -- the RAM behind it
  refine wp_forRange (fun j s' => ∃ l', l₀.length ≤ l'.length + 4 * (pagesFor image.imageSize + j) ∧
    Loaded s.mem l₀ r s' l' (placed s.mem cfg.entryAddr image.startAddr image.imageSize
      (pagesFor image.imageSize + j) fun _ => none)) (by decide) ?_ (by simpa using hI₁) ?_
  · rintro j t hj ⟨l, hlen, L⟩
    have hjK : pagesFor image.imageSize + j < K := by
      rw [← hK]
      simp only [VmConfig.ramPages, pagesFor, pageSize] at *
      omega
    have hsum : pagesFor image.imageSize * pageSize + j * pageSize
        = (pagesFor image.imageSize + j) * pageSize := (Nat.add_mul _ _ _).symm
    have hsize : image.imageSize - (pagesFor image.imageSize + j) * pageSize = 0 := by
      simp only [pagesFor, pageSize]
      omega
    have hkb : cfg.entryAddr + (pagesFor image.imageSize + j) * pageSize < 2 ^ 48 := by
      simp only [pageSize] at *
      omega
    rw [hsum, Nat.mod_eq_of_lt (by omega),
      wp_zeroPage (image.startAddr + (pagesFor image.imageSize + j) * pageSize)]
    have hload := L.loadPlaced hentry hkb P.image_out rfl
    rw [hsize, Nat.min_zero] at hload
    refine wp_mono hload ?_ ?_
    · rintro _ t' ⟨l', hlen', L'⟩
      exact ⟨l', by omega, L'⟩
    · rintro e _ ⟨he, hlt⟩
      exact hE e _ he (by omega)
  rintro j₂ s₂ hj₂ ⟨l₂, hlen₂, L₂⟩
  have hsumK : pagesFor image.imageSize + j₂ = K := by
    rw [hj₂, ramPages_eq, ← hK]
    rfl
  rw [hsumK] at hlen₂ L₂
  have hlast := hrest l₂ s₂ hlen₂ L₂
  simp only [loadDtb, wp_bind, wp_pure] at hlast
  exact hlast

/-- **The loop of the device tree**, which puts the RAM disk over the RAM. -/
theorem Laid.dtbLoop (P : Laid l₀ r cfg image dtb initrd) {m₀ : Mem} {l : List ℕ} {s : Ram}
    (hdtb : cfg.guestDtb = some dtb) (hinitrd : cfg.guestInitrd = some initrd)
    (hpos : 0 < dtb.imageSize) (L : Loaded m₀ l₀ r s l (cfg.ramBytes image m₀)) :
    wp (loadDtb r cfg) (fun _ s' => ∃ l', l.length ≤ l'.length + 4 * pagesFor dtb.imageSize ∧
        Loaded m₀ l₀ r s' l' (cfg.byteAt image dtb initrd m₀))
      (fun e _ => OutOfPages e ∧ l.length < 4 * pagesFor dtb.imageSize) s := by
  have hdtbb := P.dtb_bound hpos
  have hdtbe := P.dtb_end hpos
  simp only [loadDtb, hdtb, hinitrd, derefGuest, wp_bind, wp_pure]
  refine wp_forRange (fun j s' => ∃ l', l.length ≤ l'.length + 4 * j ∧
    Loaded m₀ l₀ r s' l' (cfg.dtbBytes image dtb initrd m₀ j)) (by decide) ?_ ⟨l, by omega, L⟩ ?_
  · rintro j t hj ⟨l', hlen, L⟩
    simp only [Nat.zero_add] at hj ⊢
    have hjD : j < pagesFor dtb.imageSize := by
      simp only [pagesFor, pageSize] at *
      omega
    rw [Nat.mod_eq_of_lt (show cfg.dtbAddr + j * pageSize < 2 ^ 64 by omega),
      Nat.mod_eq_of_lt (show dtb.startAddr + j * pageSize < 2 ^ 64 by omega), copySize_eq]
    refine wp_mono (P.dtbRound hjD L) ?_ ?_
    · rintro _ t' ⟨l'', hlen', L'⟩
      exact ⟨l'', by omega, L'⟩
    · rintro e _ ⟨he, hlt⟩
      exact ⟨he, by omega⟩
  · rintro j t hj ⟨l', hlen, L⟩
    have hjD : j = pagesFor dtb.imageSize := by
      rw [hj, Nat.sub_zero]
      rfl
    obtain ⟨k, hk⟩ := Nat.exists_eq_succ_of_ne_zero (pagesFor_pos hpos).ne'
    refine ⟨l', by omega, L.congr fun x _ => ?_⟩
    rw [← P.byteAt_eq, hjD, hk, VmConfig.dtbBytes]

/-- **The loader's loops.** -/
theorem doMemoryMapping_spec (P : LoadPlan l₀ r cfg image dtb initrd) {s : Ram}
    (L : Loaded s.mem l₀ r s l₀ fun _ => none) :
    wp (doMemoryMapping r cfg) (fun _ s' => ∃ l',
        l₀.length ≤ l'.length + 4 * (cfg.ramPages image + pagesFor dtb.imageSize) ∧
        Loaded s.mem l₀ r s' l' (cfg.byteAt image dtb initrd s.mem))
      (fun e _ => OutOfPages e ∧
        l₀.length < 4 * (cfg.ramPages image + pagesFor dtb.imageSize)) s := by
  refine P.laid.ramLoops L (fun e s' he hlt => ⟨he, by omega⟩) fun l s₁ hlen L₁ => ?_
  refine wp_mono (P.laid.dtbLoop P.dtb_eq P.initrd_eq P.dtb_pos L₁) ?_ ?_
  · rintro _ s₂ ⟨l', hlen', L₂⟩
    exact ⟨l', by omega, L₂⟩
  · rintro e s₂ ⟨he, hlt⟩
    exact ⟨he, by omega⟩

/-- A zeroed root page has nothing loaded. -/
theorem Loaded.fresh {s : Ram} (H : s.Pool l₀) (hr : IsPage r) (hne : r ≠ 0) (hfree : r ∉ l₀)
    (hzero : ∀ x ∈ block r pageSize, s.mem x = 0) : Loaded s.mem l₀ r s l₀ fun _ => none := by
  have h0 : ∀ i < 512, read64 s.mem (r + 8 * i) = 0 :=
    fun i hi => readLe_eq_zero fun x hx => hzero x (entry_block hi hx)
  refine ⟨Stage2.fresh H hr hne hfree h0, ⟨[], rfl⟩, fun p hp => H.ne_zero hp, ?_, ?_, ?_, ?_,
    fun _ _ _ => rfl⟩
  · intro p t ht
    exact Or.inl ((tableAt_fresh h0).mp ht).2
  · intro ipa out a h
    rw [translate_fresh h0] at h
    cases h
  · intro a b out x y h
    rw [translate_fresh h0] at h
    cases h
  · intro ipa _
    exact guestByte_eq_none.mpr (translate_fresh h0 ipa)

/-- **The loader.**  From a zeroed root page and the free pages `l₀`, either the guest
finds in its memory what its configuration says, and nothing outside, or the pages run
out; the latter only with fewer than four free pages for each page of guest memory. -/
theorem doMemoryMapping_loads {s : Ram} (H : s.Pool l₀) (hr : IsPage r) (hne : r ≠ 0)
    (hfree : r ∉ l₀) (hzero : ∀ x ∈ block r pageSize, s.mem x = 0)
    (P : LoadPlan l₀ r cfg image dtb initrd) :
    (∃ s', doMemoryMapping r cfg s = .ok () s' ∧
      ∀ ipa < 2 ^ 48, guestByte s'.mem r ipa = cfg.byteAt image dtb initrd s.mem ipa) ∨
    ∃ e s', doMemoryMapping r cfg s = .error e s' ∧ OutOfPages e ∧
      l₀.length < 4 * (cfg.ramPages image + pagesFor dtb.imageSize) := by
  have hspec := doMemoryMapping_spec P (Loaded.fresh H hr hne hfree hzero)
  cases hx : doMemoryMapping r cfg s with
  | ok _ s' =>
      obtain ⟨l', _, L⟩ := ok_of_wp hspec hx
      exact Or.inl ⟨s', rfl, L.bytes⟩
  | error e s' =>
      have h := error_of_wp hspec hx
      exact Or.inr ⟨e, s', rfl, h⟩

end loader

/-- A guest of one page of RAM and one of device tree; its RAM disk lies over the end of
its image. -/
def smallGuest : VmConfig where
  guestImage := some ⟨[], 0x5000, 0x5010, 0x10⟩
  guestDtb := some ⟨[], 0x6001, 0x6004, 3⟩
  guestInitrd := some ⟨[], 0x7003, 0x7008, 5⟩
  entryAddr := 0x40000000
  ramSize := 0x1000
  ncpu := 1
  dtbAddr := 0x48000000
  rootfsAddr := 0x4000000e

/-- The first of eight free pages at the end of memory. -/
abbrev smallEnd : ℕ := 0x4fff8000

/-- The small guest's images lie between `0x2000` and `0x8000`. -/
theorem smallGuest_plan {r : ℕ} {l : List ℕ}
    (hout : ∀ p ∈ r :: l, p + pageSize ≤ 0x2000 ∨ 0x8000 ≤ p) :
    LoadPlan l r smallGuest ⟨[], 0x5000, 0x5010, 0x10⟩ ⟨[], 0x6001, 0x6004, 3⟩
      ⟨[], 0x7003, 0x7008, 5⟩ := by
  have houtside : ∀ src n, 0x2000 ≤ src → src + n ≤ 0x8000 → Outside l r src n := by
    intro src n hlo hhi i hi
    have hpage : ∀ p ∈ r :: l, src + i ∉ block p pageSize := by
      intro p hp
      have := hout p hp
      simp only [mem_block, pageSize] at *
      omega
    exact ⟨hpage r List.mem_cons_self, fun p hp => hpage p (List.mem_cons_of_mem r hp)⟩
  constructor
  case image_out => exact houtside _ _ (by decide) (by decide)
  case dtb_out => exact houtside _ _ (by decide) (by decide)
  case initrd_out => exact houtside _ _ (by decide) (by decide)
  all_goals decide

/-- A zeroed page at `0x1000`, and bytes that tell their addresses apart behind it. -/
def countingRam : Ram where
  core := 0
  mem := fun x => if x < 0x2000 then 0 else BitVec.ofNat 8 x
  pages := { lock := { coreid := 0, word := 0 }, freelist := 0 }

/-- The allocator's start on `countingRam` leaves eight free pages and the memory below
them. -/
theorem countingRam_pool : ∃ s : Ram, s.Pool (initPages smallEnd 8) ∧
    (∀ x ∈ block 0x1000 pageSize, s.mem x = 0) ∧ ∀ x < smallEnd, s.mem x = countingRam.mem x := by
  have hlock : archSpinlockInit countingRam.pages.lock = { coreid := -1, word := 0 } := by decide
  obtain ⟨s, _, hpool, hmem, _⟩ := @kallocInit_returns countingRam smallEnd (by decide) (by decide)
    hlock rfl
  have hlist : (phyEnd - smallEnd) / pageSize = 8 := by decide
  rw [hlist] at hpool
  have hzero : ∀ x ∈ block 0x1000 pageSize, s.mem x = 0 := by
    intro x hx
    simp only [mem_block, pageSize] at hx
    have hlt : x < 0x2000 := by omega
    have hbelow : x < smallEnd := by
      simp only [smallEnd]
      omega
    rw [hmem hbelow]
    exact if_pos hlt
  exact ⟨s, hpool, hzero, fun x hx => hmem hx⟩

/-- Eight free pages are enough for the small guest: its memory has the last bytes of the
image under the first ones of the RAM disk, and zeros behind these. -/
theorem doMemoryMapping_loads_small : ∃ s s' : Ram,
    doMemoryMapping 0x1000 smallGuest s = .ok () s' ∧
    guestByte s'.mem 0x1000 0x4000000d = some 0x0d ∧
    guestByte s'.mem 0x1000 0x4000000e = some 0x03 ∧
    guestByte s'.mem 0x1000 0x40000013 = some 0 ∧
    guestByte s'.mem 0x1000 0x40001000 = none := by
  obtain ⟨s, hpool, hzero, hmem⟩ := countingRam_pool
  have hroot : IsPage 0x1000 := by constructor <;> decide
  have hplan := @smallGuest_plan 0x1000 (initPages smallEnd 8) (by decide)
  rcases doMemoryMapping_loads hpool hroot (by decide) (by decide) hzero hplan with
    ⟨s', hok, hbytes⟩ | ⟨_, _, _, _, hlt⟩
  · refine ⟨s, s', hok, ?_, ?_, ?_, ?_⟩
    · rw [hbytes _ (by decide), ← show s.mem 0x500d = 0x0d from hmem _ (by decide)]
      rfl
    · rw [hbytes _ (by decide), ← show s.mem 0x7003 = 0x03 from hmem _ (by decide)]
      rfl
    · exact hbytes _ (by decide)
    · exact hbytes _ (by decide)
  · exact absurd hlt (by decide)

end Xhyper
