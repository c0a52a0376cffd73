import Xhyper.Base
import Xhyper.Lib.Chain

/-!
# The page allocator

`kalloc.c` keeps the free pages in a list threaded through their first words.
`Ram` is the part of the hypervisor's state that the page allocator and the page
tables share: the memory, the allocator's head and lock, and which core runs.

`Ram.Pool s l` says that the free pages are `l`, in list order.  Allocation takes
the head of `l` and zeroes it; freeing puts a page in front.  `allocOnePage`
returns with the lock still taken when there is no page, as the source does: the
callers stop then.

## Main definitions

* `Ram`, `Pages` — memory and allocator.
* `allocOnePage`, `freeOnePage`, `kallocInit` — the operations.
* `Ram.Pool` — the allocator's invariant.
-/

namespace Xhyper

open Memory Prog

/-- The allocator's own variables. -/
structure Pages where
  lock : Spinlock
  /-- Address of the first free page, or `0`. -/
  freelist : ℕ

/-- What the page allocator and the page tables work on. -/
structure Ram where
  /-- `coreid()`. -/
  core : ℕ
  mem : Mem
  pages : Pages

namespace Ram

/-- The allocator's lock as a part of the state. -/
def pagesLock : Lens Ram Spinlock where
  get s := s.pages.lock
  set l s := { s with pages := { s.pages with lock := l } }
  get_set _ _ := rfl
  set_get _ := rfl
  set_set _ _ _ := rfl

@[simp] theorem get_pagesLock (s : Ram) : pagesLock.get s = s.pages.lock := rfl
@[simp] theorem set_pagesLock (l : Spinlock) (s : Ram) :
    pagesLock.set l s = { s with pages := { s.pages with lock := l } } := rfl

end Ram

/-- Load the 64-bit word at `a`. -/
def load64 (a : ℕ) : Exec Ram ℕ := do return read64 (← get).mem a

/-- Store the 64-bit word `v` at `a`. -/
def store64 (a v : ℕ) : Exec Ram Unit := modify fun s => { s with mem := write64 s.mem a v }

/-- `memset(dst, c, n)`. -/
def memset (dst : ℕ) (c : Byte) (n : ℕ) : Exec Ram Unit :=
  modify fun s => { s with mem := fill s.mem dst n c }

/-- `memcpy(dst, src, n)`. -/
def memcpy (dst src n : ℕ) : Exec Ram Unit :=
  modify fun s => { s with mem := copy s.mem dst src n }

section
variable {Q : Unit → Ram → Prop} {E : Fault → Ram → Prop} {s : Ram}

@[simp] theorem wp_load64 {Q : ℕ → Ram → Prop} (a : ℕ) :
    wp (load64 a) Q E s ↔ Q (read64 s.mem a) s := Iff.rfl

@[simp] theorem wp_store64 (a v : ℕ) :
    wp (store64 a v) Q E s ↔ Q () { s with mem := write64 s.mem a v } := Iff.rfl

@[simp] theorem wp_memset (dst : ℕ) (c : Byte) (n : ℕ) :
    wp (memset dst c n) Q E s ↔ Q () { s with mem := fill s.mem dst n c } := Iff.rfl

@[simp] theorem wp_memcpy (dst src n : ℕ) :
    wp (memcpy dst src n) Q E s ↔ Q () { s with mem := copy s.mem dst src n } := Iff.rfl

end

/-! ## The operations -/

/-- `alloc_one_page`. -/
def allocOnePage : Exec Ram (Option ℕ) := do
  spinLock Ram.pagesLock (← get).core
  let page := (← get).pages.freelist
  if page = 0 then
    -- the lock is not given back on this path
    pure none
  else do
    let next ← load64 page
    modify fun s => { s with pages := { s.pages with freelist := next } }
    spinUnlock Ram.pagesLock (← get).core
    memset page 0 pageSize
    pure (some page)

/-- `free_one_page`. -/
def freeOnePage (p : ℕ) : Exec Ram Unit := do
  if p = 0 then pure ()
  else do
    memset p 0 pageSize
    spinLock Ram.pagesLock (← get).core
    store64 p (← get).pages.freelist
    modify fun s => { s with pages := { s.pages with freelist := p } }
    spinUnlock Ram.pagesLock (← get).core

/-- `kalloc_init`: free every page from `HIMAGE_END` to the end of memory. -/
def kallocInit (himageEnd : ℕ) : Exec Ram Unit := do
  modify fun s => { s with pages := { s.pages with lock := archSpinlockInit s.pages.lock } }
  let _ ← forRange pageSize himageEnd phyEnd freeOnePage

/-! ## The invariant -/

/-- The free pages are `l`, in list order, and the lock is free. -/
structure Ram.Pool (s : Ram) (l : List ℕ) : Prop where
  chain : Chain (read64 s.mem) s.pages.freelist l
  page : ∀ p ∈ l, IsPage p
  lock_free : s.pages.lock.word = 0

namespace Ram.Pool

variable {s s' : Ram} {l : List ℕ} {p : ℕ}

theorem nodup (H : s.Pool l) : l.Nodup := H.chain.nodup

theorem ne_zero (H : s.Pool l) (hp : p ∈ l) : p ≠ 0 := H.chain.ne_zero p hp

/-- The free list of a state is determined by the state. -/
theorem unique {l' : List ℕ} (H : s.Pool l) (H' : s.Pool l') : l = l' := H.chain.unique H'.chain

/-- The free list survives a change of memory outside the free pages. -/
theorem frame (H : s.Pool l) (hpages : s'.pages = s.pages)
    (hmem : ∀ p ∈ l, Set.EqOn s'.mem s.mem (block p pageSize)) : s'.Pool l where
  chain := by
    rw [hpages]
    refine H.chain.congr fun p hp => readLe_congr fun x hx => hmem p hp ?_
    simp only [mem_block, pageSize] at hx ⊢
    omega
  page := H.page
  lock_free := by rw [hpages]; exact H.lock_free

end Ram.Pool

section specs
variable {s : Ram} {l : List ℕ} {p : ℕ}

/-- An empty free list gives a null page. -/
theorem allocOnePage_nil {E : Fault → Ram → Prop} (H : s.Pool []) :
    wp allocOnePage (fun r _ => r = none) E s := by
  have h0 : s.pages.freelist = 0 := H.chain
  simp [allocOnePage, wp_spinLock (l := Ram.pagesLock) (s := s) H.lock_free, h0]

/-- Otherwise the head of the free list is handed out, zeroed. -/
theorem allocOnePage_cons {E : Fault → Ram → Prop} (H : s.Pool (p :: l)) :
    wp allocOnePage (fun r s' => r = some p ∧ s'.Pool l ∧
      s'.mem = fill s.mem p pageSize 0 ∧ s'.core = s.core) E s := by
  obtain ⟨hhead, hne, hrest⟩ := H.chain
  have hnd := List.nodup_cons.mp H.nodup
  have hl := H.lock_free
  simp only [allocOnePage, wp_bind, wp_get]
  rw [wp_spinLock (by simpa using hl)]
  simp only [Ram.set_pagesLock, hhead, hne, if_false, wp_bind, wp_get, wp_load64, wp_modify]
  rw [wp_spinUnlock (by simp)]
  simp only [Ram.set_pagesLock, wp_memset, wp_pure, true_and, and_true]
  refine ⟨?_, fun q hq => H.page q (List.mem_cons_of_mem _ hq), rfl⟩
  refine hrest.congr fun q hq => readLe_congr fun x hx => fill_of_notMem fun hxp => ?_
  have hqp : q = p := by
    refine page_disjoint (H.page q (List.mem_cons_of_mem _ hq)).aligned
      (H.page p List.mem_cons_self).aligned (x := x) ?_ hxp
    simp only [mem_block, pageSize] at hx ⊢
    omega
  exact hnd.1 (hqp ▸ hq)

/-- Freeing a page needs the lock only, and writes to that page only. -/
theorem freeOnePage_frame {E : Fault → Ram → Prop} (hl : s.pages.lock.word = 0) (hne : p ≠ 0) :
    wp (freeOnePage p) (fun _ s' => s'.pages.lock.word = 0 ∧ s'.pages.freelist = p ∧
      read64 s'.mem p = s.pages.freelist % 2 ^ 64 ∧
      Set.EqOn s'.mem s.mem (block p pageSize)ᶜ ∧ s'.core = s.core) E s := by
  simp only [freeOnePage, hne, if_false, wp_bind, wp_get, wp_memset]
  rw [wp_spinLock (by simpa using hl)]
  simp only [Ram.set_pagesLock, wp_store64, wp_modify]
  rw [wp_spinUnlock (by simp)]
  simp only [Ram.set_pagesLock, word_leftBy, true_and, and_true]
  refine ⟨?_, fun x hx => ?_⟩
  · rw [read64, write64, readLe_writeLe]
    norm_num
  · rw [write64, writeLe_of_notMem, fill_of_notMem hx]
    simp only [mem_block, Set.mem_compl_iff, pageSize] at hx ⊢
    omega

/-- A freed page goes to the head of the free list. -/
theorem freeOnePage_spec {E : Fault → Ram → Prop} (H : s.Pool l) (hp : IsPage p)
    (hne : p ≠ 0) (hnew : p ∉ l) :
    wp (freeOnePage p) (fun _ s' => s'.Pool (p :: l) ∧
      Set.EqOn s'.mem s.mem (block p pageSize)ᶜ ∧ s'.core = s.core) E s := by
  have hsmall : s.pages.freelist < 2 ^ 64 := by
    cases l with
    | nil =>
        have : s.pages.freelist = 0 := H.chain
        omega
    | cons q l =>
        have hq := (H.page q List.mem_cons_self).bound
        have : s.pages.freelist = q := H.chain.1
        omega
  refine wp_mono (freeOnePage_frame H.lock_free hne) ?_ (fun _ _ h => h)
  rintro _ s' ⟨hl, hhead, hlink, hmem, hcore⟩
  rw [Nat.mod_eq_of_lt hsmall] at hlink
  refine ⟨⟨?_, ?_, hl⟩, hmem, hcore⟩
  · rw [hhead]
    refine H.chain.push hne hlink fun q hq => readLe_congr fun x hx => hmem fun hxp => ?_
    have hqp : q = p := by
      refine page_disjoint (H.page q hq).aligned hp.aligned (x := x) ?_ hxp
      simp only [mem_block, pageSize] at hx ⊢
      omega
    exact hnew (hqp ▸ hq)
  · intro q hq
    rcases List.mem_cons.mp hq with rfl | hq
    · exact hp
    · exact H.page q hq

end specs

/-! ## The initial free list -/

/-- The pages `kalloc_init` frees in its first `k` rounds, last one first. -/
def initPages (himageEnd : ℕ) : ℕ → List ℕ
  | 0 => []
  | k + 1 => (himageEnd + k * pageSize) :: initPages himageEnd k

theorem mem_initPages {himageEnd k p : ℕ} :
    p ∈ initPages himageEnd k ↔ ∃ i < k, p = himageEnd + i * pageSize := by
  induction k with
  | zero => simp [initPages]
  | succ k ih =>
      simp only [initPages, List.mem_cons, ih]
      constructor
      · rintro (rfl | ⟨i, hi, rfl⟩)
        · exact ⟨k, by omega, rfl⟩
        · exact ⟨i, by omega, rfl⟩
      · rintro ⟨i, hi, rfl⟩
        rcases Nat.lt_succ_iff_lt_or_eq.mp hi with hi | rfl
        · exact Or.inr ⟨i, hi, rfl⟩
        · exact Or.inl rfl

/-- **`kalloc_init` builds the pool**: every page of `[HIMAGE_END, PHYEND)` is free,
and memory below `HIMAGE_END` is as it was. -/
theorem kallocInit_spec {s : Ram} {himageEnd : ℕ} {E : Fault → Ram → Prop}
    (halign : himageEnd % pageSize = 0) (hpos : 0 < himageEnd)
    (hlock : archSpinlockInit s.pages.lock = { coreid := -1, word := 0 })
    (hempty : s.pages.freelist = 0) :
    wp (kallocInit himageEnd) (fun _ s' =>
      s'.Pool (initPages himageEnd ((phyEnd - himageEnd) / pageSize)) ∧
      Set.EqOn s'.mem s.mem {x | x < himageEnd} ∧ s'.core = s.core) E s := by
  simp only [kallocInit, wp_bind, wp_modify]
  refine wp_forRange (fun k s' => s'.Pool (initPages himageEnd k) ∧
    Set.EqOn s'.mem s.mem {x | x < himageEnd} ∧ s'.core = s.core) (by decide) ?_ ?_ ?_
  · rintro k t hk ⟨hpool, hmem, hcore⟩
    have hpage : IsPage (himageEnd + k * pageSize) := by
      constructor <;> simp only [pageSize, phyEnd] at * <;> omega
    have hnew : himageEnd + k * pageSize ∉ initPages himageEnd k := by
      rw [mem_initPages]
      rintro ⟨i, hi, heq⟩
      simp only [pageSize] at heq
      omega
    refine wp_mono (freeOnePage_spec hpool hpage (by omega) hnew) ?_ (fun _ _ h => h)
    rintro _ t' ⟨hpool', hmem', hcore'⟩
    refine ⟨hpool', fun x hx => ?_, hcore'.trans hcore⟩
    rw [hmem' (by simp only [Set.mem_compl_iff, mem_block, Set.mem_ofPred_eq] at *; omega)]
    exact hmem hx
  · refine ⟨⟨?_, by simp [initPages], ?_⟩, fun _ _ => rfl, rfl⟩
    · simpa [initPages] using hempty
    · simp [hlock]
  · rintro k t hk ⟨hpool, hmem, hcore⟩
    have hkeq : k = (phyEnd - himageEnd) / pageSize := by
      simp only [pageSize, phyEnd] at *
      omega
    exact ⟨hkeq ▸ hpool, hmem, hcore⟩

/-- `kalloc_init` returns. -/
theorem kallocInit_returns {s : Ram} {himageEnd : ℕ} (halign : himageEnd % pageSize = 0)
    (hpos : 0 < himageEnd) (hlock : archSpinlockInit s.pages.lock = { coreid := -1, word := 0 })
    (hempty : s.pages.freelist = 0) :
    ∃ s', kallocInit himageEnd s = .ok () s' ∧
      s'.Pool (initPages himageEnd ((phyEnd - himageEnd) / pageSize)) ∧
      Set.EqOn s'.mem s.mem {x | x < himageEnd} ∧ s'.core = s.core := by
  obtain ⟨_, s', hs', h⟩ := exists_ok_of_wp (kallocInit_spec halign hpos hlock hempty)
  exact ⟨s', hs', h⟩

end Xhyper
