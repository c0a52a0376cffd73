import Xhyper.Kalloc
import Mathlib.Logic.Relation

/-!
# The page allocator over every run

After `kalloc_init` the owners of pages allocate, free pages they hold and write bytes of pages
they hold, in any order and on any core.  The free list is threaded through the free pages
themselves; it survives because an owner writes to no page but its own.

The list and the pages held share the managed memory between them.  One step moves a page from
one side to the other or changes neither, and everything the owners rely on follows.

## Main definitions

* `ManagedPage` — the pages of `[HIMAGE_END, PHYEND)`.
* `PageStep`, `PageRun` — what the owners may do.
* `PagesSafe`, `page_allocator` — what they rely on, in every run.
-/

namespace Xhyper

open Memory Prog

/-- A page of `[HIMAGE_END, PHYEND)`. -/
structure ManagedPage (himageEnd p : ℕ) : Prop where
  aligned : p % pageSize = 0
  low : himageEnd ≤ p
  high : p + pageSize ≤ phyEnd

theorem mem_initPages_iff {himageEnd p : ℕ} (halign : himageEnd % pageSize = 0) :
    p ∈ initPages himageEnd ((phyEnd - himageEnd) / pageSize) ↔ ManagedPage himageEnd p := by
  rw [mem_initPages]
  constructor
  · rintro ⟨i, hi, rfl⟩
    constructor <;> simp only [pageSize, phyEnd] at * <;> omega
  · rintro ⟨hp, hlow, hhigh⟩
    refine ⟨(p - himageEnd) / pageSize, ?_, ?_⟩ <;> simp only [pageSize, phyEnd] at * <;> omega

/-! ## Runs -/

/-- The allocator as the core `c` sees it. -/
def Ram.onCore (s : Ram) (c : ℕ) : Ram := { s with core := c }

/-- One move of the owners of pages: `held` are the pages they hold.  No move follows a null
result. -/
inductive PageStep : Ram × List ℕ → Ram × List ℕ → Prop
  | alloc {s s' : Ram} {held : List ℕ} {p : ℕ} (c : ℕ) :
      allocOnePage (s.onCore c) = .ok (some p) s' → PageStep (s, held) (s', p :: held)
  | free {s s' : Ram} {held : List ℕ} {p : ℕ} (c : ℕ) :
      p ∈ held → freeOnePage p (s.onCore c) = .ok () s' → PageStep (s, held) (s', held.erase p)
  | write {s : Ram} {held : List ℕ} {p x : ℕ} (v : Byte) : p ∈ held → x ∈ block p pageSize →
      PageStep (s, held) ({ s with mem := Function.update s.mem x v }, held)

/-- Any number of moves. -/
abbrev PageRun : Ram × List ℕ → Ram × List ℕ → Prop := Relation.ReflTransGen PageStep

/-- The free list is `l`, and `l` and the pages held share the managed pages. -/
structure Ram.Shared (himageEnd : ℕ) (s : Ram) (held l : List ℕ) : Prop where
  pool : s.Pool l
  managed : ∀ p ∈ held, ManagedPage himageEnd p
  nodup : held.Nodup
  mem_iff : ∀ p, p ∈ l ↔ ManagedPage himageEnd p ∧ p ∉ held

section runs
variable {himageEnd : ℕ} {s s' : Ram} {held l : List ℕ} {p : ℕ}

theorem ManagedPage.isPage (h : ManagedPage himageEnd p) : IsPage p where
  aligned := h.aligned
  bound := by
    have hhigh := h.high
    simp only [pageSize, phyEnd] at hhigh
    omega

/-- Which core looks makes no difference to the free list. -/
theorem Ram.Pool.onCore (H : s.Pool l) (c : ℕ) : (s.onCore c).Pool l :=
  H.frame rfl fun _ _ _ _ => rfl

namespace Ram.Shared

/-- The state after `kalloc_init`: no page is held. -/
theorem init (halign : himageEnd % pageSize = 0)
    (H : s.Pool (initPages himageEnd ((phyEnd - himageEnd) / pageSize))) :
    s.Shared himageEnd [] (initPages himageEnd ((phyEnd - himageEnd) / pageSize)) where
  pool := H
  managed _ hp := absurd hp List.not_mem_nil
  nodup := List.nodup_nil
  mem_iff p := by simp [mem_initPages_iff halign]

/-- The head of the free list goes to an owner. -/
theorem alloc (S : s.Shared himageEnd held (p :: l)) (H : s'.Pool l) :
    s'.Shared himageEnd (p :: held) l where
  pool := H
  managed := List.forall_mem_cons.mpr ⟨((S.mem_iff p).mp List.mem_cons_self).1, S.managed⟩
  nodup := List.nodup_cons.mpr ⟨((S.mem_iff p).mp List.mem_cons_self).2, S.nodup⟩
  mem_iff q := by
    have hnew : p ∉ l := (List.nodup_cons.mp S.pool.nodup).1
    have hq := S.mem_iff q
    simp only [List.mem_cons] at hq ⊢
    constructor
    · intro hql
      have hqp : q ≠ p := fun heq => hnew (heq ▸ hql)
      have hheld := hq.mp (Or.inr hql)
      exact ⟨hheld.1, fun h => h.elim hqp hheld.2⟩
    · rintro ⟨hm, hno⟩
      have hor := hq.mpr ⟨hm, fun h => hno (Or.inr h)⟩
      exact hor.resolve_left fun heq => hno (Or.inl heq)

/-- A page held goes back to the head of the free list. -/
theorem free (S : s.Shared himageEnd held l) (hp : p ∈ held) (H : s'.Pool (p :: l)) :
    s'.Shared himageEnd (held.erase p) (p :: l) where
  pool := H
  managed q hq := S.managed q (List.mem_of_mem_erase hq)
  nodup := S.nodup.erase p
  mem_iff q := by
    have hq := S.mem_iff q
    rw [List.mem_cons, S.nodup.mem_erase_iff, hq]
    constructor
    · rintro (rfl | ⟨hm, hno⟩)
      · exact ⟨S.managed q hp, fun h => h.1 rfl⟩
      · exact ⟨hm, fun h => hno h.2⟩
    · rintro ⟨hm, hno⟩
      by_cases hqp : q = p
      · exact Or.inl hqp
      · exact Or.inr ⟨hm, fun h => hno ⟨hqp, h⟩⟩

/-- An owner's page shares no byte with a free one. -/
theorem write (S : s.Shared himageEnd held l) (hp : p ∈ held) {x : ℕ}
    (hx : x ∈ block p pageSize) (v : Byte) :
    Ram.Shared himageEnd { s with mem := Function.update s.mem x v } held l where
  pool := S.pool.frame rfl fun q hq y hy => by
    have hfree := (S.mem_iff q).mp hq
    apply Function.update_of_ne
    rintro rfl
    exact hfree.2 (page_disjoint hfree.1.aligned (S.managed p hp).aligned hy hx ▸ hp)
  managed := S.managed
  nodup := S.nodup
  mem_iff := S.mem_iff

end Ram.Shared

/-- **One move** keeps the pages shared. -/
theorem PageStep.shared {t t' : Ram × List ℕ} (step : PageStep t t')
    (hpos : 0 < himageEnd) (S : ∃ l, t.1.Shared himageEnd t.2 l) :
    ∃ l, t'.1.Shared himageEnd t'.2 l := by
  obtain ⟨l, S⟩ := S
  cases step with
  | alloc c hexec =>
      cases l with
      | nil =>
          have hnone := ok_of_wp (allocOnePage_nil (E := fun _ _ => True) (S.pool.onCore c)) hexec
          cases hnone
      | cons q l =>
          have hsome := ok_of_wp (allocOnePage_cons (E := fun _ _ => True) (S.pool.onCore c)) hexec
          cases hsome.1
          exact ⟨l, S.alloc hsome.2.1⟩
  | free c hp hexec =>
      have hmanaged := S.managed _ hp
      have hnew := fun h => ((S.mem_iff _).mp h).2 hp
      have hne := (Nat.lt_of_lt_of_le hpos hmanaged.low).ne'
      have hfreed := ok_of_wp (freeOnePage_spec (E := fun _ _ => True) (S.pool.onCore c)
        hmanaged.isPage hne hnew) hexec
      exact ⟨_, S.free hp hfreed.1⟩
  | write v hp hx => exact ⟨l, S.write hp hx v⟩

/-- **A run** keeps the pages shared. -/
theorem PageRun.shared {t t' : Ram × List ℕ} (run : PageRun t t') (hpos : 0 < himageEnd)
    (S : ∃ l, t.1.Shared himageEnd t.2 l) : ∃ l, t'.1.Shared himageEnd t'.2 l := by
  induction run with
  | refl => exact S
  | tail _ step ih => exact step.shared hpos ih

end runs

/-! ## What the owners rely on -/

/-- What the owners rely on in a state where they hold `held`. -/
structure PagesSafe (himageEnd : ℕ) (s : Ram) (held : List ℕ) : Prop where
  /-- The list has an end, no page twice, and the managed pages that are not held. -/
  free_list : ∃ l, Chain (read64 s.mem) s.pages.freelist l ∧ l.Nodup ∧
    ∀ p, p ∈ l ↔ ManagedPage himageEnd p ∧ p ∉ held
  /-- A call returns a zeroed page that nobody holds, or null when all are held. -/
  alloc : ∀ c, ∃ r s', allocOnePage (s.onCore c) = .ok r s' ∧
    (∀ p, r = some p → ManagedPage himageEnd p ∧ p ∉ held ∧ ∀ x ∈ block p pageSize, s'.mem x = 0) ∧
    (r = none → ∀ p, ManagedPage himageEnd p → p ∈ held)
  /-- A page held is given back without a stop. -/
  free : ∀ c, ∀ p ∈ held, ∃ s', freeOnePage p (s.onCore c) = .ok () s'

section safe
variable {himageEnd : ℕ} {s : Ram} {held l : List ℕ}

theorem Ram.Shared.safe (S : s.Shared himageEnd held l) (hpos : 0 < himageEnd) :
    PagesSafe himageEnd s held where
  free_list := ⟨l, S.pool.chain, S.pool.nodup, S.mem_iff⟩
  alloc c := by
    cases l with
    | nil =>
        obtain ⟨r, s', hs', hr⟩ := exists_ok_of_wp (allocOnePage_nil (S.pool.onCore c))
        refine ⟨r, s', hs', fun p hp => absurd (hr.symm.trans hp) nofun, fun _ p hp => ?_⟩
        by_contra hno
        exact absurd ((S.mem_iff p).mpr ⟨hp, hno⟩) List.not_mem_nil
    | cons q l =>
        obtain ⟨r, s', hs', hr, _, hmem, _⟩ := exists_ok_of_wp (allocOnePage_cons (S.pool.onCore c))
        have hq := (S.mem_iff q).mp List.mem_cons_self
        refine ⟨r, s', hs', fun p hp => ?_, fun hno => absurd (hr.symm.trans hno) nofun⟩
        obtain rfl : q = p := Option.some.inj (hr.symm.trans hp)
        refine ⟨hq.1, hq.2, fun x hx => ?_⟩
        rw [hmem]
        exact fill_of_mem hx
  free c p hp := by
    have hmanaged := S.managed p hp
    have hnew := fun h => ((S.mem_iff p).mp h).2 hp
    have hne := (Nat.lt_of_lt_of_le hpos hmanaged.low).ne'
    obtain ⟨_, s', hs', _⟩ := exists_ok_of_wp
      (freeOnePage_spec (S.pool.onCore c) hmanaged.isPage hne hnew)
    exact ⟨s', hs'⟩

/-- **The page allocator is right in every run**: `kalloc_init` returns, and whatever the owners
do from there, what they rely on holds in every state they reach.  The allocator's variables
start as zero, and the image ends on a page boundary above its load address. -/
theorem page_allocator {himageEnd : ℕ} (halign : himageEnd % pageSize = 0)
    (hlow : himageVaddr ≤ himageEnd) {s₀ : Ram} (hlock : s₀.pages.lock.word = 0)
    (hfree : s₀.pages.freelist = 0) :
    ∃ s₁, kallocInit himageEnd s₀ = .ok () s₁ ∧
      ∀ s held, PageRun (s₁, []) (s, held) → PagesSafe himageEnd s held := by
  have hpos : 0 < himageEnd := by
    simp only [himageVaddr] at hlow
    omega
  have hinit : archSpinlockInit s₀.pages.lock = { coreid := -1, word := 0 } := by
    simp [archSpinlockInit, hlock]
  obtain ⟨s₁, hs₁, hpool, _⟩ := kallocInit_returns halign hpos hinit hfree
  refine ⟨s₁, hs₁, fun s held run => ?_⟩
  have hshared := run.shared hpos ⟨_, Ram.Shared.init halign hpool⟩
  obtain ⟨l, S⟩ := hshared
  exact S.safe hpos

/-- With pages to give, a page is handed out on core 1 and the run goes on. -/
theorem page_allocator_one : ∃ s₁ s p, kallocInit 0x4ffe0000 ⟨0, fun _ => 0, ⟨.leftBy 0, 0⟩⟩ =
      .ok () s₁ ∧ PageRun (s₁, []) (s, [p]) ∧ PagesSafe 0x4ffe0000 s [p] := by
  obtain ⟨s₁, hs₁, hsafe⟩ := @page_allocator 0x4ffe0000 (by decide) (by decide)
    ⟨0, fun _ => 0, ⟨.leftBy 0, 0⟩⟩ rfl rfl
  have hstart := hsafe s₁ [] .refl
  obtain ⟨r, s, hs, _, hnull⟩ := hstart.alloc 1
  cases r with
  | none => exact absurd (hnull rfl 0x4ffe0000 ⟨by decide, le_rfl, by decide⟩) List.not_mem_nil
  | some p =>
      have run : PageRun (s₁, []) (s, [p]) := Relation.ReflTransGen.single (.alloc 1 hs)
      exact ⟨s₁, s, p, hs₁, run, hsafe s [p] run⟩

end safe

end Xhyper
