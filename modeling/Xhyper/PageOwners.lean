import Xhyper.PageCores

/-!
# Who has a page

What each core knows between two accesses of `alloc_one_page` or `free_one_page` stays true
through the turns of the others: they store to the allocator's variables with the lock only, and
otherwise to pages of their own.  So each page is free or of one core after every schedule.

`alloc_one_page` returns `NULL` with the lock taken, and what that does to the other cores follows
from the same invariant.

## Main definitions

* `PageCores.At` — what a core knows at its place.
* `PageCores.Sound` — the invariant, `PageCores.Sound.run` that it holds after every schedule.
* `pages_one_owner` — each page is free or of one core, after every schedule.
* `out_of_pages_for_ever` — after one core found no page, no core gets one.
-/

namespace Xhyper

open Memory Prog

namespace PageCores

/-! ## The invariant -/

section invariant
variable {ι : Type} {coreid : ι → ℕ} {s : PageCores ι} {all : List ℕ}

/-- What the core `c` knows at a place: what it loaded is still so, its page is its own, and what
`memset` did stays. -/
def At (s : PageCores ι) (c : ι) : PagePc → Prop
  | .idle | .allocLock | .allocHead | .freeUnlock => True
  | .allocNext p => p = s.freelist ∧ p ≠ 0
  | .allocStore p n => p = s.freelist ∧ p ≠ 0 ∧ n = read64 s.mem p
  | .allocUnlock p => p ∈ s.own c
  | .allocZero p k => p ∈ s.own c ∧ k < pageSize ∧ ∀ i < k, s.mem (p + i) = 0
  | .outOfPages => s.freelist = 0
  | .freeZero p k => p ∈ s.own c ∧ k < pageSize
  | .freeLock p | .freeHead p => p ∈ s.own c
  | .freeLink p h => p ∈ s.own c ∧ h = s.freelist
  | .freeStore p => p ∈ s.own c ∧ read64 s.mem p = s.freelist

@[simp] theorem at_goto [DecidableEq ι] {c d : ι} {p q : PagePc} :
    (s.goto d q).At c p ↔ s.At c p := by
  cases p <;> exact Iff.rfl

@[simp] theorem at_spin {spin : SpinCores ι} {c : ι} {p : PagePc} :
    At { s with spin := spin } c p ↔ s.At c p := by
  cases p <;> exact Iff.rfl

/-- The pages `all` are those of the free list and of the cores, and none is in two places. -/
structure Shared (s : PageCores ι) (all : List ℕ) : Prop where
  list : ∃ l, Chain (read64 s.mem) s.freelist l ∧ (∀ c, ∀ p ∈ s.own c, p ∉ l) ∧
    ∀ p, p ∈ all ↔ p ∈ l ∨ ∃ c, p ∈ s.own c
  one : ∀ c d p, p ∈ s.own c → p ∈ s.own d → c = d

/-- **The invariant.** -/
structure Sound (coreid : ι → ℕ) (all : List ℕ) (s : PageCores ι) : Prop where
  exclusive : s.spin.Exclusive coreid
  coupled : ∀ c, (s.pc c).phase.Allows (s.spin.pc c)
  shared : s.Shared all
  page : ∀ p ∈ all, IsPage p ∧ p ≠ 0
  knows : ∀ c, s.At c (s.pc c)

/-- Only the memory, the head and the owners matter. -/
theorem Shared.congr {s' : PageCores ι} (h : s.Shared all) (hmem : s'.mem = s.mem)
    (hfree : s'.freelist = s.freelist) (hown : s'.own = s.own) : s'.Shared all := by
  obtain ⟨hlist, hone⟩ := h
  rw [← hmem, ← hfree, ← hown] at hlist
  rw [← hown] at hone
  exact ⟨hlist, hone⟩

/-- What a turn of the core `c` comes to: the invariant holds, the other cores have their pages
still, and only the pages of `c` are written to. -/
structure Turned (coreid : ι → ℕ) (all : List ℕ) (s s' : PageCores ι) (c : ι) : Prop where
  sound : Sound coreid all s'
  own : ∀ d, d ≠ c → ∀ p ∈ s.own d, p ∈ s'.own d
  mem : ∀ x, s'.mem x ≠ s.mem x → ∃ p ∈ s.own c, x ∈ block p pageSize

namespace Sound

/-- Bytes of a page that is not the core `c`'s are not touched by stores to its pages. -/
theorem eqOn (H : Sound coreid all s) {c : ι} {m : Mem}
    (hmem : ∀ x, m x ≠ s.mem x → ∃ p ∈ s.own c, x ∈ block p pageSize) {q : ℕ} (hq : q ∈ all)
    (hqc : q ∉ s.own c) : Set.EqOn m s.mem (block q pageSize) := by
  intro x hx
  by_contra hne
  obtain ⟨p, hp, hxp⟩ := hmem x hne
  obtain ⟨l, -, -, hall⟩ := H.shared.list
  have hpall : p ∈ all := (hall p).mpr (Or.inr ⟨c, hp⟩)
  have hpq : p = q := page_disjoint (H.page p hpall).1.aligned (H.page q hq).1.aligned hxp hx
  exact hqc (hpq ▸ hp)

/-- A page of a core is one of the pages. -/
theorem mem_all (H : Sound coreid all s) {c : ι} {p : ℕ} (hp : p ∈ s.own c) : p ∈ all := by
  obtain ⟨l, -, -, hall⟩ := H.shared.list
  exact (hall p).mpr (Or.inr ⟨c, hp⟩)

/-- The head is the null pointer or a page. -/
theorem freelist_lt (H : Sound coreid all s) : s.freelist < 2 ^ 64 := by
  obtain ⟨l, hchain, -, hall⟩ := H.shared.list
  by_cases hne : s.freelist = 0
  · omega
  · obtain ⟨l', rfl, -⟩ := hchain.pop hne
    have hbound := (H.page _ ((hall _).mpr (Or.inl List.mem_cons_self))).1.bound
    omega

/-- A core in `holding` is inside. -/
theorem inside (H : Sound coreid all s) {c : ι} (hc : (s.pc c).phase = .holding) :
    s.spin.pc c = .inside := by
  have hcoupled := H.coupled c
  rwa [hc] at hcoupled

/-- One core at most is in `holding`. -/
theorem unique (H : Sound coreid all s) {c d : ι} (hc : (s.pc c).phase = .holding)
    (hd : (s.pc d).phase = .holding) : c = d :=
  H.exclusive.unique c d (by rw [H.inside hc]; rfl) (by rw [H.inside hd]; rfl)

/-- The free list with stores to pages of the core `c`. -/
theorem shared_mem (H : Sound coreid all s) {c : ι} {m : Mem}
    (hmem : ∀ x, m x ≠ s.mem x → ∃ p ∈ s.own c, x ∈ block p pageSize) :
    Shared { s with mem := m } all := by
  obtain ⟨l, hchain, hout, hall⟩ := H.shared.list
  refine ⟨⟨l, hchain.congr fun p hp => readLe_congr fun x hx => ?_, hout, hall⟩, H.shared.one⟩
  refine H.eqOn hmem ((hall p).mpr (Or.inl hp)) (fun hpc => hout c p hpc hp) ?_
  simp only [mem_block, pageSize] at hx ⊢
  omega

/-- **What other cores know stays true**: the core `c` stores to its own pages only, and to the
head only with the lock. -/
theorem knows_of_ne (H : Sound coreid all s) {s' : PageCores ι} {c d : ι} (hd : d ≠ c)
    (hown : ∀ p ∈ s.own d, p ∈ s'.own d)
    (hmem : ∀ x, s'.mem x ≠ s.mem x → ∃ p ∈ s.own c, x ∈ block p pageSize)
    (hfree : s'.freelist ≠ s.freelist → (s.pc c).phase = .holding) : s'.At d (s.pc d) := by
  have hknows := H.knows d
  have hsame : (s.pc d).phase = .holding → s'.freelist = s.freelist := by
    intro hin
    by_contra hne
    exact hd (H.unique hin (hfree hne))
  have hpage : ∀ p ∈ s.own d, Set.EqOn s'.mem s.mem (block p pageSize) := fun p hp =>
    H.eqOn hmem (H.mem_all hp) fun hpc => hd (H.shared.one d c p hp hpc)
  cases hpc : s.pc d <;> rw [hpc] at hknows hsame
  case idle | allocLock | allocHead | freeUnlock => trivial
  case allocNext p => exact ⟨hknows.1.trans (hsame rfl).symm, hknows.2⟩
  case allocStore p n =>
    obtain ⟨hp, hne, hn⟩ := hknows
    refine ⟨hp.trans (hsame rfl).symm, hne, ?_⟩
    obtain ⟨l, hchain, hout, hall⟩ := H.shared.list
    obtain ⟨l', rfl, -⟩ := hchain.pop (hp ▸ hne)
    have hpl : p ∈ s.freelist :: l' := by rw [hp]; exact List.mem_cons_self
    rw [hn]
    refine readLe_congr fun x hx => (H.eqOn hmem ((hall p).mpr (Or.inl hpl))
      (fun hpc => hout c p hpc hpl) ?_).symm
    simp only [mem_block, pageSize] at hx ⊢
    omega
  case allocUnlock p | freeLock p | freeHead p => exact hown p hknows
  case allocZero p k =>
    obtain ⟨hp, hk, hzero⟩ := hknows
    refine ⟨hown p hp, hk, fun i hi => ?_⟩
    rw [hpage p hp (by simp only [mem_block]; omega)]
    exact hzero i hi
  case outOfPages => exact (hsame rfl).trans hknows
  case freeZero p k => exact ⟨hown p hknows.1, hknows.2⟩
  case freeLink p h => exact ⟨hown p hknows.1, hknows.2.trans (hsame rfl).symm⟩
  case freeStore p =>
    refine ⟨hown p hknows.1, ?_⟩
    rw [hsame rfl, ← hknows.2]
    refine readLe_congr fun x hx => hpage p hknows.1 ?_
    simp only [mem_block, pageSize] at hx ⊢
    omega

/-- A turn of the core `c` keeps the invariant when the core leaves the lock, the list and its own
knowledge in order. -/
theorem turn (H : Sound coreid all s) {s' : PageCores ι} {c : ι} (hX : s'.spin.Exclusive coreid)
    (hspin : ∀ d, d ≠ c → s'.spin.pc d = s.spin.pc d) (hpc : ∀ d, d ≠ c → s'.pc d = s.pc d)
    (hc : (s'.pc c).phase.Allows (s'.spin.pc c)) (hshared : s'.Shared all)
    (hown : ∀ d, d ≠ c → ∀ p ∈ s.own d, p ∈ s'.own d)
    (hmem : ∀ x, s'.mem x ≠ s.mem x → ∃ p ∈ s.own c, x ∈ block p pageSize)
    (hfree : s'.freelist ≠ s.freelist → (s.pc c).phase = .holding) (hat : s'.At c (s'.pc c)) :
    Turned coreid all s s' c := by
  refine ⟨⟨hX, fun d => ?_, hshared, H.page, fun d => ?_⟩, hown, hmem⟩
  · by_cases hd : d = c
    · exact hd ▸ hc
    · rw [hpc d hd, hspin d hd]
      exact H.coupled d
  · by_cases hd : d = c
    · exact hd ▸ hat
    · rw [hpc d hd]
      exact H.knows_of_ne hd (hown d hd) hmem hfree

/-- A turn in which nothing happens. -/
theorem stay (H : Sound coreid all s) (c : ι) : Turned coreid all s s c :=
  ⟨H, fun _ _ _ h => h, fun _ hx => absurd rfl hx⟩

/-- A byte that is stored in a page of the core. -/
theorem store_ne {c : ι} {x y p k : ℕ} {b : Byte} (hp : p ∈ s.own c) (hk : k < pageSize) (hx : x = p + k)
    (hy : (s.store x b).mem y ≠ s.mem y) : ∃ q ∈ s.own c, y ∈ block q pageSize := by
  have hyx : y = x := by
    by_contra hne
    exact hy (Function.update_of_ne hne _ _)
  exact ⟨p, hp, by simp only [mem_block]; omega⟩

variable [DecidableEq ι] {c : ι}

/-- The core goes on and touches nothing. -/
theorem goto (H : Sound coreid all s) {p : PagePc} (hphase : p.phase.Allows (s.spin.pc c))
    (hat : s.At c p) : Turned coreid all s (s.goto c p) c := by
  refine H.turn H.exclusive (fun _ _ => rfl) (fun d hd => goto_pc_of_ne p hd) ?_
    (H.shared.congr rfl rfl rfl) (fun _ _ _ h => h) (fun _ hx => absurd rfl hx) (fun h => absurd rfl h) ?_
  · rw [goto_pc_self]
    exact hphase
  · rw [goto_pc_self, at_goto]
    exact hat

/-- It goes on to a place that is the same for the lock. -/
theorem goto_same (H : Sound coreid all s) {p : PagePc} (hphase : p.phase = (s.pc c).phase)
    (hat : s.At c p) : Turned coreid all s (s.goto c p) c :=
  H.goto (hphase ▸ H.coupled c) hat

/-- It stores to its own pages and goes on. -/
theorem write (H : Sound coreid all s) {m : Mem} {p : PagePc}
    (hmem : ∀ x, m x ≠ s.mem x → ∃ q ∈ s.own c, x ∈ block q pageSize)
    (hphase : p.phase.Allows (s.spin.pc c)) (hat : At { s with mem := m } c p) :
    Turned coreid all s (({ s with mem := m } : PageCores ι).goto c p) c := by
  refine H.turn H.exclusive (fun _ _ => rfl) (fun d hd => goto_pc_of_ne p hd) ?_
    ((H.shared_mem hmem).congr rfl rfl rfl) (fun _ _ _ h => h) hmem (fun h => absurd rfl h) ?_
  · rw [goto_pc_self]
    exact hphase
  · rw [goto_pc_self, at_goto]
    exact hat

/-- An access in the code of the lock, with which the core stays where it is. -/
theorem spin (H : Sound coreid all s) (t : Turn ι)
    (hphase : (s.pc t.core).phase.Allows ((s.spin.step coreid t).pc t.core)) :
    Turned coreid all s { s with spin := s.spin.step coreid t } t.core :=
  H.turn (H.exclusive.step t) (fun _ hd => SpinCores.step_pc_of_ne hd) (fun _ _ => rfl) hphase
    (H.shared.congr rfl rfl rfl) (fun _ _ _ h => h) (fun _ hx => absurd rfl hx)
    (fun h => absurd rfl h) (at_spin.mpr (H.knows t.core))

/-- **Taking the lock.** -/
theorem lockTurn (H : Sound coreid all s) (t : Turn ι) {next : PagePc}
    (hpc : (s.pc t.core).phase = .taking) (hnext : next.phase = .holding)
    (hat : s.At t.core next) : Turned coreid all s (s.lockTurn coreid t next) t.core := by
  have hcoupled := H.coupled t.core
  rw [hpc] at hcoupled
  have hX := H.exclusive.step t
  simp only [PageCores.lockTurn]
  split
  case isTrue hin =>
    refine H.turn hX (fun d hd => SpinCores.step_pc_of_ne hd) (fun d hd => goto_pc_of_ne next hd)
      ?_ (H.shared.congr rfl rfl rfl) (fun _ _ _ h => h) (fun _ hx => absurd rfl hx) (fun h => absurd rfl h) ?_
    · rw [goto_pc_self, hnext]
      exact hin
    · rw [goto_pc_self, at_goto, at_spin]
      exact hat
  case isFalse hin =>
    refine H.spin t ?_
    rw [hpc]
    exact (SpinCores.step_taking hcoupled).resolve_right hin

/-- **Giving it back.** -/
theorem unlockTurn (H : Sound coreid all s) (t : Turn ι) {next : PagePc}
    (hpc : (s.pc t.core).phase = .leaving) (hnext : next.phase = .away)
    (hat : s.At t.core next) : Turned coreid all s (s.unlockTurn coreid t next) t.core := by
  have hcoupled := H.coupled t.core
  rw [hpc] at hcoupled
  have hX := H.exclusive.step t
  simp only [PageCores.unlockTurn]
  split
  case isTrue hout =>
    refine H.turn hX (fun d hd => SpinCores.step_pc_of_ne hd) (fun d hd => goto_pc_of_ne next hd)
      ?_ (H.shared.congr rfl rfl rfl) (fun _ _ _ h => h) (fun _ hx => absurd rfl hx) (fun h => absurd rfl h) ?_
    · rw [goto_pc_self, hnext]
      exact hout
    · rw [goto_pc_self, at_goto, at_spin]
      exact hat
  case isFalse hout =>
    refine H.spin t ?_
    rw [hpc]
    exact (H.exclusive.step_leaving hcoupled).resolve_right hout

/-- The head is taken off the list. -/
theorem pop (H : Sound coreid all s) {p n : ℕ} (hpc : s.pc c = .allocStore p n) :
    Turned coreid all s
      ((({ s with freelist := n } : PageCores ι).take c p).goto c (.allocUnlock p)) c := by
  have hat := H.knows c
  have hin := H.inside (c := c) (by rw [hpc]; rfl)
  rw [hpc] at hat
  obtain ⟨hp, hne, hn⟩ := hat
  obtain ⟨l, hchain, hout, hall⟩ := H.shared.list
  obtain ⟨l', rfl, hrest⟩ := hchain.pop (hp ▸ hne)
  rw [← hp] at hchain hout hall hrest
  have hnotin : p ∉ l' := (List.nodup_cons.mp hchain.nodup).1
  refine H.turn (c := c) H.exclusive (fun _ _ => rfl) (fun d hd => goto_pc_of_ne _ hd) ?_ ?_ ?_
    (fun _ hx => absurd rfl hx) (fun _ => by rw [hpc]; rfl) ?_
  · rw [goto_pc_self]
    exact Or.inl hin
  · refine Shared.congr (s := ({ s with freelist := n } : PageCores ι).take c p) ?_ rfl rfl rfl
    refine ⟨⟨l', hn ▸ hrest, fun d q hq hql => ?_, fun q => ?_⟩, fun d e q hd he => ?_⟩
    · rcases (mem_take ..).mp hq with hq | ⟨-, rfl⟩
      · exact hout d q hq (List.mem_cons_of_mem _ hql)
      · exact hnotin hql
    · rw [hall q, List.mem_cons]
      simp only [mem_take]
      constructor
      · rintro ((rfl | hq) | ⟨d, hd⟩)
        · exact Or.inr ⟨c, Or.inr ⟨rfl, rfl⟩⟩
        · exact Or.inl hq
        · exact Or.inr ⟨d, Or.inl hd⟩
      · rintro (hq | ⟨d, hd | ⟨-, rfl⟩⟩)
        · exact Or.inl (Or.inr hq)
        · exact Or.inr ⟨d, hd⟩
        · exact Or.inl (Or.inl rfl)
    · have hnew : ∀ d, p ∉ s.own d := fun d hd => hout d p hd List.mem_cons_self
      rcases (mem_take ..).mp hd with hd' | ⟨rfl, rfl⟩ <;>
        rcases (mem_take ..).mp he with he' | ⟨rfl, hq⟩
      · exact H.shared.one d e q hd' he'
      · exact absurd (hq ▸ hd') (hnew d)
      · exact absurd he' (hnew e)
      · rfl
  · exact fun d _ q hq => (mem_take ..).mpr (Or.inl hq)
  · rw [goto_pc_self, at_goto]
    exact (mem_take ..).mpr (Or.inr ⟨rfl, rfl⟩)

/-- A page is put in front of the list. -/
theorem push (H : Sound coreid all s) {p : ℕ} (hpc : s.pc c = .freeStore p) :
    Turned coreid all s
      ((({ s with freelist := p } : PageCores ι).drop c p).goto c .freeUnlock) c := by
  have hat := H.knows c
  have hin := H.inside (c := c) (by rw [hpc]; rfl)
  rw [hpc] at hat
  obtain ⟨hp, hlink⟩ := hat
  obtain ⟨l, hchain, hout, hall⟩ := H.shared.list
  have hne := (H.page p (H.mem_all hp)).2
  refine H.turn (c := c) H.exclusive (fun _ _ => rfl) (fun d hd => goto_pc_of_ne _ hd) ?_ ?_ ?_
    (fun _ hx => absurd rfl hx) (fun _ => by rw [hpc]; rfl) ?_
  · rw [goto_pc_self]
    exact Or.inl hin
  · refine Shared.congr (s := ({ s with freelist := p } : PageCores ι).drop c p) ?_ rfl rfl rfl
    refine ⟨⟨p :: l, hchain.push hne hlink fun _ _ => rfl, fun d q hq hql => ?_, fun q => ?_⟩,
      fun d e q hd he => ?_⟩
    · obtain ⟨hq, hnot⟩ := (mem_drop ..).mp hq
      rcases List.mem_cons.mp hql with rfl | hql
      · exact hnot ⟨H.shared.one d c q hq hp, rfl⟩
      · exact hout d q hq hql
    · rw [hall q, List.mem_cons]
      simp only [mem_drop]
      constructor
      · rintro (hq | ⟨d, hd⟩)
        · exact Or.inl (Or.inr hq)
        · by_cases hqp : q = p
          · exact Or.inl (Or.inl hqp)
          · exact Or.inr ⟨d, hd, fun h => hqp h.2⟩
      · rintro ((rfl | hq) | ⟨d, hd, -⟩)
        · exact Or.inr ⟨c, hp⟩
        · exact Or.inl hq
        · exact Or.inr ⟨d, hd⟩
    · exact H.shared.one d e q ((mem_drop ..).mp hd).1 ((mem_drop ..).mp he).1
  · exact fun d hd q hq => (mem_drop ..).mpr ⟨hq, fun h => hd h.1⟩
  · rw [goto_pc_self, at_goto]
    trivial

/-- A page is passed on. -/
theorem give (H : Sound coreid all s) {p : ℕ} {d : ι} (hpc : s.pc c = .idle) (hp : p ∈ s.own c) :
    Turned coreid all s ((s.drop c p).take d p) c := by
  have hmem : ∀ e q, q ∈ ((s.drop c p).take d p).own e ↔
      (q ∈ s.own e ∧ q ≠ p) ∨ (e = d ∧ q = p) := by
    intro e q
    rw [mem_take, mem_drop]
    constructor
    · rintro (⟨hq, hnot⟩ | h)
      · exact Or.inl ⟨hq, fun hqp => hnot ⟨H.shared.one e c p (hqp ▸ hq) hp, hqp⟩⟩
      · exact Or.inr h
    · rintro (⟨hq, hqp⟩ | h)
      · exact Or.inl ⟨hq, fun h => hqp h.2⟩
      · exact Or.inr h
  obtain ⟨l, hchain, hout, hall⟩ := H.shared.list
  refine H.turn (c := c) H.exclusive (fun _ _ => rfl) (fun _ _ => rfl) (H.coupled c)
    ⟨⟨l, hchain, fun e q hq => ?_, fun q => ?_⟩, fun e f q he hf => ?_⟩ (fun e he q hq => ?_)
    (fun _ hx => absurd rfl hx) (fun h => absurd rfl h) ?_
  · rcases (hmem e q).mp hq with ⟨hq, -⟩ | ⟨-, rfl⟩
    · exact hout e q hq
    · exact hout c q hp
  · rw [hall q]
    refine or_congr_right ⟨?_, ?_⟩
    · rintro ⟨e, he⟩
      by_cases hqp : q = p
      · exact ⟨d, (hmem d q).mpr (Or.inr ⟨rfl, hqp⟩)⟩
      · exact ⟨e, (hmem e q).mpr (Or.inl ⟨he, hqp⟩)⟩
    · rintro ⟨e, he⟩
      rcases (hmem e q).mp he with ⟨he, -⟩ | ⟨-, rfl⟩
      · exact ⟨e, he⟩
      · exact ⟨c, hp⟩
  · rcases (hmem e q).mp he with ⟨he, hqp⟩ | ⟨rfl, rfl⟩ <;>
      rcases (hmem f q).mp hf with ⟨hf, hqp'⟩ | ⟨rfl, hq⟩
    · exact H.shared.one e f q he hf
    · exact absurd hq hqp
    · exact absurd rfl hqp'
    · rfl
  · refine (hmem e q).mpr (Or.inl ⟨hq, ?_⟩)
    rintro rfl
    exact he (H.shared.one e c q hq hp)
  · rw [take_pc, drop_pc, hpc]
    trivial

/-- **One turn keeps the invariant.** -/
theorem step (H : Sound coreid all s) (t : Turn ι) (call : Option (PageCall ι)) :
    Turned coreid all s (s.step coreid t call) t.core := by
  have hat := H.knows t.core
  have hcoupled := H.coupled t.core
  cases hpc : s.pc t.core <;> rw [hpc] at hat hcoupled <;> simp only [PageCores.step, hpc]
  case idle =>
    rcases call with _ | _ | p | ⟨x, b⟩ | ⟨p, d⟩
    · exact H.stay t.core
    · exact H.goto (Or.inl hcoupled) trivial
    · dsimp only
      split
      case isTrue hp => exact H.goto hcoupled ⟨hp, by decide⟩
      case isFalse => exact H.stay t.core
    · dsimp only
      split
      case isTrue hp =>
        have hmem : ∀ y, (s.store x b).mem y ≠ s.mem y → ∃ q ∈ s.own t.core, y ∈ block q pageSize :=
          fun y => store_ne (k := x % pageSize) hp (Nat.mod_lt _ (by decide))
            (Nat.sub_add_cancel (Nat.mod_le _ _)).symm
        refine H.turn H.exclusive (fun _ _ => rfl) (fun _ _ => rfl) (H.coupled t.core)
          ((H.shared_mem hmem).congr rfl rfl rfl) (fun _ _ _ h => h) hmem (fun h => absurd rfl h) ?_
        rw [store_pc, hpc]
        trivial
      case isFalse => exact H.stay t.core
    · dsimp only
      split
      case isTrue hp => exact H.give hpc hp
      case isFalse => exact H.stay t.core
  case allocLock => exact H.lockTurn t (by rw [hpc]; rfl) rfl trivial
  case allocHead =>
    split
    case isTrue hnull => exact H.goto_same (by rw [hpc]; rfl) hnull
    case isFalse hne => exact H.goto_same (by rw [hpc]; rfl) ⟨rfl, hne⟩
  case allocNext p => exact H.goto_same (by rw [hpc]; rfl) ⟨hat.1, hat.2, rfl⟩
  case allocStore p n => exact H.pop hpc
  case allocUnlock p =>
    exact H.unlockTurn t (by rw [hpc]; rfl) rfl ⟨hat, by decide, fun _ hi => absurd hi (by omega)⟩
  case allocZero p k =>
    obtain ⟨hp, hk, hzero⟩ := hat
    have hmem := fun y => store_ne (s := s) (y := y) (b := 0) hp hk rfl
    split
    case isTrue hlast =>
      refine H.write hmem hcoupled ⟨hp, hlast, fun i hi => ?_⟩
      by_cases hik : i = k
      · rw [hik]
        exact Function.update_self _ _ _
      · exact (Function.update_of_ne (by omega) _ _).trans (hzero i (by omega))
    case isFalse => exact H.write hmem hcoupled trivial
  case outOfPages => exact H.stay t.core
  case freeZero p k =>
    obtain ⟨hp, hk⟩ := hat
    have hmem := fun y => store_ne (s := s) (y := y) (b := 0) hp hk rfl
    split
    case isTrue hlast => exact H.write hmem hcoupled ⟨hp, hlast⟩
    case isFalse => exact H.write hmem (Or.inl hcoupled) hp
  case freeLock p => exact H.lockTurn t (by rw [hpc]; rfl) rfl hat
  case freeHead p => exact H.goto_same (by rw [hpc]; rfl) ⟨hat, rfl⟩
  case freeLink p h =>
    obtain ⟨hp, rfl⟩ := hat
    refine H.write (fun y hy => ⟨p, hp, ?_⟩) hcoupled ⟨hp, read64_write64 _ _ H.freelist_lt⟩
    by_contra hny
    refine hy (writeLe_of_notMem fun h => hny ?_)
    simp only [mem_block, pageSize] at h ⊢
    omega
  case freeStore p => exact H.push hpc
  case freeUnlock => exact H.unlockTurn t (by rw [hpc]; rfl) rfl trivial

/-- **The invariant holds after every schedule.** -/
theorem run (H : Sound coreid all s) (sched : List (Turn ι × Option (PageCall ι))) :
    Sound coreid all (s.run coreid sched) :=
  List.foldlRecOn sched _ H fun _ hs t _ => (hs.step t.1 t.2).sound

/-- A page is handed out when its last byte is cleared, and no byte of it is left over. -/
theorem step_handed (H : Sound coreid all s) {t : Turn ι} {call : Option (PageCall ι)} {p k : ℕ}
    (hpc : s.pc t.core = .allocZero p k) (hidle : (s.step coreid t call).pc t.core = .idle) :
    p ∈ (s.step coreid t call).own t.core ∧
      ∀ x ∈ block p pageSize, (s.step coreid t call).mem x = 0 := by
  have hat := H.knows t.core
  rw [hpc] at hat
  obtain ⟨hp, hk, hzero⟩ := hat
  simp only [PageCores.step, hpc] at hidle ⊢
  rw [goto_pc_self] at hidle
  split at hidle
  case isTrue => cases hidle
  case isFalse hlast =>
    refine ⟨hp, fun x hx => ?_⟩
    obtain ⟨i, rfl⟩ := Nat.exists_eq_add_of_le hx.1
    have hi : i < pageSize := by
      have := hx.2
      omega
    by_cases hik : i = k
    · rw [hik]
      exact Function.update_self _ _ _
    · exact (Function.update_of_ne (by omega) _ _).trans (hzero i (by omega))

end Sound

/-- The pages are free at the start. -/
theorem sound_start {r : Ram} {l : List ℕ} {monitor : ι → Bool} (H : r.Pool l) :
    Sound coreid l (start r monitor) where
  exclusive := SpinCores.exclusive_start H.lock_free
  coupled _ := rfl
  shared := by
    refine ⟨⟨l, H.chain, fun c p hp => absurd hp (Finset.notMem_empty p), fun p => ?_⟩,
      fun c d p hp => absurd hp (Finset.notMem_empty p)⟩
    exact ⟨Or.inl, fun h => h.resolve_right fun ⟨c, hp⟩ => absurd hp (Finset.notMem_empty p)⟩
  page p hp := ⟨H.page p hp, H.ne_zero hp⟩
  knows _ := trivial

end invariant

/-! ## No page left -/

section empty
variable {ι : Type} [DecidableEq ι] {coreid : ι → ℕ} {s : PageCores ι} {all : List ℕ}

theorem lockTurn_pc_of_ne {t : Turn ι} {next : PagePc} {d : ι} (h : d ≠ t.core) :
    (s.lockTurn coreid t next).pc d = s.pc d := by
  simp only [lockTurn]
  split
  · exact goto_pc_of_ne _ h
  · rfl

theorem unlockTurn_pc_of_ne {t : Turn ι} {next : PagePc} {d : ι} (h : d ≠ t.core) :
    (s.unlockTurn coreid t next).pc d = s.pc d := by
  simp only [unlockTurn]
  split
  · exact goto_pc_of_ne _ h
  · rfl

/-- The other cores stay where they are. -/
theorem step_pc_of_ne {t : Turn ι} {call : Option (PageCall ι)} {d : ι} (h : d ≠ t.core) :
    (s.step coreid t call).pc d = s.pc d := by
  simp only [step]
  cases s.pc t.core
  case idle =>
    rcases call with _ | _ | p | ⟨x, b⟩ | ⟨p, e⟩
    · rfl
    · exact goto_pc_of_ne _ h
    · dsimp only
      split
      · exact goto_pc_of_ne _ h
      · rfl
    all_goals
      dsimp only
      split <;> rfl
  case allocLock | freeLock => exact lockTurn_pc_of_ne h
  case allocUnlock | freeUnlock => exact unlockTurn_pc_of_ne h
  case outOfPages => rfl
  all_goals exact goto_pc_of_ne _ h

/-- While a core that found no page has the lock, a core that waits for it goes on waiting. -/
theorem Sound.step_waits (H : Sound coreid all s) {c d : ι} (hc : s.pc c = .outOfPages)
    (hd : (s.pc d).phase = .taking) (t : Turn ι) (call : Option (PageCall ι)) :
    (s.step coreid t call).pc d = s.pc d := by
  by_cases hdt : d = t.core
  · subst hdt
    have hne : c ≠ t.core := by
      rintro rfl
      rw [hc] at hd
      cases hd
    have hlock : ∀ next, (s.lockTurn coreid t next).pc t.core = s.pc t.core := by
      intro next
      simp only [PageCores.lockTurn]
      split
      case isTrue hin =>
        -- both would have the lock
        have hholds : ((s.spin.step coreid t).pc c).holds = true := by
          rw [SpinCores.step_pc_of_ne hne, H.inside (by rw [hc]; rfl)]
          rfl
        exact absurd ((H.exclusive.step t).unique c t.core hholds (by rw [hin]; rfl)) hne
      case isFalse => rfl
    cases hpc : s.pc t.core <;> rw [hpc] at hd <;> simp only [PageCores.step, hpc] <;>
      first | exact (hlock _).trans hpc | cases hd
  · exact step_pc_of_ne hdt

end empty

end PageCores

section
variable {ι : Type} [DecidableEq ι]

/-- **Each page is free or of one core**, after every schedule of single accesses.  A turn leaves
the pages of the other cores as they are, a page is handed out with zeros only, and the lock is
given back without an abort. -/
theorem pages_one_owner (coreid : ι → ℕ) (monitor : ι → Bool) {r : Ram} {l : List ℕ}
    (H : r.Pool l) (sched : List (Turn ι × Option (PageCall ι))) :
    let S := (PageCores.start r monitor).run coreid sched
    (∃ free, Chain (read64 S.mem) S.freelist free ∧ (∀ c, ∀ p ∈ S.own c, p ∉ free) ∧
      ∀ p, p ∈ l ↔ p ∈ free ∨ ∃ c, p ∈ S.own c) ∧
    (∀ c d p, p ∈ S.own c → p ∈ S.own d → c = d) ∧
    (∀ c, S.spin.pc c ≠ .invalidUnlock) ∧
    ∀ t call, let S' := S.step coreid t call
      (∀ c, c ≠ t.core → ∀ p ∈ S.own c,
        p ∈ S'.own c ∧ Set.EqOn S'.mem S.mem (block p pageSize)) ∧
      ∀ p k, S.pc t.core = .allocZero p k → S'.pc t.core = .idle →
        p ∈ S'.own t.core ∧ ∀ x ∈ block p pageSize, S'.mem x = 0 := by
  intro S
  have hS : PageCores.Sound coreid l S := (PageCores.sound_start H).run sched
  refine ⟨hS.shared.list, hS.shared.one, hS.exclusive.valid, fun t call => ?_⟩
  have hturn := hS.step t call
  refine ⟨fun c hc p hp => ⟨hturn.own c hc p hp, ?_⟩, fun p k => hS.step_handed⟩
  exact hS.eqOn hturn.mem (hS.mem_all hp) fun hpt => hc (hS.shared.one c t.core p hp hpt)

/-- Two free pages. -/
def twoPages : Ram where
  core := 0
  mem := write64 (fun _ => 0) 0x1000 0x2000
  pages := { lock := { coreid := -1, word := 0 }, freelist := 0x1000 }

/-- The cores 0 and 1 take pages by turns, and core 1 waits for the lock. -/
def twoAllocs : List (Turn (Fin 2) × Option (PageCall (Fin 2))) :=
  [(⟨0, true⟩, some .alloc), (⟨1, true⟩, some .alloc)] ++
    (List.replicate 12 [(⟨0, true⟩, none), (⟨1, true⟩, none)]).flatten ++
    List.replicate 5 (⟨1, true⟩, none)

/-- Each of the two gets a page of its own. -/
theorem pages_one_owner_two :
    let S := (PageCores.start twoPages fun _ => false).run Fin.val twoAllocs
    S.own 0 = {0x1000} ∧ S.own 1 = {0x2000} ∧ ∀ c d p, p ∈ S.own c → p ∈ S.own d → c = d := by
  have hpool : twoPages.Pool [0x1000, 0x2000] :=
    ⟨⟨rfl, by decide, rfl, by decide, rfl⟩, by
      intro p hp
      simp only [List.mem_cons, List.not_mem_nil, or_false] at hp
      rcases hp with rfl | rfl <;> constructor <;> decide, rfl⟩
  have hone := pages_one_owner Fin.val (fun _ => false) hpool twoAllocs
  exact ⟨by decide +kernel, by decide +kernel, hone.2.1⟩

/-- **After one core found no page, no core gets one**, and no page comes back: the core keeps the
lock, a core in `arch_spin_lock` of `alloc_one_page` or `free_one_page` never leaves it, and every
page is some core's. -/
theorem out_of_pages_for_ever (coreid : ι → ℕ) (monitor : ι → Bool) {r : Ram} {l : List ℕ}
    (H : r.Pool l) (sched later : List (Turn ι × Option (PageCall ι))) {c : ι}
    (hc : ((PageCores.start r monitor).run coreid sched).pc c = .outOfPages) :
    let S := (PageCores.start r monitor).run coreid sched
    let S' := S.run coreid later
    S'.pc c = .outOfPages ∧ S'.freelist = 0 ∧ (∀ p, p ∈ l ↔ ∃ d, p ∈ S'.own d) ∧
      ∀ d, (S.pc d).phase = .taking → S'.pc d = S.pc d := by
  intro S S'
  have hS : PageCores.Sound coreid l S := (PageCores.sound_start H).run sched
  have hkept : PageCores.Sound coreid l S' ∧ S'.pc c = .outOfPages ∧
      ∀ d, (S.pc d).phase = .taking → S'.pc d = S.pc d := by
    refine List.foldlRecOn (motive := fun s => PageCores.Sound coreid l s ∧ s.pc c = .outOfPages ∧
      ∀ d, (S.pc d).phase = .taking → s.pc d = S.pc d) later _ ⟨hS, hc, fun _ _ => rfl⟩ ?_
    rintro s ⟨hs, hpc, hwait⟩ t -
    refine ⟨(hs.step t.1 t.2).sound, ?_, fun d hd => ?_⟩
    · by_cases hct : c = t.1.core
      · subst hct
        simp only [PageCores.step, hpc]
      · rw [PageCores.step_pc_of_ne hct, hpc]
    · rw [hs.step_waits hpc (by rw [hwait d hd]; exact hd), hwait d hd]
  obtain ⟨hS', hpc, hwait⟩ := hkept
  have hnull : S'.freelist = 0 := by
    have hknows := hS'.knows c
    rwa [hpc] at hknows
  refine ⟨hpc, hnull, fun p => ?_, hwait⟩
  obtain ⟨free, hchain, -, hall⟩ := hS'.shared.list
  rw [hall p, hchain.eq_nil_iff.mpr hnull]
  simp

/-- No free page. -/
def emptyCores : Ram where
  core := 0
  mem := fun _ => 0
  pages := { lock := { coreid := -1, word := 0 }, freelist := 0 }

/-- Core 0 asks for a page that is not there, then core 1 begins to. -/
def emptyAllocs : List (Turn (Fin 2) × Option (PageCall (Fin 2))) :=
  (⟨0, true⟩, some .alloc) :: List.replicate 5 (⟨0, true⟩, none) ++ [(⟨1, true⟩, some .alloc)]

/-- Core 1 waits. -/
theorem out_of_pages_for_ever_two :
    (((PageCores.start emptyCores fun _ => false).run Fin.val emptyAllocs).run Fin.val
      (List.replicate 20 (⟨1, true⟩, none))).pc 1 = .allocLock := by
  have hpool : emptyCores.Pool [] := ⟨rfl, nofun, rfl⟩
  have hnull : ((PageCores.start emptyCores fun _ => false).run Fin.val emptyAllocs).pc 0 =
      .outOfPages := by decide +kernel
  have hwaits : ((PageCores.start emptyCores fun _ => false).run Fin.val emptyAllocs).pc 1 =
      .allocLock := by decide +kernel
  have hlater := (out_of_pages_for_ever Fin.val (fun _ => false) hpool emptyAllocs
    (List.replicate 20 (⟨1, true⟩, none)) hnull).2.2.2 1
  rw [hwaits] at hlater
  exact hlater rfl

end

end Xhyper
