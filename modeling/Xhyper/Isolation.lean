import Xhyper.GuestEntry

/-!
# Isolation of the machines' memory

The free list, the tables of all machines and the pages they map are tied together by who
owns a page: it is free, or it was taken while one machine was made.  Making a machine moves
pages from the free list to the new machine, and no step moves them further.

## Main definitions

* `IsVm` — a machine of a state.
* `Isolated` — the invariant, with the pages that each machine owns.
* `OwnPage`, `stage2_isolation` — what a page is that a machine's table translates to.
-/

namespace Xhyper

open Memory Prog

/-- A machine that was made: some virtual CPU in use points to it. -/
def IsVm (s : Hyp) (vm : ℕ) : Prop := ∃ i, (s.vcpus i).state ≠ .unused ∧ (s.vcpus i).vm = vm

/-- **Every page has one owner.**  The pages of `own vm` are those of the machine `vm`: they
are behind the image, not free, and no other machine's, and they hold its tables. -/
structure Isolated (himageEnd : ℕ) (s : Hyp) (own : ℕ → Set ℕ) : Prop where
  pool : ∃ l, s.ram.Pool l ∧ (∀ p ∈ l, himageEnd ≤ p) ∧ ∀ vm, IsVm s vm → ∀ p ∈ own vm, p ∉ l
  page : ∀ vm, IsVm s vm → ∀ p ∈ own vm, IsPage p ∧ himageEnd ≤ p
  held : ∀ vm, IsVm s vm → Held s.ram.mem (s.vms vm).vttbr (own vm)
  apart : ∀ a b, IsVm s a → IsVm s b → a ≠ b → Disjoint (own a) (own b)

section isolated
variable {himageEnd : ℕ} {s s' : Hyp} {own : ℕ → Set ℕ}

/-- Steps that do not concern memory keep the owners. -/
theorem Isolated.congr (I : Isolated himageEnd s own) (hmem : s'.ram.mem = s.ram.mem)
    (hpages : s'.ram.pages = s.ram.pages) (hvms : s'.vms = s.vms)
    (hvm : ∀ a, IsVm s' a → IsVm s a) : Isolated himageEnd s' own := by
  obtain ⟨l, H, hl, hused⟩ := I.pool
  refine ⟨⟨l, H.frame hpages fun _ _ _ _ => by rw [hmem], hl, fun a ha => hused a (hvm a ha)⟩,
    fun a ha => I.page a (hvm a ha), fun a ha => ?_,
    fun a b ha hb => I.apart a b (hvm a ha) (hvm b hb)⟩
  rw [hmem, hvms]
  exact I.held a (hvm a ha)

/-- The machines after one was made. -/
theorem Run.isVm {vm base n : ℕ} (R : Run s s' vm base n .ready) {a : ℕ} (h : IsVm s' a) :
    a = vm ∨ IsVm s a := by
  obtain ⟨i, hused, hi⟩ := h
  by_cases hin : base ≤ i.val ∧ i.val < base + n
  · rw [R.vm_eq i hin.1 hin.2] at hi
    exact Or.inl hi.symm
  · rw [R.other_vcpus i hin] at hused hi
    exact Or.inr ⟨i, hused, hi⟩

/-- **Making a machine** moves pages from the free list to it. -/
theorem Isolated.create {live : List ℕ} {base vm : ℕ} {cfg : VmConfig}
    (I : Isolated himageEnd s own) (himg : IsImage himageEnd)
    (G : Guested (poolStart himageEnd) live base cfg s vm s')
    (hcfg : GuestPlaced cfg) :
    ∃ l l', s.ram.Pool l ∧ s'.ram.Pool l' ∧
      Isolated himageEnd s' (Function.update own vm {p | p ∈ l ∧ p ∉ l'}) := by
  obtain ⟨l, H, hl, hused⟩ := I.pool
  obtain ⟨l', M⟩ := G.table.placed hcfg H (himg.highPages hl)
  have hold : ∀ a, a ≠ vm → IsVm s' a → IsVm s a := fun a ha h => (G.run.isVm h).resolve_left ha
  have himage : pageSize ≤ himageEnd := by
    have hpool := himg.pool
    simp only [pageSize, himageVaddr] at *
    omega
  -- the other machines' pages are not written
  have hsame : ∀ a, IsVm s a → ∀ p ∈ own a, Set.EqOn s'.ram.mem s.ram.mem (block p pageSize) := by
    intro a ha p hp x hx
    obtain ⟨hpage, hhigh⟩ := I.page a ha p hp
    have hxhigh : himageEnd ≤ x := hhigh.trans (mem_block.mp hx).1
    refine M.frame x (himage.trans hxhigh) (fun hxh => ?_) fun q hq hxq => ?_
    · have hheap := (himg.highPages (l := [himageEnd]) (by simp)).heap himageEnd
        List.mem_cons_self
      simp only [mem_block] at hxh
      omega
    · apply hused a ha p hp
      rw [page_disjoint hpage.aligned (H.page q hq).aligned hx hxq]
      exact hq
  refine ⟨l, l', H, M.pool, ⟨l', M.pool, fun p hp => hl p (M.free p hp), ?_⟩, ?_, ?_, ?_⟩
  · intro a ha p hp hpl'
    by_cases hav : a = vm
    · rw [hav, Function.update_self] at hp
      exact hp.2 hpl'
    · rw [Function.update_of_ne hav] at hp
      exact hused a (hold a hav ha) p hp (M.free p hpl')
  · intro a ha p hp
    by_cases hav : a = vm
    · rw [hav, Function.update_self] at hp
      exact ⟨H.page p hp.1, hl p hp.1⟩
    · rw [Function.update_of_ne hav] at hp
      exact I.page a (hold a hav ha) p hp
  · intro a ha
    by_cases hav : a = vm
    · rw [hav, Function.update_self]
      exact M.held
    · rw [Function.update_of_ne hav, G.run.other_vms a hav]
      have ha' := hold a hav ha
      exact (I.held a ha').frame (hsame a ha')
  · intro a b ha hb hab
    by_cases hav : a = vm
    · have hbv : b ≠ vm := fun h => hab (hav.trans h.symm)
      rw [hav, Function.update_self, Function.update_of_ne hbv, Set.disjoint_left]
      exact fun p hp hpb => hused b (hold b hbv hb) p hpb hp.1
    · rw [Function.update_of_ne hav]
      by_cases hbv : b = vm
      · rw [hbv, Function.update_self, Set.disjoint_left]
        exact fun p hpa hp => hused a (hold a hav ha) p hpa hp.1
      · rw [Function.update_of_ne hbv]
        exact I.apart a b (hold a hav ha) (hold b hbv hb) hab

/-- After boot the free list has all pages behind the image. -/
theorem Booted.pool (himg : IsImage himageEnd) (h : Booted himageEnd s) :
    s.ram.Pool (initPages himageEnd ((phyEnd - himageEnd) / pageSize)) := by
  obtain ⟨s₀, hfree, hlock, hrun⟩ := h
  have hwp : wp (hyperInit himageEnd) (fun _ s => s.ram.Pool (initPages himageEnd
      ((phyEnd - himageEnd) / pageSize))) (fun _ _ => False) s₀ := by
    rw [hyperInit, wp_bind, wp_zoom, xmallocInit]
    refine (wp_blkPoolInit himg.region).mpr ?_
    generalize ht : Hyp.heapPart.set _ s₀ = t
    have hpages : t.ram.pages = s₀.ram.pages := by
      simp only [← ht, Hyp.set_heapPart]
    refine hyperInit_pages himg ?_ ?_
    · rw [hpages, hlock]
    · rw [hpages, hfree]
  have H := ok_of_wp hwp hrun
  exact H

/-- **After boot** all pages behind the image are free, and there is no machine. -/
theorem Booted.isolated (himg : IsImage himageEnd) (h : Booted himageEnd s) :
    Isolated himageEnd s fun _ => ∅ := by
  have hused := (h.slots himg).2
  have hnone : ∀ {Q : Prop} vm, IsVm s vm → Q := by
    rintro Q vm ⟨i, hi, _⟩
    exact absurd ((hused i).mpr (Nat.zero_le _)) hi
  refine ⟨⟨_, h.pool himg, fun p hp => ?_, fun vm => hnone vm⟩, fun vm => hnone vm,
    fun vm => hnone vm, fun vm _ h => hnone vm h⟩
  obtain ⟨i, _, rfl⟩ := mem_initPages.mp hp
  exact Nat.le_add_right _ _

end isolated

/-! ## Runs -/

/-- The pages that were free before and are not any more. -/
def HandedOut (r r' : Ram) (p : ℕ) : Prop := ∃ l l', r.Pool l ∧ r'.Pool l' ∧ p ∈ l ∧ p ∉ l'

/-- The step made the machine `vm`. -/
def Transition.Makes (tr : Transition) (vm : ℕ) : Prop :=
  (∃ cfg, tr.event = .create cfg) ∧ ¬ IsVm tr.pre vm ∧ IsVm tr.post vm

/-- The machines of a run have their RAM and device trees in place. -/
def PlacedRun (trace : List Transition) : Prop :=
  ∀ tr ∈ trace, ∀ cfg, tr.event = .create cfg → GuestPlaced cfg

section runs
variable {P : Platform} {himageEnd : ℕ} {trace : List Transition} {s s' : Hyp} {core : Fin ncpu}
  {own : ℕ → Set ℕ}

/-- **One step** keeps the owners, and a new owner was handed its pages in this step. -/
theorem VcpuStep.isolated {ev : HypEvent} (himg : IsImage himageEnd)
    (h : VcpuStep P (poolStart himageEnd) core s ev s') (I : Isolated himageEnd s own)
    (hcfg : ∀ cfg, ev = .create cfg → GuestPlaced cfg) :
    ∃ own', Isolated himageEnd s' own' ∧ ∀ vm, IsVm s' vm → (IsVm s vm ∧ own' vm = own vm) ∨
      ((Transition.mk s ev s').Makes vm ∧ ∀ p ∈ own' vm, HandedOut s.ram s'.ram p) := by
  have Icore : Isolated himageEnd (s.onCore core) own := I.congr rfl rfl rfl fun _ h => h
  cases h with
  | create hu hlive G =>
      rename_i cfg vm base live
      have hnew : ¬ IsVm s vm := by
        rintro ⟨i, hi, rfl⟩
        exact G.new (hlive i hi)
      obtain ⟨l, l', H, H', I'⟩ := Icore.create himg G (hcfg cfg rfl)
      have H₀ : s.ram.Pool l := H.frame rfl fun _ _ _ _ => rfl
      refine ⟨_, I', fun a ha => ?_⟩
      by_cases hav : a = vm
      · subst hav
        refine Or.inr ⟨⟨⟨cfg, rfl⟩, hnew, ha⟩, fun p hp => ?_⟩
        rw [Function.update_self] at hp
        exact ⟨l, l', H₀, H', hp.1, hp.2⟩
      · exact Or.inl ⟨(G.run.isVm ha).resolve_left hav, Function.update_of_ne hav _ _⟩
  | start hs =>
      have hvm : ∀ a, IsVm s' a → IsVm s a := by
        rintro a ⟨j, hused, hj⟩
        rw [hs.vcpus] at hused hj
        by_cases hji : j = core
        · subst hji
          rw [Function.update_self] at hj
          have hready : (s.vcpus j).state = .ready := hs.ready
          exact ⟨j, by rw [hready]; exact fun h => (by cases h), hj⟩
        · rw [Function.update_of_ne hji] at hused hj
          exact ⟨j, hused, hj⟩
      exact ⟨own, Icore.congr (by rw [hs.ram]) (by rw [hs.ram]) hs.vms hvm,
        fun a ha => Or.inl ⟨hvm a ha, rfl⟩⟩
  | cpuOn hi hused =>
      rename_i v i targetCpu entryAddr
      have hvm : ∀ a, IsVm ((s.onCore core).cpuOn P i targetCpu entryAddr) a → IsVm s a := by
        rintro a ⟨j, hj, rfl⟩
        rw [cpuOn_vcpus] at hj ⊢
        by_cases hji : j = i
        · subst hji
          rw [Function.update_self]
          exact ⟨j, hused, rfl⟩
        · rw [Function.update_of_ne hji] at hj ⊢
          exact ⟨j, hj, rfl⟩
      exact ⟨own, Icore.congr rfl rfl rfl hvm, fun a ha => Or.inl ⟨hvm a ha, rfl⟩⟩

/-- **Every state of a run** has an owner for every page in use, which was handed the page
when it was made. -/
theorem HypRun.isolated (himg : IsImage himageEnd) (hrun : HypRun P himageEnd trace s)
    (hcfg : PlacedRun trace) : ∃ own, Isolated himageEnd s own ∧
      ∀ vm, IsVm s vm → ∀ p ∈ own vm, ∃ tr ∈ trace, tr.Makes vm ∧
        HandedOut tr.pre.ram tr.post.ram p := by
  induction hrun with
  | boot hboot =>
      refine ⟨_, hboot.isolated himg, fun vm _ p hp => ?_⟩
      exact absurd hp (Set.notMem_empty p)
  | step hprev hstep ih =>
      rename_i s s'
      obtain ⟨own, I, hown⟩ := ih fun tr htr => hcfg tr (List.mem_cons_of_mem _ htr)
      obtain ⟨_, hs⟩ := hstep.slots (hprev.slots himg).1
      obtain ⟨own', I', hown'⟩ := hs.isolated himg I fun cfg h =>
        hcfg _ List.mem_cons_self cfg h
      refine ⟨own', I', fun vm hvm p hp => ?_⟩
      rcases hown' vm hvm with ⟨hold, heq⟩ | ⟨hmade, hout⟩
      · obtain ⟨tr, htr, h⟩ := hown vm hold p (heq ▸ hp)
        exact ⟨tr, List.mem_cons_of_mem _ htr, h⟩
      · exact ⟨_, List.mem_cons_self, hmade, hout p hp⟩

/-- What a page is that the table of the machine `vm` translates to: it was handed out for
this machine, and it is no table, not free, behind the image, and no other machine's; or it is
the serial port. -/
structure OwnPage (himageEnd : ℕ) (trace : List Transition) (s : Hyp) (vm out : ℕ) : Prop where
  handed : out = pl011Base ∨
    ∃ tr ∈ trace, tr.Makes vm ∧ HandedOut tr.pre.ram tr.post.ram out
  no_table : ∀ vm' p t, IsVm s vm' → TableAt s.ram.mem (s.vms vm').vttbr p t → t ≠ out
  no_image : out < himageEnd → out = pl011Base
  no_free : ∃ l, s.ram.Pool l ∧ out ∉ l
  no_other : ∀ vm' ipa a, IsVm s vm' → vm' ≠ vm →
    translate s.ram.mem (s.vms vm').vttbr ipa = some (out, a) → out = pl011Base

/-- **Stage-2 isolation.**  In every state of a run, a page that a machine's table translates
to is the machine's own. -/
theorem stage2_isolation (himg : IsImage himageEnd) (hrun : HypRun P himageEnd trace s)
    (hcfg : PlacedRun trace) {vm ipa out a : ℕ} (hvm : IsVm s vm)
    (h : translate s.ram.mem (s.vms vm).vttbr ipa = some (out, a)) :
    OwnPage himageEnd trace s vm out := by
  obtain ⟨own, I, hown⟩ := hrun.isolated himg hcfg
  obtain ⟨l, H, hl, hused⟩ := I.pool
  have hdevice : pl011Base < himageEnd := by
    have hpool := himg.pool
    simp only [pageSize, himageVaddr, pl011Base] at *
    omega
  rcases (I.held vm hvm).outs ipa out a h with hout | hout
  · obtain ⟨_, hhigh⟩ := I.page vm hvm out hout
    refine ⟨Or.inr (hown vm hvm out hout), fun vm' p t hvm' ht => ?_,
      fun hlt => absurd hhigh (not_le.mpr hlt), ⟨l, H, hused vm hvm out hout⟩,
      fun vm' ipa' a' hvm' hne h' => ?_⟩
    · by_cases hsame : vm' = vm
      · subst hsame
        exact (I.held vm' hvm).apart ipa out a p t h ht
      · rintro rfl
        have hdisj := Set.disjoint_left.mp (I.apart vm' vm hvm' hvm hsame)
        exact hdisj ((I.held vm' hvm').tables p _ ht) hout
    · refine ((I.held vm' hvm').outs ipa' out a' h').resolve_left fun hout' => ?_
      exact Set.disjoint_left.mp (I.apart vm' vm hvm' hvm hne) hout' hout
  · refine ⟨Or.inl hout, fun vm' p t hvm' ht => ?_, fun _ => hout, ⟨l, H, fun hmem => ?_⟩,
      fun _ _ _ _ _ _ => hout⟩
    · obtain ⟨_, hhigh⟩ := I.page vm' hvm' t ((I.held vm' hvm').tables p t ht)
      omega
    · have hhigh := hl out hmem
      omega

end runs

/-- Two machines: the page that the second one finds at its entry is its own. -/
theorem stage2_isolation_entry : ∃ trace s a b out attr, HypRun obedient bootEnd trace s ∧
    IsVm s a ∧ IsVm s b ∧ a ≠ b ∧ out ≠ pl011Base ∧
    translate s.ram.mem (s.vms b).vttbr smallGuest.entryAddr = some (out, attr) ∧
    OwnPage bootEnd trace s b out := by
  obtain ⟨s₀, s₁, s, a, b, T⟩ := exists_two_guests obedient
  have ha : IsVm s a := ⟨0, by rw [T.first.2]; decide, T.first.1⟩
  have hb : IsVm s b := ⟨1, by rw [T.second.2]; decide, T.second.1⟩
  obtain ⟨out, hbehind, htrans⟩ := T.entry
  have hcfg : PlacedRun [⟨s₁, .create smallGuest, s⟩, ⟨s₀, .create smallGuest, s₁⟩] := by
    intro tr htr cfg hev
    simp only [List.mem_cons, List.not_mem_nil, or_false] at htr
    rcases htr with rfl | rfl <;> cases hev <;> exact smallGuest_placed
  refine ⟨_, s, a, b, out, _, T.run, ha, hb, T.ne, fun h => ?_, htrans,
    stage2_isolation isImage_bootEnd T.run hcfg hb htrans⟩
  rw [h] at hbehind
  exact absurd hbehind (by decide)

end Xhyper
