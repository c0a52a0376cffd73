import Xhyper.Lib.Tlb
import Xhyper.Secondary

/-!
# The cores' lookaside buffers

Each core has a buffer with the pages that its stage-2 walks found.  It takes what a walk finds at
any moment, also before the core enters a guest, and knows nothing of later changes of tables or of
the control registers.  All machines have the same number in `vttbr_el2`, so the buffer does not
tell them apart.

`flush_tlb` empties the buffer of the core that runs only.  `switch_vcpu` calls it when the table of
the machine is set, and that is enough: from then on the core's translations never change.  So a
guest finds through the buffers what it finds without them, and the runs with buffers are the runs
without.  The call in `create_mmio_trap` empties what the core has under the number that is in
`vttbr_el2` at that time; nothing rests on it, and here it is one of the times when a buffer may
lose what it has.

## Main definitions

* `BoardStep.access_kept` — a core that is in a guest translates the same after every step.
* `BufferedStep` — the steps of the board with buffers.
* `buffers_coherent` — what the buffers of cores in guests have is what the walks find.
-/

namespace Xhyper

open Memory Prog

section access
variable {P : Platform} {himageEnd : ℕ} {hyperVector : BitVec 64} {b₀ b b' : Board}
  {own own' : ℕ → Set ℕ} {trace : List BoardMove} {core c i : Fin ncpu} {ev : BoardEvent}

/-- A walk finds the same tables missing when no table is written. -/
theorem missing_frame {m m' : Mem} {r : ℕ}
    (h : ∀ p t, TableAt m r p t → Set.EqOn m' m (block t pageSize)) (ipa : ℕ) :
    ∀ (levels p : List ℕ) (t : ℕ), TableAt m r p t → p.length + levels.length ≤ 3 →
      missing m' ipa levels t = missing m ipa levels t := by
  intro levels
  induction levels with
  | nil => exact fun _ _ _ _ => rfl
  | cons level levels ih =>
      intro p t ht hlen
      rw [List.length_cons] at hlen
      have hchild : child m' t (pindex level ipa) = child m t (pindex level ipa) :=
        child_congr (readLe_congr fun _ hx => h p t ht (entry_block (pindex_lt _ _) hx))
      rw [missing, missing, hchild]
      cases hc : child m t (pindex level ipa) with
      | none => rfl
      | some u =>
          refine ih (p ++ [pindex level ipa]) u (ht.snoc (by omega) (pindex_lt _ _) hc) ?_
          rw [List.length_append, List.length_singleton]
          omega

/-- A core that runs the same virtual CPU on the same tables translates the same. -/
theorem BoardInv.access_kept (I : BoardInv himageEnd b own) (I' : BoardInv himageEnd b' own')
    (R : b.Runs c i) (R' : b'.Runs c i) (K : b.Kept b') (ipa : ℕ) (k : Vmsa.Access) :
    b'.access c ipa k = b.access c ipa k := by
  have hvm : (b'.hyp.vcpus i).vm = (b.hyp.vcpus i).vm := K.owner i R.used
  have htable := (K.machine _ R.isVm).2
  have htrans : translate b'.hyp.ram.mem (b.hyp.vms (b.hyp.vcpus i).vm).vttbr ipa =
      translate b.hyp.ram.mem (b.hyp.vms (b.hyp.vcpus i).vm).vttbr ipa := by
    rw [translate, translate, leafEntry_frame (K.tables _ R.isVm)]
  have hmissing := missing_frame (K.tables _ R.isVm) ipa [0, 1, 2] [] _ (Table.root_at _ _) le_rfl
  rw [I'.access_eq R', I.access_eq R, hvm, htable, htrans, hmissing]

/-- **From its entry on**, a core translates the same after every step. -/
theorem BoardStep.access_kept (himg : IsImage himageEnd) (hboot : BoardBooted himageEnd b₀)
    (hrun : BoardRun P himageEnd hyperVector b₀ trace b)
    (hstep : BoardStep P himageEnd hyperVector core ev b b') (hc : b.entered c = true)
    (hc' : b'.entered c = true) (ipa : ℕ) (k : Vmsa.Access) :
    b'.access c ipa k = b.access c ipa k := by
  have hrun' := hrun.step hstep
  obtain ⟨own, I⟩ := hrun.inv himg hboot
  obtain ⟨own', I', K, _⟩ := hstep.keeps himg I
  obtain ⟨i, R⟩ := I.guest c hc
  obtain ⟨j, R'⟩ := I'.guest c hc'
  obtain rfl : i = c := Option.some_inj.mp (R.running.symm.trans (hrun.number himg hboot hc))
  obtain rfl : j = i := Option.some_inj.mp (R'.running.symm.trans (hrun'.number himg hboot hc'))
  exact I.access_kept I' R R' K ipa k

end access

/-! ## Buffers -/

/-- A walk of the core `c` finds the page of that number. -/
def Board.finds (b : Board) (c : Fin ncpu) (page : ℕ) (f : Vmsa.Found) : Prop :=
  ∃ k, b.access c (page * pageSize) k = .ok f

/-- What a core makes of an address in a page that its buffer has. -/
def bufferHit (f : Vmsa.Found) (ipa : ℕ) (k : Vmsa.Access) : Except Vmsa.WalkFault Vmsa.Found :=
  if Vmsa.permits f.attr k then .ok ⟨f.pa + ipa % pageSize, f.attr⟩ else .error (.permission 3)

/-- What it makes of any address. -/
def Board.accessWith (b : Board) (t : Tlb.Buffers (Fin ncpu) ℕ Vmsa.Found) (c : Fin ncpu) (ipa : ℕ)
    (k : Vmsa.Access) : Except Vmsa.WalkFault Vmsa.Found :=
  match t c (ipa / pageSize) with
  | some f => bufferHit f ipa k
  | none => b.access c ipa k

/-- The buffers that `switch_vcpu` empties: that of the core alone. -/
def BoardEvent.flushes (core : Fin ncpu) : BoardEvent → Set (Fin ncpu)
  | .start => {core}
  | _ => ∅

/-- The steps of the board.  Where a store goes is looked up in the buffer. -/
inductive BufferedStep (P : Platform) (himageEnd : ℕ) (hyperVector : BitVec 64)
    (t : Tlb.Buffers (Fin ncpu) ℕ Vmsa.Found) : Board → Set (Fin ncpu) → Board → Prop
  | store {core : Fin ncpu} {b : Board} {ipa : ℕ} {val : Byte} {f : Vmsa.Found} :
      b.entered core = true → b.accessWith t core ipa .write = .ok f →
      BufferedStep P himageEnd hyperVector t b ∅ (b.stored f.pa val)
  | other {core : Fin ncpu} {ev : BoardEvent} {b b' : Board} : (∀ ipa val, ev ≠ .store ipa val) →
      BoardStep P himageEnd hyperVector core ev b b' →
      BufferedStep P himageEnd hyperVector t b (ev.flushes core) b'

section buffers
variable {P : Platform} {himageEnd : ℕ} {hyperVector : BitVec 64} {b₀ b b' : Board}
  {own : ℕ → Set ℕ} {c i core : Fin ncpu} {t t₀ : Tlb.Buffers (Fin ncpu) ℕ Vmsa.Found}
  {ev : BoardEvent}

/-- What a walk found serves all addresses of the page and all kinds of access. -/
theorem BoardInv.hit (I : BoardInv himageEnd b own) (R : b.Runs c i) {ipa : ℕ} {f : Vmsa.Found}
    (h : b.finds c (ipa / pageSize) f) (k : Vmsa.Access) :
    bufferHit f ipa k = b.access c ipa k := by
  obtain ⟨k₀, h⟩ := h
  have hpage : pageSize = 4096 := rfl
  have hvpn : vpn (ipa / pageSize * pageSize) = vpn ipa := by
    rw [vpn, vpn, hpage]
    omega
  have htrans : translate b.hyp.ram.mem (b.hyp.vms (b.hyp.vcpus i).vm).vttbr
      (ipa / pageSize * pageSize) =
      translate b.hyp.ram.mem (b.hyp.vms (b.hyp.vcpus i).vm).vttbr ipa := by
    rw [translate, translate, leafEntry_congr hvpn]
  have hlow : ¬ 2 ^ 44 ≤ ipa := by
    intro hle
    rw [I.access_eq R, if_pos (by rw [hpage]; omega)] at h
    cases h
  rw [I.access_eq R, htrans, if_neg (by rw [hpage]; omega)] at h
  rw [I.access_eq R, if_neg hlow]
  cases hout : translate b.hyp.ram.mem (b.hyp.vms (b.hyp.vcpus i).vm).vttbr ipa with
  | none =>
      rw [hout] at h
      cases h
  | some o =>
      obtain ⟨out, attr⟩ := o
      rw [hout] at h
      simp only at h
      split at h
      · cases h
        simp only [bufferHit, Nat.mul_mod_left, Nat.add_zero]
      · cases h

/-- A buffer with what is found makes no difference. -/
theorem BoardInv.accessWith_eq (I : BoardInv himageEnd b own) (R : b.Runs c i)
    (h : Tlb.Coherent Board.finds b t c) (ipa : ℕ) (k : Vmsa.Access) :
    b.accessWith t c ipa k = b.access c ipa k := by
  rw [Board.accessWith]
  cases ht : t c (ipa / pageSize) with
  | none => rfl
  | some f => exact I.hit R (h _ _ ht) k

/-- A core that a step starts has an empty buffer, and the others were in a guest before. -/
theorem BoardStep.entered_before (h : BoardStep P himageEnd hyperVector core ev b b')
    (hc : b'.entered c = true) (hflush : c ∉ ev.flushes core) : b.entered c = true := by
  cases h with
  | start _ =>
      have hne : c ≠ core := fun heq => hflush (Set.mem_singleton_iff.mpr heq)
      exact (Function.update_of_ne hne _ _).symm.trans hc
  | store _ _ =>
      rw [Board.stored] at hc
      split at hc <;> exact hc
  | _ => exact hc

/-- With coherent buffers a step is one of the board's. -/
theorem BufferedStep.step {flushed : Set (Fin ncpu)} {trace : List BoardMove}
    (h : BufferedStep P himageEnd hyperVector t b flushed b') (himg : IsImage himageEnd)
    (hboot : BoardBooted himageEnd b₀) (hrun : BoardRun P himageEnd hyperVector b₀ trace b)
    (hcoherent : ∀ c, b.entered c = true → Tlb.Coherent Board.finds b t c) :
    ∃ core ev, BoardStep P himageEnd hyperVector core ev b b' ∧ ev.flushes core ⊆ flushed := by
  cases h with
  | @store core _ ipa val f hcore hok =>
      obtain ⟨own, I⟩ := hrun.inv himg hboot
      obtain ⟨i, R⟩ := I.guest core hcore
      rw [I.accessWith_eq R (hcoherent core hcore)] at hok
      exact ⟨core, .store ipa val, .store hcore hok, subset_rfl⟩
  | @other core ev _ _ _ hstep => exact ⟨core, ev, hstep, subset_rfl⟩

/-- **What a core in a guest has** in its buffer, a walk finds; and the run is one without
buffers. -/
theorem buffered_inv (himg : IsImage himageEnd) (hboot : BoardBooted himageEnd b₀)
    (hrun : Tlb.Run Board.finds (BufferedStep P himageEnd hyperVector) b₀ t₀ b t) :
    (∃ trace, BoardRun P himageEnd hyperVector b₀ trace b) ∧ ∀ c, b.entered c = true →
      Tlb.Coherent Board.finds b t c := by
  refine @Tlb.Run.coherent _ _ _ _ _ _ _ _ _ _ _ _
    (fun b => ∃ trace, BoardRun P himageEnd hyperVector b₀ trace b)
    (fun b c => b.entered c = true) ⟨[], .start⟩ (fun c hc => ?_)
    (fun b₁ t₁ flushed b₂ hprefix hcoherent h => ?_) hrun
  · rw [hboot.2 c] at hc
    cases hc
  obtain ⟨trace, hrun₁⟩ := hprefix
  obtain ⟨core, ev, hstep, hflush⟩ := h.step himg hboot hrun₁ hcoherent
  refine ⟨⟨_, hrun₁.step hstep⟩, fun c hc hout => ?_⟩
  have hbefore := hstep.entered_before hc fun hin => hout (hflush hin)
  refine ⟨hbefore, fun page f hf => ?_⟩
  obtain ⟨k, hk⟩ := hf
  exact ⟨k, (hstep.access_kept himg hboot hrun₁ hbefore hc _ k).trans hk⟩

/-- A step of the board is one with coherent buffers. -/
theorem BoardStep.buffered {trace : List BoardMove}
    (h : BoardStep P himageEnd hyperVector core ev b b') (himg : IsImage himageEnd)
    (hboot : BoardBooted himageEnd b₀) (hrun : BoardRun P himageEnd hyperVector b₀ trace b)
    (hcoherent : ∀ c, b.entered c = true → Tlb.Coherent Board.finds b t c) :
    BufferedStep P himageEnd hyperVector t b (ev.flushes core) b' := by
  cases h with
  | store hcore hok =>
      obtain ⟨own, I⟩ := hrun.inv himg hboot
      obtain ⟨i, R⟩ := I.guest core hcore
      rw [← I.accessWith_eq R (hcoherent core hcore)] at hok
      exact .store hcore hok
  | create hcfg hmade => exact .other (fun _ _ h => by cases h) (.create hcfg hmade)
  | start hstart => exact .other (fun _ _ h => by cases h) (.start hstart)
  | trap hcore hend hheap hvms =>
      exact .other (fun _ _ h => by cases h) (.trap hcore hend hheap hvms)
  | compute hcore hcur => exact .other (fun _ _ h => by cases h) (.compute hcore hcur)
  | gic hcores => exact .other (fun _ _ h => by cases h) (.gic hcores)

/-- **A run without buffers** is one with buffers that have anything at first and never take more. -/
theorem BoardRun.buffered {trace : List BoardMove} (himg : IsImage himageEnd)
    (hboot : BoardBooted himageEnd b₀) (h : BoardRun P himageEnd hyperVector b₀ trace b)
    (t₀ : Tlb.Buffers (Fin ncpu) ℕ Vmsa.Found) :
    ∃ t, Tlb.Run Board.finds (BufferedStep P himageEnd hyperVector) b₀ t₀ b t ∧
      ∀ c, (∀ mv ∈ trace, c ∉ mv.event.flushes mv.core) → t c = t₀ c := by
  classical
  induction h with
  | start => exact ⟨t₀, .start, fun _ _ => rfl⟩
  | @step _ core ev b₁ b₂ hrun hstep ih =>
      obtain ⟨t, hbuffered, hkept⟩ := ih
      have hnext := hstep.buffered himg hboot hrun (buffered_inv himg hboot hbuffered).2
      refine ⟨fun c => if c ∈ ev.flushes core then fun _ => none else t c,
        hbuffered.step (.system hnext (fun c hc page => ?_) fun c hc => if_neg hc), fun c hc => ?_⟩
      · rw [if_pos hc]
      · refine (if_neg (hc _ List.mem_cons_self)).trans ?_
        exact hkept c fun mv hmv => hc mv (List.mem_cons_of_mem _ hmv)

/-- **The buffers make no difference.**  In every run with buffers, whatever they had at first,
each core that has entered a guest finds through its buffer what it finds without, and the run is
one without buffers. -/
theorem buffers_coherent (himg : IsImage himageEnd) (hboot : BoardBooted himageEnd b₀)
    (hrun : Tlb.Run Board.finds (BufferedStep P himageEnd hyperVector) b₀ t₀ b t) :
    (∃ trace, BoardRun P himageEnd hyperVector b₀ trace b) ∧ ∀ c, b.entered c = true →
      ∀ ipa k, b.accessWith t c ipa k = b.access c ipa k := by
  obtain ⟨⟨trace, hrun₁⟩, hcoherent⟩ := buffered_inv himg hboot hrun
  obtain ⟨own, I⟩ := hrun₁.inv himg hboot
  refine ⟨⟨trace, hrun₁⟩, fun c hc ipa k => ?_⟩
  obtain ⟨i, R⟩ := I.guest c hc
  exact I.accessWith_eq R (hcoherent c hc) ipa k

/-- All buffers have another page for the entry of a small guest. -/
def staleBuffers : Tlb.Buffers (Fin ncpu) ℕ Vmsa.Found :=
  fun _ _ => some ⟨0x5000, s2pteNormal ||| s2pteRw ||| pteAf ||| pteV⟩

/-- What the second core's buffer has up to the core's start is wrong for its guest.  It is gone
then, and after the first walk the buffer has the guest's own page. -/
theorem buffers_coherent_stale : ∃ b₀ b₁ b t₁ t, BoardBooted bootEnd b₀ ∧
    Tlb.Run Board.finds (BufferedStep obedient bootEnd 0) b₀ staleBuffers b₁ t₁ ∧
    BoardStep obedient bootEnd 0 1 .start b₁ b ∧
    b.accessWith t₁ 1 smallGuest.entryAddr .write ≠ b.access 1 smallGuest.entryAddr .write ∧
    Tlb.Run Board.finds (BufferedStep obedient bootEnd 0) b₀ staleBuffers b t ∧
    (t 1 (smallGuest.entryAddr / pageSize)).isSome ∧
    b.accessWith t 1 smallGuest.entryAddr .write = b.access 1 smallGuest.entryAddr .write := by
  obtain ⟨b₀, trace, b₁, b, a, vm, out, hboot, hmade, hfirst, hstart, T⟩ :=
    exists_two_entered obedient 0
  obtain ⟨own, I⟩ := (hmade.step hstart).inv isImage_bootEnd hboot
  have haccess := T.access I (k := .write) (by decide)
  -- up to the start of the second core its buffer is as it was
  obtain ⟨t₁, hbuffered₁, hkept⟩ := hmade.buffered isImage_bootEnd hboot staleBuffers
  have hstale : t₁ 1 = staleBuffers 1 := by
    refine hkept 1 fun mv hmv hin => ?_
    cases hev : mv.event with
    | start =>
        rw [hev, hfirst mv hmv hev] at hin
        exact absurd (Set.mem_singleton_iff.mp hin) (by decide)
    | _ =>
        rw [hev] at hin
        exact hin
  -- the start empties it, and a walk fills it again
  have hnext := hstart.buffered isImage_bootEnd hboot hmade
    (buffered_inv isImage_bootEnd hboot hbuffered₁).2
  have hemptied : Tlb.Run Board.finds (BufferedStep obedient bootEnd 0) b₀ staleBuffers b
      (Function.update t₁ 1 fun _ => none) := by
    refine hbuffered₁.step (.system hnext (fun c hc page => ?_) fun c hc => ?_)
    · rw [Set.mem_singleton_iff.mp hc, Function.update_self]
    · exact Function.update_of_ne (fun h => hc (Set.mem_singleton_iff.mpr h)) _ _
  have hfinds : b.finds 1 (smallGuest.entryAddr / pageSize)
      ⟨out, s2pteNormal ||| s2pteRw ||| pteAf ||| pteV⟩ := ⟨.write, haccess⟩
  have hfilled := hemptied.step (.fill hfinds)
  refine ⟨b₀, b₁, b, t₁, _, hboot, hbuffered₁, hstart, ?_, hfilled, ?_, ?_⟩
  · have hbehind := T.behind
    rw [haccess, Board.accessWith, hstale]
    simp only [staleBuffers, bufferHit]
    rw [if_pos (by decide), ne_eq, Except.ok.injEq, Vmsa.Found.mk.injEq]
    rintro ⟨hpa, _⟩
    simp only [smallGuest, pageSize, bootEnd] at hpa hbehind
    omega
  · rw [Function.update_self, Function.update_self]
    rfl
  · exact (buffers_coherent isImage_bootEnd hboot hfilled).2 1 T.second.1 _ .write

end buffers

end Xhyper
