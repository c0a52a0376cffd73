import Xhyper.VmmioPublish

/-!
# The newest region serves an access

Every call of `vmmio_handler_register` puts its record in front of the list, and
`vmmio_handler` searches from the front, past records that the address is not in and past
those without a function for the direction of the access.  So the call that came last wins,
among those that registered the address and have the function.

## Main definitions

* `Registration.Answers` — the address is in the region, and the function is there.
* `LeavesList` — what other code may do between the calls.
* `RegisterHistory` — calls for one machine, with calls for others and other code in between.
* `Registry` — the list is made of the calls, the last one first.
* `vmmioHandler_newest` — who serves an access.
-/

namespace Xhyper

open Memory Prog

/-- The address is in the region, and the function for the direction is there. -/
def Registration.Answers (r : Registration) (wnr : Bool) (ipa : ℕ) : Prop :=
  (r.ipa.toNat ≤ ipa ∧ ipa < r.ipa.toNat + r.size.toNat) ∧
    (if wnr then r.vmmioWrite else r.vmmioRead) ≠ 0

/-- The region ends inside the address space. -/
def Registration.Ends (r : Registration) : Prop := r.ipa.toNat + r.size.toNat ≤ 2 ^ 64 - 1

/-! ## One call -/

section call
variable {start vm vm' : ℕ} {ds : List Listed} {d : Listed} {r : Registration} {core : Fin ncpu}
  {rc : ℤ} {s s' : Hyp}

theorem NodesApart.tail (A : NodesApart start (d :: ds) s) : NodesApart start ds s := by
  obtain ⟨live, free, B, hlive⟩ := A.blocks
  refine ⟨⟨live, free, B, ?_⟩, ?_, (List.nodup_cons.mp A.nodup).2⟩
  · exact fun e he => hlive e (List.mem_cons_of_mem d he)
  · exact fun e he => A.carved e (List.mem_cons_of_mem d he)

/-- A call that registers nothing. -/
theorem vmmioHandlerRegister_refused (hno : r.size = 0 ∨ vm' = 0)
    (hcall : vmmioHandlerRegister vm' r.ipa.toNat r.size.toNat r.vmmioRead.toNat
      r.vmmioWrite.toNat (s.onCore core) = .ok rc s') : s' = s.onCore core := by
  have hrefused : r.size.toNat = 0 ∨ vm' = 0 := by
    rcases hno with h | h
    · exact Or.inl (by rw [h]; rfl)
    · exact Or.inr h
  rw [vmmioHandlerRegister, if_pos hrefused] at hcall
  cases hcall
  rfl

/-- **A call** makes a record of what it registers, in a block of its own, in front of the
machine's list. -/
theorem NodesApart.registered (A : NodesApart start ds s) (hvm : vm' ≠ 0) (hsize : r.size ≠ 0)
    (hcall : vmmioHandlerRegister vm' r.ipa.toNat r.size.toNat r.vmmioRead.toNat
      r.vmmioWrite.toNat (s.onCore core) = .ok rc s') :
    ∃ d, d.reg = r ∧ NodesApart start (d :: ds) s' ∧ d.Carries s'.ram.mem ∧
      (readVmmio s'.ram.mem d.node).next = (s.vms vm').vmmios % 2 ^ 64 ∧
      (∀ e ∈ ds, Set.EqOn s'.ram.mem s.ram.mem e.room) ∧ (s'.vms vm').vmmios = d.node ∧
      ∀ i, i ≠ vm' → (s'.vms i).vmmios = (s.vms i).vmmios := by
  obtain ⟨live, free, B, hlive⟩ := A.blocks
  have hsize' : r.size.toNat ≠ 0 := fun h => hsize (BitVec.eq_of_toNat_eq h)
  have hspec := @vmmioHandlerRegister_spec start (s.onCore core) live free vm' r.ipa.toNat
    r.size.toNat r.vmmioRead.toNat r.vmmioWrite.toNat (B.congr rfl rfl) hvm hsize'
  obtain ⟨new, h', _, G, _, hs'⟩ := ok_of_wp hspec hcall
  have hmem : s'.ram.mem = writeVmmio s.ram.mem new
      ⟨(s.vms vm').vmmios, r.ipa.toNat, r.size.toNat, r.vmmioRead.toNat, r.vmmioWrite.toNat⟩ := by
    rw [hs']
    rfl
  have hblk : s'.sysBlk = h'.pool := by rw [hs']
  have hvms : ∃ V : Vm, V.vmmios = new ∧ s'.vms = Function.update s.vms vm' V := by
    rw [hs']
    exact ⟨_, rfl, rfl⟩
  obtain ⟨V, hV, hvms⟩ := hvms
  obtain ⟨d, hnode, hreg⟩ : ∃ d : Listed, d.node = new ∧ d.reg = r :=
    ⟨⟨new, r, s'.ram.mem⟩, rfl, rfl⟩
  have hhead : (s'.vms vm').vmmios = d.node := by
    rw [hvms, Function.update_self, hV, hnode]
  have hothers : ∀ i, i ≠ vm' → (s'.vms i).vmmios = (s.vms i).vmmios := by
    intro i hi
    rw [hvms, Function.update_of_ne hi]
  subst hnode hreg
  -- the block is taken first, and the record is written to it
  have hcongr : NodesApart start ds (s.onCore core) := A.congr rfl rfl
  have htaken : NodesApart start (d :: ds) { s.onCore core with sysBlk := h'.pool } :=
    hcongr.given hlive G rfl rfl
  have hframe : Set.EqOn s'.ram.mem s.ram.mem (d.room)ᶜ := by
    intro x hx
    rw [hmem]
    exact writeVmmio_of_notMem hx
  have hwritten : NodesApart start (d :: ds) s' := htaken.write List.mem_cons_self hblk hframe
  have hread := readVmmio_writeVmmio s.ram.mem d.node
    ⟨(s.vms vm').vmmios, d.reg.ipa.toNat, d.reg.size.toNat, d.reg.vmmioRead.toNat,
      d.reg.vmmioWrite.toNat⟩
  rw [← hmem] at hread
  refine ⟨d, rfl, hwritten, ?_, ?_, ?_, hhead, hothers⟩
  · rw [Listed.carries_iff, hread]
    refine ⟨?_, ?_, ?_, ?_⟩ <;>
    · exact Nat.mod_eq_of_lt (BitVec.isLt _)
  · rw [hread]
  · intro e he x hx
    have hne : e.node ≠ d.node := by
      intro heq
      exact (List.nodup_cons.mp hwritten.nodup).1 (List.mem_map.mpr ⟨e, he, heq⟩)
    have hdis := hwritten.disjoint (List.mem_cons_of_mem d he) List.mem_cons_self hne
    exact hframe fun hxd => Set.disjoint_left.mp hdis hx hxd

end call

/-! ## Any number of calls -/

/-- Other code leaves the list of the machine `vm` alone: its records stay in blocks of
their own, with their bytes. -/
structure LeavesList (start vm : ℕ) (s s' : Hyp) : Prop where
  head : (s'.vms vm).vmmios = (s.vms vm).vmmios
  apart : ∀ ds, Regions s vm (ds.map Listed.node) → NodesApart start ds s → NodesApart start ds s'
  bytes : ∀ ds, Regions s vm (ds.map Listed.node) → NodesApart start ds s →
    ∀ d ∈ ds, Set.EqOn s'.ram.mem s.ram.mem d.room

/-- Calls of `vmmio_handler_register` for the machine `vm`, the last one first, each on any
core; in between there are calls for other machines, and other code. -/
inductive RegisterHistory (start vm : ℕ) (s₀ : Hyp) : List Registration → Hyp → Prop
  | start : RegisterHistory start vm s₀ [] s₀
  | call {rs : List Registration} {r : Registration} {core : Fin ncpu} {rc : ℤ} {s s' : Hyp} :
      RegisterHistory start vm s₀ rs s →
      vmmioHandlerRegister vm r.ipa.toNat r.size.toNat r.vmmioRead.toNat r.vmmioWrite.toNat
        (s.onCore core) = .ok rc s' →
      RegisterHistory start vm s₀ (r :: rs) s'
  | elsewhere {rs : List Registration} {r : Registration} {core : Fin ncpu} {rc : ℤ} {vm' : ℕ}
      {s s' : Hyp} :
      RegisterHistory start vm s₀ rs s → vm' ≠ vm →
      vmmioHandlerRegister vm' r.ipa.toNat r.size.toNat r.vmmioRead.toNat r.vmmioWrite.toNat
        (s.onCore core) = .ok rc s' →
      RegisterHistory start vm s₀ rs s'
  | other {rs : List Registration} {s s' : Hyp} :
      RegisterHistory start vm s₀ rs s → LeavesList start vm s s' →
      RegisterHistory start vm s₀ rs s'

/-- **The list is made of the calls**, the last one first; a call without a region made no
record. -/
structure Registry (start vm : ℕ) (rs : List Registration) (ds : List Listed) (s : Hyp) :
    Prop extends Consistent vm ds s where
  apart : NodesApart start ds s
  regs : ds.map Listed.reg = rs.filter fun r => r.size ≠ 0

section registry
variable {start vm vm' : ℕ} {rs : List Registration} {ds : List Listed} {r : Registration}
  {core : Fin ncpu} {rc : ℤ} {s s' : Hyp}

/-- What leaves the records alone leaves the registry alone. -/
theorem Registry.frame (G : Registry start vm rs ds s) (A : NodesApart start ds s')
    (hhead : (s'.vms vm).vmmios = (s.vms vm).vmmios)
    (hbytes : ∀ d ∈ ds, Set.EqOn s'.ram.mem s.ram.mem d.room) : Registry start vm rs ds s' := by
  refine ⟨⟨?_, ?_⟩, A, G.regs⟩
  · exact G.regions.congr hhead fun d hd => Listed.next_congr (hbytes d hd)
  · exact fun d hd => (G.carries d hd).congr (hbytes d hd)

theorem Registry.onCore (G : Registry start vm rs ds s) : Registry start vm rs ds (s.onCore core) :=
  G.frame (G.apart.congr rfl rfl) rfl fun _ _ _ _ => rfl

/-- **A call for the machine** is a record more. -/
theorem Registry.call (G : Registry start vm rs ds s) (hvm : vm ≠ 0)
    (hcall : vmmioHandlerRegister vm r.ipa.toNat r.size.toNat r.vmmioRead.toNat
      r.vmmioWrite.toNat (s.onCore core) = .ok rc s') :
    ∃ ds', Registry start vm (r :: rs) ds' s' := by
  by_cases hsize : r.size = 0
  · obtain rfl := vmmioHandlerRegister_refused (Or.inl hsize) hcall
    have G' : Registry start vm rs ds (s.onCore core) := G.onCore
    refine ⟨ds, G'.toConsistent, G'.apart, ?_⟩
    rw [G'.regs, List.filter_cons_of_neg (by simpa using hsize)]
  · obtain ⟨d, hreg, A, hcarries, hnext, hbytes, hhead, _⟩ := G.apart.registered hvm hsize hcall
    refine ⟨d :: ds, ⟨⟨?_, ?_⟩, ?_⟩, A, ?_⟩
    · rw [hhead, List.map_cons]
      refine G.regions.chain.push (A.ne_zero List.mem_cons_self) ?_ ?_
      · rw [hnext, Nat.mod_eq_of_lt G.regions.pointer]
      · intro a ha
        obtain ⟨e, he, rfl⟩ := List.mem_map.mp ha
        exact Listed.next_congr (hbytes e he)
    · rw [hhead]
      exact A.lt List.mem_cons_self
    · intro e he
      rcases List.mem_cons.mp he with rfl | he
      · exact hcarries
      · exact (G.carries e he).congr (hbytes e he)
    · rw [List.map_cons, G.regs, hreg, List.filter_cons_of_pos (by simpa using hsize)]

/-- **A call for another machine** is none for this one. -/
theorem Registry.elsewhere (G : Registry start vm rs ds s) (hne : vm' ≠ vm)
    (hcall : vmmioHandlerRegister vm' r.ipa.toNat r.size.toNat r.vmmioRead.toNat
      r.vmmioWrite.toNat (s.onCore core) = .ok rc s') : Registry start vm rs ds s' := by
  by_cases hno : r.size = 0 ∨ vm' = 0
  · obtain rfl := vmmioHandlerRegister_refused hno hcall
    exact G.onCore
  · obtain ⟨hsize, hvm⟩ := not_or.mp hno
    obtain ⟨d, _, A, _, _, hbytes, _, hothers⟩ := G.apart.registered hvm hsize hcall
    exact G.frame A.tail (hothers vm hne.symm) hbytes

/-- **The list in every history**, from a machine with an empty one, by induction on the
calls. -/
theorem RegisterHistory.registry {s₀ : Hyp} (hvm : vm ≠ 0)
    (hheap : ∃ live free, Blocks start (Hyp.heapPart.get s₀) live free)
    (hempty : (s₀.vms vm).vmmios = 0) (hrun : RegisterHistory start vm s₀ rs s) :
    ∃ ds, Registry start vm rs ds s := by
  induction hrun with
  | start =>
      obtain ⟨live, free, B⟩ := hheap
      have hnone : ∀ {p : Listed → Prop}, ∀ d ∈ ([] : List Listed), p d :=
        fun d hd => absurd hd List.not_mem_nil
      refine ⟨[], ⟨⟨hempty, ?_⟩, hnone⟩, ⟨⟨live, free, B, hnone⟩, hnone, List.nodup_nil⟩, rfl⟩
      rw [hempty]
      norm_num
  | call _ hcall ih =>
      obtain ⟨ds, G⟩ := ih
      exact G.call hvm hcall
  | elsewhere _ hne hcall ih =>
      obtain ⟨ds, G⟩ := ih
      exact ⟨ds, G.elsewhere hne hcall⟩
  | other _ hother ih =>
      obtain ⟨ds, G⟩ := ih
      refine ⟨ds, G.frame ?_ hother.head ?_⟩
      · exact hother.apart ds G.regions G.apart
      · exact hother.bytes ds G.regions G.apart

end registry

/-! ## Who serves an access -/

section newest
variable {start vm : ℕ} {rs later earlier : List Registration} {ds : List Listed} {r : Registration}
  {m : Mem} {wnr : Bool} {ipa : ℕ}

/-- A record serves what its call registered. -/
theorem Listed.Carries.serves_iff {d : Listed} (C : d.Carries m) (hend : d.reg.Ends) :
    (readVmmio m d.node).Serves wnr ipa ↔ d.reg.Answers wnr ipa := by
  obtain ⟨hbase, hsize, hread, hwrite⟩ := Listed.carries_iff.mp C
  rw [Registration.Ends] at hend
  have hzero : ∀ p : BitVec 64, p.toNat ≠ 0 ↔ p ≠ 0 := by
    intro p
    rw [ne_eq, ne_eq, ← BitVec.toNat_inj]
    rfl
  rw [VmmioInfo.Serves, Registration.Answers, hbase, hsize, hread, hwrite,
    Nat.mod_eq_of_lt (by omega)]
  cases wnr with
  | false => exact and_congr_right' (hzero _)
  | true => exact and_congr_right' (hzero _)

/-- A region that answers is not empty. -/
theorem Registration.Answers.size_ne (h : r.Answers wnr ipa) : r.size ≠ 0 := by
  intro h0
  have hin := h.1
  have hzero : r.size.toNat = 0 := by
    rw [h0]
    rfl
  omega

/-- A registry without an answer has no record that serves. -/
theorem Registry.served_none {s : Hyp} (G : Registry start vm rs ds s)
    (hends : ∀ r ∈ rs, r.Ends) (hnone : ∀ r ∈ rs, ¬ r.Answers wnr ipa) :
    served s.ram.mem (ds.map Listed.node) wnr ipa = none := by
  rw [served, List.find?_eq_none]
  intro info hinfo
  obtain ⟨a, ha, rfl⟩ := List.mem_map.mp hinfo
  obtain ⟨d, hd, rfl⟩ := List.mem_map.mp ha
  have hreg : d.reg ∈ rs.filter fun r => r.size ≠ 0 := G.regs ▸ List.mem_map_of_mem hd
  have hmem : d.reg ∈ rs := (List.mem_filter.mp hreg).1
  rw [decide_eq_true_iff, (G.carries d hd).serves_iff (hends _ hmem)]
  exact hnone _ hmem

/-- The first record that serves is that of the newest answer. -/
theorem Registry.served_newest {s : Hyp} (G : Registry start vm rs ds s)
    (hends : ∀ r ∈ rs, r.Ends) (hsplit : rs = later ++ r :: earlier) (hr : r.Answers wnr ipa)
    (hlater : ∀ q ∈ later, ¬ q.Answers wnr ipa) :
    ∃ d ∈ ds, d.reg = r ∧
      served s.ram.mem (ds.map Listed.node) wnr ipa = some (readVmmio s.ram.mem d.node) := by
  have hregs := G.regs
  have hsize := hr.size_ne
  rw [hsplit, List.filter_append, List.filter_cons_of_pos (by simpa using hsize)] at hregs
  obtain ⟨ds₁, rest, rfl, hds₁, hrest⟩ := List.map_eq_append_iff.mp hregs
  obtain ⟨d, ds₂, rfl, hreg, _⟩ := List.map_eq_cons_iff.mp hrest
  have hd : d ∈ ds₁ ++ d :: ds₂ := List.mem_append_right _ List.mem_cons_self
  have hmem : d.reg ∈ rs := by
    rw [hreg, hsplit]
    exact List.mem_append_right _ List.mem_cons_self
  refine ⟨d, hd, hreg, ?_⟩
  rw [served, List.find?_eq_some_iff_append]
  refine ⟨?_, (ds₁.map Listed.node).map (readVmmio s.ram.mem),
    (ds₂.map Listed.node).map (readVmmio s.ram.mem), by simp, ?_⟩
  · rw [decide_eq_true_iff, (G.carries d hd).serves_iff (hends _ hmem), hreg]
    exact hr
  · intro info hinfo
    obtain ⟨a, ha, rfl⟩ := List.mem_map.mp hinfo
    obtain ⟨e, he, rfl⟩ := List.mem_map.mp ha
    have heds : e ∈ ds₁ ++ d :: ds₂ := List.mem_append_left _ he
    have hfilter : e.reg ∈ later.filter fun r => r.size ≠ 0 := hds₁ ▸ List.mem_map_of_mem he
    have hlate : e.reg ∈ later := (List.mem_filter.mp hfilter).1
    have hrs : e.reg ∈ rs := by
      rw [hsplit]
      exact List.mem_append_left _ hlate
    rw [Bool.not_eq_true', decide_eq_false_iff_not, (G.carries e heds).serves_iff (hends _ hrs)]
    exact hlater _ hlate

/-- **The newest region serves an access.**  After any calls for a machine, with calls for
other machines and other code in between, an access of one of its virtual CPUs goes to the
function that the last call gave among those that registered the address with a function for
the direction: with the offset in the region, which is below its size, and the value of the
register, and its result is the result.  Without such a call, no function is called and
nothing changes. -/
theorem vmmioHandler_newest {s₀ s : Hyp} (hvm : vm ≠ 0)
    (hheap : ∃ live free, Blocks start (Hyp.heapPart.get s₀) live free)
    (hempty : (s₀.vms vm).vmmios = 0) (hrun : RegisterHistory start vm s₀ rs s)
    (hends : ∀ r ∈ rs, r.Ends) {v : Fin ncpu} (hv : (s.vcpus v).vm = vm) (n : Fin 31)
    (x : VmmioAccess) :
    (∀ later r earlier, rs = later ++ r :: earlier → r.Answers x.wnr x.ipa →
      (∀ q ∈ later, ¬ q.Answers x.wnr x.ipa) →
      x.ipa - r.ipa.toNat < r.size.toNat ∧ ∀ H : VmmioHandlers, vmmioHandler H v n x s =
        if x.wnr then
          H.write r.vmmioWrite.toNat v (x.ipa - r.ipa.toNat) ((s.vcpus v).regs.x n) x s
        else H.read r.vmmioRead.toNat v (x.ipa - r.ipa.toNat) (some n) x s) ∧
    ((∀ r ∈ rs, ¬ r.Answers x.wnr x.ipa) →
      ∃ rc, ∀ H : VmmioHandlers, vmmioHandler H v n x s = .ok rc s) := by
  obtain ⟨ds, G⟩ := hrun.registry hvm hheap hempty
  subst hv
  have hhandler := fun H => @vmmioHandler_eq H s v _ x hvm G.regions n
  simp only [vmmioReg_of_fin, vmmioVal_of_fin] at hhandler
  constructor
  · intro later r earlier hsplit hr hlater
    obtain ⟨d, hd, rfl, hserved⟩ := G.served_newest hends hsplit hr hlater
    have hin := hr.1
    refine ⟨by omega, fun H => ?_⟩
    have hcall := congrFun ((G.carries d hd).call_eq H v (some n) ((s.vcpus v).regs.x n) x) s
    rw [hhandler, hserved]
    refine hcall.trans ?_
    rw [Registration.call]
    cases x.wnr <;> rfl
  · intro hnone
    refine ⟨if (s.vms (s.vcpus v).vm).vmmios = 0 then -1 else 0, fun H => ?_⟩
    rw [hhandler, G.served_none hends hnone]

end newest

/-- A window inside the distributor's, without a function for writes. -/
def innerWindow : Registration := ⟨0x8000100, 0x10, 4, 0⟩

/-- Both windows, the inner one last, for a machine in cleared memory that a virtual CPU
belongs to. -/
theorem exists_twoWindows : ∃ s : Hyp,
    RegisterHistory 0x10000 0x200 emptyVm [innerWindow, distWindow] s ∧ (s.vcpus 0).vm = 0x200 := by
  have A : Able 0x10000 63 [6, 6] (emptyVm.onCore 0) :=
    ⟨⟨_, emptyVm_heap⟩, emptyVm_room _ (by decide), rfl, rfl, rfl⟩
  have hlock : ((emptyVm.onCore 0).vms 0x200).vmLock.word = 0 := rfl
  generalize emptyVm = s₀ at A hlock ⊢
  obtain ⟨_, s₁, hfirst, A₁, hlock₁⟩ := exists_ok_of_wp
    (@Able.vmmioHandlerRegister _ _ _ _ _ distWindow.ipa.toNat distWindow.size.toNat
      distWindow.vmmioRead.toNat distWindow.vmmioWrite.toNat A (by decide) (by decide) hlock)
  have A₁' : Able 0x10000 63 [6] (s₁.onCore 0) := A₁.congr rfl A₁.vcpus_free rfl
  obtain ⟨_, s₂, hsecond, _⟩ := exists_ok_of_wp
    (@Able.vmmioHandlerRegister _ _ _ _ _ innerWindow.ipa.toNat innerWindow.size.toNat
      innerWindow.vmmioRead.toNat innerWindow.vmmioWrite.toNat A₁' (by decide) (by decide) hlock₁)
  have hcall₁ : RegisterHistory 0x10000 0x200 s₀ [distWindow] s₁ :=
    @RegisterHistory.call _ _ _ _ _ 0 _ _ _ RegisterHistory.start hfirst
  have hcalls : RegisterHistory 0x10000 0x200 s₀ [innerWindow, distWindow] s₂ :=
    @RegisterHistory.call _ _ _ _ _ 0 _ _ _ hcall₁ hsecond
  have hassigned : LeavesList 0x10000 0x200 s₂
      (s₂.setVcpu 0 { s₂.vcpus 0 with vm := 0x200 }) :=
    ⟨rfl, fun _ _ A => A.congr rfl rfl, fun _ _ _ _ _ _ _ => rfl⟩
  refine ⟨_, hcalls.other hassigned, ?_⟩
  simp [Hyp.setVcpu]

/-- A write in both windows goes to the outer one, whose function is there. -/
theorem vmmioHandler_newest_outer : ∃ s : Hyp, ∀ H : VmmioHandlers,
    vmmioHandler H 0 0 { ipa := 0x8000104, wnr := true, accsize := 4 } s =
      H.write 8 0 0x104 ((s.vcpus 0).regs.x 0)
        { ipa := 0x8000104, wnr := true, accsize := 4 } s := by
  obtain ⟨s, hrun, hv⟩ := exists_twoWindows
  have hends : ∀ r ∈ [innerWindow, distWindow], r.Ends := by
    intro r hr
    rcases List.mem_pair.mp hr with rfl | rfl
    · rw [Registration.Ends]
      decide
    · rw [Registration.Ends]
      decide
  have hnewest := (vmmioHandler_newest (by decide) emptyVm_blocks rfl hrun hends hv 0
    { ipa := 0x8000104, wnr := true, accsize := 4 }).1 [innerWindow] distWindow [] rfl
  refine ⟨s, (hnewest ?_ ?_).2⟩
  · rw [Registration.Answers]
    decide
  · intro q hq
    rw [List.mem_singleton] at hq
    subst hq
    rintro ⟨_, hnone⟩
    exact hnone rfl

end Xhyper
