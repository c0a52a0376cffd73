import Xhyper.VcpuNumbers
import Xhyper.ZeroRegister

/-!
# Interrupts from one virtual CPU to others

A guest sends an interrupt to other virtual CPUs with a write to `ICC_SGI1R_EL1`, which is
trapped.  The value names them by the numbers that the guest sees.  `vgicv3_generate_sgi` writes it
to the register of the core as it is, where the same numbers name physical cores.

## Main definitions

* `SgiAddresses` — the cores that a value of the register addresses.
* `SgiConfined` — the interrupt stays in the machine, and reaches the virtual CPUs it is for.
* `SgiFits` — the numbers that a value names are right for the places of the machine.
* `sgi_confined_iff` — these are the same.
-/

namespace Xhyper

open Memory Prog

/-! ## The register -/

/-- The levels of a core's number in `mpidr_el1`. -/
structure Affinity where
  aff0 : BitVec 8
  aff1 : BitVec 8
  aff2 : BitVec 8
  aff3 : BitVec 8
  deriving DecidableEq

def mpidrAffinity (mpidr : BitVec 64) : Affinity where
  aff0 := mpidr.extractLsb' 0 8
  aff1 := mpidr.extractLsb' 8 8
  aff2 := mpidr.extractLsb' 16 8
  aff3 := mpidr.extractLsb' 32 8

/-- The target list of `ICC_SGI1R_EL1`. -/
def sgiTarget (x : BitVec 64) : BitVec 16 := x.extractLsb' 0 16

/-- The levels above the target list are those of `a`. -/
def SgiCluster (x : BitVec 64) (a : Affinity) : Prop :=
  x.extractLsb' 16 8 = a.aff1 ∧ x.extractLsb' 32 8 = a.aff2 ∧ x.extractLsb' 48 8 = a.aff3

instance (x : BitVec 64) (a : Affinity) : Decidable (SgiCluster x a) :=
  inferInstanceAs (Decidable (_ ∧ _ ∧ _))

/-- The bit IRM: to all other cores. -/
def sgiIrm (x : BitVec 64) : Bool := x.getLsbD 40

/-- **The register.**  A core with the number `self` writes `x`, and the core with the number
`other` gets the interrupt. -/
def SgiAddresses (x self other : BitVec 64) : Prop :=
  if sgiIrm x then mpidrAffinity other ≠ mpidrAffinity self
  else SgiCluster x (mpidrAffinity other) ∧
    (sgiTarget x).getLsbD (mpidrAffinity other).aff0.toNat

/-- The number of a physical core: `coreid` is its lowest level, and it has no others. -/
def coreMpidr (c : Fin ncpu) : BitVec 64 := BitVec.ofNat 64 c.val

/-- No level above the target list. -/
abbrev flatAffinity : Affinity := ⟨0, 0, 0, 0⟩

section register
variable {x : BitVec 64} {a b : ℕ}

theorem mpidrAffinity_ofNat (ha : a < ncpu) :
    mpidrAffinity (BitVec.ofNat 64 a) = ⟨BitVec.ofNat 8 a, 0, 0, 0⟩ := by
  have hall : ∀ i : Fin ncpu,
      mpidrAffinity (BitVec.ofNat 64 i.val) = ⟨BitVec.ofNat 8 i.val, 0, 0, 0⟩ := by decide
  exact hall ⟨a, ha⟩

/-- Numbers below `NCPU`. -/
theorem sgiAddresses_ofNat (ha : a < ncpu) (hb : b < ncpu) :
    SgiAddresses x (BitVec.ofNat 64 a) (BitVec.ofNat 64 b) ↔
      if sgiIrm x then b ≠ a else SgiCluster x flatAffinity ∧ (sgiTarget x).getLsbD b := by
  have hne : ∀ i j : Fin ncpu, BitVec.ofNat 8 i.val = BitVec.ofNat 8 j.val ↔ i.val = j.val := by
    decide
  have hb8 : b < 2 ^ 8 := lt_of_lt_of_le hb (by decide)
  rw [SgiAddresses, mpidrAffinity_ofNat ha, mpidrAffinity_ofNat hb]
  split
  · simpa using not_congr (hne ⟨b, hb⟩ ⟨a, ha⟩)
  · rw [BitVec.toNat_ofNat, Nat.mod_eq_of_lt hb8]
    rfl

end register

/-! ## The trap -/

/-- The state behind `save_vm_regs`, when `v` traps on the core of its place with the registers
`regs`. -/
def Hyp.trapped (s : Hyp) (v : Fin ncpu) (regs : Regs) : Hyp :=
  (s.onCore v.val).setVcpu v { s.vcpus v with regs := regs }

/-- The virtual CPU at the place `c` is one of the machine of `v`. -/
def SameMachine (s : Hyp) (v c : Fin ncpu) : Prop :=
  (s.vcpus c).state ≠ .unused ∧ (s.vcpus c).vm = (s.vcpus v).vm

/-- **The interrupt stays in the machine**: the value that is written to the register of the core
addresses only cores of the machine of `v`, and the core of each of its virtual CPUs that the
guest's value addresses. -/
def SgiConfined (P : Platform) (H : VmmioHandlers) (s : Hyp) (v : Fin ncpu)
    (esr far hpfar : BitVec 64) : Prop :=
  ∃ t, el1SyncProc P H esr far hpfar s = .ok () t ∧
    (∀ c, SgiAddresses (t.cores v.val).iccSgi1rEl1 (coreMpidr v) (coreMpidr c) →
      SameMachine s v c) ∧
    ∀ i, SameMachine s v i →
      SgiAddresses (operand (s.vcpus v) (Transfer.sgi.number esr)) (s.mpidrs v) (s.mpidrs i) →
      SgiAddresses (t.cores v.val).iccSgi1rEl1 (coreMpidr v) (coreMpidr i)

/-- **The numbers are right** for a machine at the `n` places from `base` on: it has every core when
the value is for all others.  Otherwise the target list has no core of another machine, and with
the number of a virtual CPU it has the one of its core. -/
def SgiFits (base n : ℕ) (x : BitVec 64) : Prop :=
  if sgiIrm x then n = ncpu
  else SgiCluster x flatAffinity →
    (∀ c < ncpu, (sgiTarget x).getLsbD c → base ≤ c ∧ c < base + n) ∧
    ∀ k < n, (sgiTarget x).getLsbD k → (sgiTarget x).getLsbD (base + k)

instance (base n : ℕ) (x : BitVec 64) : Decidable (SgiFits base n x) :=
  inferInstanceAs (Decidable (if sgiIrm x then _ else _))

section confined
variable {P : Platform} {H : VmmioHandlers} {himageEnd base n : ℕ} {trace : List Transition}
  {s : Hyp} {v : Fin ncpu} {regs : Regs} {esr far hpfar : BitVec 64}

theorem sameMachine_trapped {c : Fin ncpu} :
    SameMachine (s.trapped v regs) v c ↔ SameMachine s v c := by
  by_cases hc : c = v
  · subst hc
    simp [SameMachine, Hyp.trapped, Hyp.setVcpu, Hyp.onCore]
  · simp [SameMachine, Hyp.trapped, Hyp.setVcpu, Hyp.onCore, Function.update_of_ne hc]

theorem mpidrs_trapped : (s.trapped v regs).mpidrs = s.mpidrs := by
  rw [Hyp.trapped, mpidrs_setVcpu]
  exact Function.update_eq_self v s.mpidrs

/-- The virtual CPUs of the machine are those at its places. -/
theorem Owns.sameMachine (O : Owns s (s.vcpus v).vm base n) {c : Fin ncpu} :
    SameMachine s v c ↔ base ≤ c.val ∧ c.val < base + n := by
  constructor
  · exact fun h => (O.mine c h.1).mp h.2
  · intro h
    have hused := O.used c h.1 h.2
    exact ⟨hused, (O.mine c hused).mpr h⟩

/-- They see their numbers. -/
theorem Owns.mpidr (O : Owns s (s.vcpus v).vm base n) (N : Numbered s) {c : Fin ncpu}
    (hc : SameMachine s v c) : s.mpidrs c = BitVec.ofNat 64 (c.val - base) := by
  obtain ⟨hlo, hhi⟩ := O.sameMachine.mp hc
  have hlt : c.val - base < ncpu := lt_of_le_of_lt (Nat.sub_le _ _) c.isLt
  refine N ⟨c.val - base, hlt⟩ c hc.1 ?_
  rw [hc.2, O.slots]
  dsimp only
  constructor <;> omega

/-- What the trap comes to, for a machine at its places. -/
theorem sgi_fits_iff {x : BitVec 64} (O : Owns s (s.vcpus v).vm base n) (N : Numbered s)
    (hv : SameMachine s v v) :
    ((∀ c, SgiAddresses x (coreMpidr v) (coreMpidr c) → SameMachine s v c) ∧
      ∀ i, SameMachine s v i → SgiAddresses x (s.mpidrs v) (s.mpidrs i) →
        SgiAddresses x (coreMpidr v) (coreMpidr i)) ↔ SgiFits base n x := by
  have hcore : ∀ c : Fin ncpu, SgiAddresses x (coreMpidr v) (coreMpidr c) ↔
      if sgiIrm x then c.val ≠ v.val
      else SgiCluster x flatAffinity ∧ (sgiTarget x).getLsbD c.val :=
    fun c => sgiAddresses_ofNat v.isLt c.isLt
  have hguest : ∀ i : Fin ncpu, SameMachine s v i →
      (SgiAddresses x (s.mpidrs v) (s.mpidrs i) ↔ if sgiIrm x then i.val - base ≠ v.val - base
        else SgiCluster x flatAffinity ∧ (sgiTarget x).getLsbD (i.val - base)) := by
    intro i hi
    rw [O.mpidr N hv, O.mpidr N hi]
    exact sgiAddresses_ofNat (lt_of_le_of_lt (Nat.sub_le _ _) v.isLt)
      (lt_of_le_of_lt (Nat.sub_le _ _) i.isLt)
  have hmine := O.sameMachine.mp hv
  rw [SgiFits]
  split
  next hirm =>
    simp only [hirm, if_true] at hcore hguest
    constructor
    · rintro ⟨honly, _⟩
      -- a place before or behind the machine is another core
      by_contra hn
      have hfits : base + n ≤ ncpu := by
        by_contra hle
        exact absurd (O.fits (n - 1) (by omega)) (by omega)
      have hother : ∀ k, k < ncpu → ¬ (base ≤ k ∧ k < base + n) → False := by
        intro k hk hout
        refine hout (O.sameMachine.mp (honly ⟨k, hk⟩ ((hcore _).mpr fun h => hout ?_)))
        have hkv : k = v.val := h
        rw [hkv]
        exact hmine
      by_cases hbase : base = 0
      · exact hother n (by omega) (by omega)
      · exact hother 0 (by decide) (by omega)
    · rintro rfl
      have hbase : base = 0 := by
        have hlast := O.fits (ncpu - 1) (by decide)
        omega
      subst hbase
      refine ⟨fun c _ => O.sameMachine.mpr ⟨Nat.zero_le _, by omega⟩, fun i hi h => ?_⟩
      exact (hcore i).mpr ((hguest i hi).mp h)
  next hirm =>
    simp only [hirm, if_false, Bool.false_eq_true] at hcore hguest
    constructor
    · rintro ⟨honly, hall⟩ hflat
      refine ⟨fun c hc hbit => ?_, fun k hk hbit => ?_⟩
      · exact O.sameMachine.mp (honly ⟨c, hc⟩ ((hcore _).mpr ⟨hflat, hbit⟩))
      · have hplace : SameMachine s v ⟨base + k, O.fits k hk⟩ :=
          O.sameMachine.mpr ⟨Nat.le_add_right _ _, by simpa using hk⟩
        refine ((hcore _).mp (hall _ hplace ((hguest _ hplace).mpr ⟨hflat, ?_⟩))).2
        simpa using hbit
    · intro hfits
      refine ⟨fun c hc => ?_, fun i hi h => (hcore i).mpr ?_⟩
      · obtain ⟨hflat, hbit⟩ := (hcore c).mp hc
        exact O.sameMachine.mpr ((hfits hflat).1 c c.isLt hbit)
      · obtain ⟨hflat, hbit⟩ := (hguest i hi).mp h
        obtain ⟨hlo, hhi⟩ := O.sameMachine.mp hi
        have hmoved := (hfits hflat).2 (i.val - base) (by omega) hbit
        rw [Nat.add_sub_cancel' hlo] at hmoved
        exact ⟨hflat, hmoved⟩

/-- The trap on the core that runs the virtual CPU at its place. -/
theorem Owns.sgi_confined (O : Owns s (s.vcpus v).vm base n) (N : Numbered s)
    (hv : SameMachine s v v) (htpidr : (s.cores v.val).tpidrEl2 = some v)
    (hsgi : Transfer.sgi.Decoded esr) :
    SgiConfined P H (s.trapped v regs) v esr far hpfar ↔
      Transfer.sgi.number esr < 31 ∧
        SgiFits base n (operand ((s.trapped v regs).vcpus v) (Transfer.sgi.number esr)) := by
  have T : TransferTrap (s.trapped v regs) v esr .sgi := by
    refine ⟨htpidr, ?_, hsgi⟩
    simpa [Hyp.trapped, Hyp.setVcpu] using O.ne_zero
  by_cases hn : Transfer.sgi.number esr < 31
  swap
  · refine iff_of_false ?_ fun h => hn h.1
    rintro ⟨t, ht, _⟩
    exact el1SyncProc_sgi_zero T hn H t ht
  rw [SgiConfined, el1SyncProc_sgi T hn H]
  simp only [sameMachine_trapped, mpidrs_trapped, hn, true_and]
  generalize operand ((s.trapped v regs).vcpus v) (Transfer.sgi.number esr) = x
  have hwritten : ((((s.trapped v regs).withSgi x).advance v).cores v.val).iccSgi1rEl1 = x := by
    simp [Hyp.advance, Hyp.withSgi, Hyp.setVcpu, Hyp.trapped, Hyp.onCore]
  rw [← sgi_fits_iff O N hv]
  constructor
  · rintro ⟨t, ht, h⟩
    cases ht
    rw [hwritten] at h
    exact h
  · intro h
    refine ⟨_, rfl, ?_⟩
    rw [hwritten]
    exact h

/-- **A write to `ICC_SGI1R_EL1` stays in its machine** exactly when it is from a register, and the
numbers in it are right for the machine's places: in every run that makes any number of machines,
for a virtual CPU on a core that was started, and any registers. -/
theorem sgi_confined_iff (himg : IsImage himageEnd) (hrun : HypRun P himageEnd trace s)
    (hv : Launched trace v) (O : Owns s (s.vcpus v).vm base n)
    (hsgi : Transfer.sgi.Decoded esr) :
    SgiConfined P H (s.trapped v regs) v esr far hpfar ↔
      Transfer.sgi.number esr < 31 ∧
        SgiFits base n (operand ((s.trapped v regs).vcpus v) (Transfer.sgi.number esr)) := by
  obtain ⟨N, hlaunched⟩ := hrun.numbers himg
  obtain ⟨hused, htpidr⟩ := hlaunched v hv
  exact O.sgi_confined N ⟨hused, rfl⟩ htpidr hsgi

end confined

/-! ## A machine with two virtual CPUs -/

/-- A small guest with two virtual CPUs, whose first one is started: it has the first two of four
cores. -/
theorem exists_launched : ∃ trace s, HypRun obedient bootEnd trace s ∧ Launched trace 0 ∧
    Owns s (s.vcpus 0).vm 0 2 := by
  obtain ⟨s, s', vm, live, l₀, hrun, G, _⟩ := exists_one_guest obedient
  have hready : (s'.vcpus 0).state = .ready := G.run.state_eq 0 le_rfl (by decide)
  have hvm : (s'.vcpus 0).vm = vm := G.run.vm_eq 0 le_rfl (by decide)
  have hstart : wp startVcpu (fun _ s₁ => Started (s'.onCore 0) 0 s₁) (fun _ _ => False)
      (s'.onCore 0) :=
    wp_startVcpu rfl hready (hvm ▸ G.ne_zero) fun _ h => h
  obtain ⟨_, s₁, hs₁, hst⟩ := exists_ok_of_wp hstart
  have hstep : HypStep obedient 0 .start s' s₁ := .start hs₁
  have hrun₁ := hrun.step hstep
  have hcore : s₁.ram.core = 0 := by rw [hst.ram]; rfl
  have hself : s₁.vcpus 0 = { s'.vcpus 0 with state := .running } := by
    rw [hst.vcpus, Function.update_self]
    rfl
  have hvms : s₁.vms (s₁.vcpus 0).vm = s'.vms vm := by
    rw [hself, hst.vms]
    exact congrArg s'.vms hvm
  obtain ⟨base, n, O⟩ := (hrun₁.slots isImage_bootEnd).1.owner 0 (by rw [hself]; nofun)
  -- the places are those of the machine's array
  have hslots : ∀ k i : Fin ncpu, (k.val < 2 ∧ i.val = 0 + k.val) ↔
      k.val < n ∧ i.val = base + k.val := by
    intro k i
    rw [← O.slots, hvms, G.run.slots]
    rfl
  have hbase : base = 0 := ((hslots 0 0).mp ⟨by decide, rfl⟩).2.symm
  subst hbase
  have hlo : 1 < n := ((hslots 1 1).mp ⟨by decide, rfl⟩).1
  have hhi : ¬ 2 < n := fun h => absurd ((hslots 2 2).mpr ⟨h, rfl⟩).1 (by decide)
  obtain rfl : n = 2 := by omega
  exact ⟨_, s₁, hrun₁, ⟨_, List.mem_cons_self, rfl, hcore⟩, O⟩

/-- The registers of a guest, all of them `x`. -/
def regsOf (x : BitVec 64) : Regs := { x := fun _ => x, spsr := 0, elr := 0 }

/-- The write of `x0` to `ICC_SGI1R_EL1`. -/
abbrev sgiFromX0 : BitVec 64 := 0x623a3016

theorem sgiFromX0_operand {s : Hyp} {v : Fin ncpu} {x : BitVec 64} :
    operand ((s.trapped v (regsOf x)).vcpus v) (Transfer.sgi.number sgiFromX0) = x := by
  have hn : Transfer.sgi.number sgiFromX0 = 0 := by decide
  rw [hn, operand]
  simp [Hyp.trapped, Hyp.setVcpu, regsOf]

theorem sgiFromX0_decoded : Transfer.sgi.Decoded sgiFromX0 := ⟨by decide, by decide⟩

/-- An interrupt to the second virtual CPU stays in the machine. -/
theorem sgi_confined_second : ∃ trace s, HypRun obedient bootEnd trace s ∧ Launched trace 0 ∧
    SgiConfined obedient (vgicHandlers obedient (fun _ _ => 0) 0) (s.trapped 0 (regsOf 2)) 0
      sgiFromX0 0 0 := by
  obtain ⟨trace, s, hrun, hlaunched, O⟩ := exists_launched
  refine ⟨trace, s, hrun, hlaunched, ?_⟩
  refine (sgi_confined_iff isImage_bootEnd hrun hlaunched O sgiFromX0_decoded).mpr ⟨by decide, ?_⟩
  rw [sgiFromX0_operand]
  decide

/-- One to all others goes to the two cores that are not the machine's. -/
theorem sgi_broadcast_escapes : ∃ trace s, HypRun obedient bootEnd trace s ∧ Launched trace 0 ∧
    ¬ SgiConfined obedient (vgicHandlers obedient (fun _ _ => 0) 0)
      (s.trapped 0 (regsOf (1#64 <<< 40))) 0 sgiFromX0 0 0 := by
  obtain ⟨trace, s, hrun, hlaunched, O⟩ := exists_launched
  refine ⟨trace, s, hrun, hlaunched, fun hconfined => ?_⟩
  obtain ⟨N, hall⟩ := hrun.numbers isImage_bootEnd
  obtain ⟨hused, htpidr⟩ := hall 0 hlaunched
  have hfits := ((O.sgi_confined N ⟨hused, rfl⟩ htpidr sgiFromX0_decoded).mp hconfined).2
  rw [sgiFromX0_operand] at hfits
  revert hfits
  decide

end Xhyper
