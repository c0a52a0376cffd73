import Xhyper.GicFields
import Xhyper.Stage2Hw

/-!
# Setting up the interrupt controller

`gic_v3_init` finds out how many shared interrupts there are, puts them all into group 1, level
triggered and turned off, and then sets up the redistributor and the interface of its own core.
The other cores do the latter when they come up.

The registers are taken as plain storage, with two exceptions: ones that are written to an
`ICENABLER` register clear enable bits, and a redistributor that is told to wake up is awake.  So
the loops that wait for the controller end at once or never.

## Main definitions

* `Soc` — the hypervisor with the registers that are set up once.
* `gicV3Init`, `gicPercpuInit` — the set-up.
* `gicV3Init_spec`, `gicPercpuInit_spec` — that it returns, and with what.
-/

namespace Xhyper

open Memory Prog

/-! ## Registers -/

/-- `GICD_CTLR`. -/
abbrev gicdCtlr : ℕ := 0x0

/-- `GICD_TYPER`. -/
abbrev gicdTyper : ℕ := 0x4

/-- `GICD_IGROUPR(n)`. -/
def gicdIgroupr (n : ℕ) : ℕ := 0x080 + n * 4

/-- `GICD_ICPENDR(n)`. -/
def gicdIcpendr (n : ℕ) : ℕ := 0x280 + n * 4

/-- `GICD_ICACTIVER(n)`. -/
def gicdIcactiver (n : ℕ) : ℕ := 0x380 + n * 4

/-- `GICR_WAKER`. -/
abbrev gicrWaker : ℕ := 0x14

/-- `GICR_IGROUPR0`. -/
abbrev gicrIgroupr0 : ℕ := 0x10080

/-- `GICR_ICENABLER0`. -/
abbrev gicrIcenabler0 : ℕ := 0x10180

/-- `GICR_ICPENDR0`. -/
abbrev gicrIcpendr0 : ℕ := 0x10280

/-- `GICR_ICACTIVER0`. -/
abbrev gicrIcactiver0 : ℕ := 0x10380

/-- `GICR_ICFGR1`. -/
abbrev gicrIcfgr1 : ℕ := 0x10c04

/-- `GICR_IGRPMODR0`. -/
abbrev gicrIgrpmodr0 : ℕ := 0x10d00

/-- What a core has of the interrupt controller besides its enable bits and the registers of
`CoreRegs`. -/
structure GicCore where
  /-- The registers of the redistributor by offset. -/
  gicr : ℕ → BitVec 32
  iccSreEl2 : BitVec 64
  iccPmrEl1 : BitVec 64
  iccBpr1El1 : BitVec 64
  iccCtlrEl1 : BitVec 64
  iccIgrpen1El1 : BitVec 64
  ichHcrEl2 : BitVec 64
  ichVtrEl2 : BitVec 64

/-- A write to the redistributor.  `ChildrenAsleep`, bit 2 of `GICR_WAKER`, follows
`ProcessorSleep`, bit 1. -/
def GicCore.write (g : GicCore) (offset : ℕ) (v : BitVec 32) : GicCore :=
  let v := if offset = gicrWaker then v &&& ~~~(1#32 <<< 2) ||| (v &&& 1#32 <<< 1) <<< 1 else v
  { g with gicr := Function.update g.gicr offset v }

/-- The hypervisor, the core that runs, and the registers of each core that are set up once. -/
structure Soc where
  hyp : Hyp
  core : Fin ncpu
  el2 : Fin ncpu → El2Regs
  gic : Fin ncpu → GicCore
  gicMaxLrs : ℤ

namespace Soc

/-- What the rest of the hypervisor works on. -/
def here (s : Soc) : Hyp := s.hyp.onCore s.core

/-- Replace it. -/
def setHyp (s : Soc) (h : Hyp) : Soc := { s with hyp := h }

/-- Change the registers of the core that runs. -/
def setCore (s : Soc) (f : CoreRegs → CoreRegs) : Soc :=
  s.setHyp { s.here with
    cores := Function.update s.hyp.cores s.core (f (s.hyp.cores s.core)) }

/-- Replace what the core that runs has of the interrupt controller. -/
def setGic (s : Soc) (g : GicCore) : Soc := { s with gic := Function.update s.gic s.core g }

section
variable (s : Soc) (g : GicCore) (h : Hyp) (f : CoreRegs → CoreRegs)

@[simp] theorem setHyp_hyp : (s.setHyp h).hyp = h := rfl
@[simp] theorem setHyp_core : (s.setHyp h).core = s.core := rfl
@[simp] theorem setHyp_gic : (s.setHyp h).gic = s.gic := rfl
@[simp] theorem setCore_core : (s.setCore f).core = s.core := rfl
@[simp] theorem setCore_gic : (s.setCore f).gic = s.gic := rfl
@[simp] theorem setGic_hyp : (s.setGic g).hyp = s.hyp := rfl
@[simp] theorem setGic_core : (s.setGic g).core = s.core := rfl
@[simp] theorem setGic_gic : (s.setGic g).gic s.core = g := Function.update_self _ _ _
@[simp] theorem setCore_setGic : (s.setGic g).setCore f = (s.setCore f).setGic g := rfl
@[simp] theorem setHyp_setGic : (s.setGic g).setHyp h = (s.setHyp h).setGic g := rfl

@[simp] theorem setGic_setGic (g' : GicCore) : (s.setGic g).setGic g' = s.setGic g' := by
  simp [setGic]

theorem setGic_gic_of_ne {c : Fin ncpu} (hc : c ≠ s.core) : (s.setGic g).gic c = s.gic c :=
  Function.update_of_ne hc _ _

end

end Soc

/-- Run a function of the hypervisor on the core that runs. -/
def onHyp {α : Type} (x : Exec Hyp α) : Exec Soc α := fun s =>
  match x s.here with
  | .ok a h => .ok a (s.setHyp h)
  | .error e h => .error e (s.setHyp h)

/-- Change what the core that runs has of the interrupt controller. -/
def modifyGic (f : GicCore → GicCore) : Exec Soc Unit :=
  modify fun s => s.setGic (f (s.gic s.core))

/-- `GICR_READ32` for the core that runs. -/
def gicrRead32 (offset : ℕ) : Exec Soc (BitVec 32) := do
  let s ← get
  return (s.gic s.core).gicr offset

/-- `GICR_WRITE32` for the core that runs. -/
def gicrWrite32 (offset : ℕ) (v : BitVec 32) : Exec Soc Unit := do
  let s ← get
  if offset = gicrIcenabler0 then
    onHyp (setGicr (s.hyp.gicr s.core &&& ~~~v))
  else modifyGic fun g => g.write offset v

/-! ## The set-up -/

/-- `gic_dist_wait_for_rwp`. -/
def gicDistWaitForRwp : Exec Hyp Unit := do
  if ((← get).gicd.read gicdCtlr >>> 31) &&& 0x1#32 ≠ 0#32 then throw .spin else pure ()

/-- The body of the first loop of `gic_dist_init`. -/
def gicDistGroup (i : ℕ) : Exec Hyp Unit := do
  gicdWrite32 (gicdIgroupr i) (~~~0#32)
  gicdWrite32 (gicdIcenabler i) (~~~0#32)
  gicdWrite32 (gicdIcactiver i) (~~~0#32)
  gicdWrite32 (gicdIcpendr i) (~~~0#32)

/-- `gic_dist_init`. -/
def gicDistInit : Exec Hyp Unit := do
  gicdWrite32 gicdCtlr 0
  gicDistWaitForRwp
  let gicdType := (← get).gicd.read gicdTyper
  let gicIrqs := ((gicdType &&& 0x1F#32).toNat + 1) * 32
  modify fun s => { s with gicMaxSpi := gicIrqs - 1 }
  let _ ← forRange 1 1 ((gicIrqs + 31) / 32) gicDistGroup
  let _ ← forRange 1 1 ((gicIrqs + 15) / 16) fun i => gicdWrite32 (gicdIcfgr i) 0#32
  gicDistWaitForRwp
  gicdWrite32 gicdCtlr (1#32 <<< 1 ||| 1#32 <<< 0)
  gicDistWaitForRwp

/-- `gic_redist_init`. -/
def gicRedistInit : Exec Soc Unit := do
  let waker ← gicrRead32 gicrWaker
  gicrWrite32 gicrWaker (waker &&& ~~~(1#32 <<< 1))
  if (← gicrRead32 gicrWaker) &&& 1#32 <<< 2 ≠ 0#32 then throw .spin
  gicrWrite32 gicrIgroupr0 (~~~0#32)
  gicrWrite32 gicrIgrpmodr0 0#32
  gicrWrite32 gicrIcenabler0 (~~~0#32)
  gicrWrite32 gicrIcactiver0 (~~~0#32)
  gicrWrite32 gicrIcpendr0 (~~~0#32)
  gicrWrite32 gicrIcfgr1 0#32

/-- `gic_icc_init`; both registers are read into a `u32`. -/
def gicIccInit : Exec Soc Unit := do
  modifyGic fun g =>
    { g with iccSreEl2 := (g.iccSreEl2.setWidth 32 ||| 1#32 <<< 3 ||| 1#32).setWidth 64 }
  onHyp (modifyCore fun c =>
    { c with iccSreEl1 := (c.iccSreEl1.setWidth 32 ||| 1#32).setWidth 64 })
  modifyGic fun g => { g with iccPmrEl1 := 0xFF }
  modifyGic fun g => { g with iccBpr1El1 := 0x7 }
  modifyGic fun g => { g with iccCtlrEl1 := 1#64 <<< 1 }
  modifyGic fun g => { g with iccIgrpen1El1 := 1 }

/-- `gic_hyp_init`. -/
def gicHypInit : Exec Soc Unit := do
  onHyp (modifyCore fun c => { c with ichVmcrEl2 := 1#64 <<< 1 })
  modifyGic fun g => { g with ichHcrEl2 := 1#64 <<< 0 }
  modify fun s =>
    { s with gicMaxLrs := ((s.gic s.core).ichVtrEl2 &&& 0x1F#64).toNat + 1 }

/-- `gic_percpu_init`. -/
def gicPercpuInit : Exec Soc Unit := do
  gicRedistInit
  gicIccInit
  gicHypInit

/-- `gic_v3_init`. -/
def gicV3Init : Exec Soc Unit := do
  onHyp gicDistInit
  gicPercpuInit

/-! ## The distributor -/

namespace Gicd

section
variable (d : Gicd) (v : BitVec 32) {offset n : ℕ}

/-- A register outside the enable bits. -/
def Plain (offset : ℕ) : Prop := offset < 0x100 ∨ 0x200 ≤ offset

theorem read_plain (h : Plain offset) : d.read offset = d.regs offset := by
  rw [Plain] at h
  rw [read, if_neg (by omega), if_neg (by omega)]

theorem write_plain (h : Plain offset) :
    d.write offset v = { d with regs := Function.update d.regs offset v } := by
  rw [Plain] at h
  rw [write, if_neg (by omega), if_neg (by omega)]

theorem write_icenabler (h : n < 32) : d.write (gicdIcenabler n) v =
    { d with enable := Function.update d.enable n (d.enable n &&& ~~~v) } := by
  have hlow : ¬ (0x100 ≤ gicdIcenabler n ∧ gicdIcenabler n < 0x180) := by
    rw [gicdIcenabler]
    omega
  have hin : 0x180 ≤ gicdIcenabler n ∧ gicdIcenabler n < 0x200 := by
    rw [gicdIcenabler]
    omega
  have hn : (gicdIcenabler n - 0x180) / 4 = n := by
    rw [gicdIcenabler]
    omega
  rw [write, if_neg hlow, if_pos hin, hn]

end

/-- The first `n` registers for 32 interrupts each: all in group 1 and off.  Those of the private
interrupts are not set up here. -/
structure Grouped (d : Gicd) (n : ℕ) : Prop where
  off : ∀ i, 1 ≤ i → i < n → d.enable i = 0#32
  group : ∀ i, 1 ≤ i → i < n → d.regs (gicdIgroupr i) = ~~~0#32

/-- One round of the first loop. -/
def setGroup (d : Gicd) (i : ℕ) : Gicd :=
  (((d.write (gicdIgroupr i) (~~~0#32)).write (gicdIcenabler i) (~~~0#32)).write
    (gicdIcactiver i) (~~~0#32)).write (gicdIcpendr i) (~~~0#32)

theorem setGroup_eq (d : Gicd) {i : ℕ} (hi : i < 32) : d.setGroup i =
    { enable := Function.update d.enable i 0#32
      regs := Function.update (Function.update (Function.update d.regs (gicdIgroupr i) (~~~0#32))
        (gicdIcactiver i) (~~~0#32)) (gicdIcpendr i) (~~~0#32) } := by
  have hgroup : Plain (gicdIgroupr i) := Or.inl (by rw [gicdIgroupr]; omega)
  have hactive : Plain (gicdIcactiver i) := Or.inr (by rw [gicdIcactiver]; omega)
  have hpending : Plain (gicdIcpendr i) := Or.inr (by rw [gicdIcpendr]; omega)
  rw [setGroup, write_plain _ _ hgroup, write_icenabler _ _ hi, write_plain _ _ hactive,
    write_plain _ _ hpending]
  simp

/-- The registers that are neither of the loop's, nor a later round's. -/
theorem Grouped.next {d : Gicd} {i : ℕ} (G : d.Grouped i) (hi : i < 32) :
    (d.setGroup i).Grouped (i + 1) := by
  rw [d.setGroup_eq hi]
  refine ⟨fun j hj hlt => ?_, fun j hj hlt => ?_⟩ <;> dsimp only
  · by_cases heq : j = i
    · rw [heq, Function.update_self]
    · rw [Function.update_of_ne heq]
      exact G.off j hj (by omega)
  · have hactive : gicdIgroupr j ≠ gicdIcactiver i := by
      rw [gicdIgroupr, gicdIcactiver]
      omega
    have hpending : gicdIgroupr j ≠ gicdIcpendr i := by
      rw [gicdIgroupr, gicdIcpendr]
      omega
    rw [Function.update_of_ne hpending, Function.update_of_ne hactive]
    by_cases heq : j = i
    · rw [heq, Function.update_self]
    · have hgroup : gicdIgroupr j ≠ gicdIgroupr i := by
        rw [gicdIgroupr, gicdIgroupr]
        omega
      rw [Function.update_of_ne hgroup]
      exact G.group j hj (by omega)

/-- The control register is in front of them. -/
theorem regs_setGroup_ctlr (d : Gicd) {i : ℕ} (hi : i < 32) :
    (d.setGroup i).regs gicdCtlr = d.regs gicdCtlr := by
  have hgroup : gicdCtlr ≠ gicdIgroupr i := by
    rw [gicdCtlr, gicdIgroupr]
    omega
  have hactive : gicdCtlr ≠ gicdIcactiver i := by
    rw [gicdCtlr, gicdIcactiver]
    omega
  have hpending : gicdCtlr ≠ gicdIcpendr i := by
    rw [gicdCtlr, gicdIcpendr]
    omega
  rw [d.setGroup_eq hi]
  simp only [Function.update_of_ne hpending, Function.update_of_ne hactive,
    Function.update_of_ne hgroup]

/-- The shared interrupts below `32 * n` are in group 1, level triggered and off, and the
distributor is on. -/
structure Ready (d : Gicd) (n : ℕ) : Prop where
  grouped : d.Grouped n
  level : ∀ i, 1 ≤ i → i < 2 * n → d.regs (gicdIcfgr i) = 0#32
  on : d.regs gicdCtlr = 3#32

/-- No shared interrupt is on. -/
theorem Ready.enabled {d : Gicd} {n irq : ℕ} (R : d.Ready n) (hmin : gicMinSpi0 ≤ irq)
    (hmax : irq < 32 * n) : d.enabled irq = false := by
  rw [gicMinSpi0] at hmin
  rw [Gicd.enabled, R.grouped.off _ (by omega) (by omega), BitVec.getLsbD_zero]

end Gicd

/-- The value of `gic_max_spi / 32 + 1` that the register `GICD_TYPER` stands for. -/
def Gicd.lines (d : Gicd) : ℕ := (d.regs gicdTyper).toNat % 32 + 1

theorem wp_gicDistWaitForRwp {Q : Unit → Hyp → Prop} {E : Fault → Hyp → Prop} {s : Hyp}
    (h : s.gicd.regs gicdCtlr >>> 31 = 0#32) : wp gicDistWaitForRwp Q E s ↔ Q () s := by
  simp [gicDistWaitForRwp, Gicd.read_plain _ (Or.inl (by decide : gicdCtlr < 0x100)), h]

/-- The first loop of `gic_dist_init`. -/
theorem gicDistGroup_loop {n : ℕ} (hpos : 1 ≤ n) (hle : n ≤ 32) {m : ℕ} (hm : m = n) (s : Hyp) :
    wp (forRange 1 1 m gicDistGroup) (fun _ s' => ∃ d : Gicd, d.Grouped n ∧
      d.regs gicdCtlr = s.gicd.regs gicdCtlr ∧ s' = { s with gicd := d }) (fun _ _ => False) s := by
  subst hm
  refine wp_forRange (fun k s' => ∃ d : Gicd, d.Grouped (k + 1) ∧
    d.regs gicdCtlr = s.gicd.regs gicdCtlr ∧ s' = { s with gicd := d }) (by decide) ?_
    ⟨s.gicd, ⟨fun i h h' => by omega, fun i h h' => by omega⟩, rfl, rfl⟩ ?_
  · rintro k _ hk ⟨d, G, hd, rfl⟩
    have hi : k + 1 < 32 := by omega
    have hround : 1 + k * 1 = k + 1 := by omega
    rw [hround]
    exact ⟨d.setGroup (k + 1), G.next hi, (d.regs_setGroup_ctlr hi).trans hd, rfl⟩
  · rintro k _ hk ⟨d, G, hd, rfl⟩
    have hm : k + 1 = m := by omega
    exact ⟨d, hm ▸ G, hd, rfl⟩

/-- The registers for the triggers are behind those for groups. -/
theorem Gicd.Grouped.setLevel {d : Gicd} {n : ℕ} (G : d.Grouped n) (hle : n ≤ 32) (i : ℕ) :
    (d.write (gicdIcfgr i) 0#32).Grouped n := by
  have hplain : Gicd.Plain (gicdIcfgr i) := Or.inr (by rw [gicdIcfgr]; omega)
  rw [Gicd.write_plain _ _ hplain]
  refine ⟨G.off, fun j hj hlt => ?_⟩
  have hne : gicdIgroupr j ≠ gicdIcfgr i := by
    rw [gicdIgroupr, gicdIcfgr]
    omega
  dsimp only
  rw [Function.update_of_ne hne]
  exact G.group j hj hlt

/-- The second loop of `gic_dist_init`. -/
theorem gicdIcfgr_loop {n : ℕ} (hpos : 1 ≤ n) (hle : n ≤ 32) {m : ℕ} (hm : m = 2 * n) {s : Hyp}
    (G : s.gicd.Grouped n) :
    wp (forRange 1 1 m fun i => gicdWrite32 (gicdIcfgr i) 0#32) (fun _ s' => ∃ d : Gicd,
      d.Grouped n ∧ (∀ i, 1 ≤ i → i < 2 * n → d.regs (gicdIcfgr i) = 0#32) ∧
      d.regs gicdCtlr = s.gicd.regs gicdCtlr ∧ s' = { s with gicd := d }) (fun _ _ => False) s := by
  subst hm
  refine wp_forRange (fun k s' => ∃ d : Gicd, d.Grouped n ∧
    (∀ i, 1 ≤ i → i < k + 1 → d.regs (gicdIcfgr i) = 0#32) ∧
    d.regs gicdCtlr = s.gicd.regs gicdCtlr ∧ s' = { s with gicd := d }) (by decide) ?_
    ⟨s.gicd, G, fun i h h' => by omega, rfl, rfl⟩ ?_
  · rintro k _ hk ⟨d, G, hlevel, hd, rfl⟩
    have hround : 1 + k * 1 = k + 1 := by omega
    rw [hround]
    refine ⟨_, G.setLevel hle (k + 1), fun i h h' => ?_, ?_, rfl⟩
    · rw [regs_write_icfgr]
      by_cases heq : i = k + 1
      · rw [heq, Function.update_self]
      · have hne : gicdIcfgr i ≠ gicdIcfgr (k + 1) := by
          rw [gicdIcfgr, gicdIcfgr]
          omega
        rw [Function.update_of_ne hne]
        exact hlevel i h (by omega)
    · have hne : gicdCtlr ≠ gicdIcfgr (k + 1) := by
        rw [gicdCtlr, gicdIcfgr]
        omega
      rw [regs_write_icfgr, Function.update_of_ne hne]
      exact hd
  · rintro k _ hk ⟨d, G, hlevel, hd, rfl⟩
    have hn : k + 1 = 2 * n := by omega
    exact ⟨d, G, hn ▸ hlevel, hd, rfl⟩

/-- **`gic_dist_init`** turns off all shared interrupts that there are, whatever was there. -/
theorem gicDistInit_spec (s : Hyp) :
    wp gicDistInit (fun _ s' => ∃ d : Gicd, d.Ready s.gicd.lines ∧
      s' = { s with gicd := d, gicMaxSpi := 32 * s.gicd.lines - 1 }) (fun _ _ => False) s := by
  have hctlr : Gicd.Plain gicdCtlr := Or.inl (by decide)
  have htyper : Gicd.Plain gicdTyper := Or.inl (by decide)
  have hlines : (((s.gicd.regs gicdTyper) &&& 0x1F#32).toNat + 1) * 32 = 32 * s.gicd.lines := by
    have hand : ((s.gicd.regs gicdTyper) &&& 0x1F#32).toNat = (s.gicd.regs gicdTyper).toNat % 32 := by
      rw [BitVec.toNat_and]
      exact Nat.and_two_pow_sub_one_eq_mod _ 5
    rw [hand, Gicd.lines, Nat.mul_comm]
  have hle : s.gicd.lines ≤ 32 := Nat.mod_lt _ (by decide)
  have hpos : 1 ≤ s.gicd.lines := Nat.le_add_left 1 _
  simp only [gicDistInit, wp_bind, gicdWrite32, wp_modify]
  rw [wp_gicDistWaitForRwp (by simp [Gicd.write_plain _ _ hctlr])]
  simp only [wp_get, Gicd.read_plain _ htyper, Gicd.write_plain _ _ hctlr,
    Function.update_of_ne (by decide : gicdTyper ≠ gicdCtlr), hlines]
  refine wp_mono (gicDistGroup_loop hpos hle (by omega) _) ?_ fun _ _ h => h
  rintro _ _ ⟨d, G, hd, rfl⟩
  refine wp_mono (gicdIcfgr_loop hpos hle (by omega) G) ?_ fun _ _ h => h
  rintro _ _ ⟨d', G', hlevel, hd', rfl⟩
  have hoff : d'.regs gicdCtlr = 0#32 := by
    rw [hd']
    dsimp only
    rw [hd]
    simp
  rw [wp_gicDistWaitForRwp (by simp [hoff])]
  rw [wp_gicDistWaitForRwp (by simp)]
  refine ⟨{ d' with regs := Function.update d'.regs gicdCtlr (1#32 <<< 1 ||| 1#32 <<< 0) },
    ⟨⟨G'.off, fun i h h' => ?_⟩, fun i h h' => ?_, by simp⟩, by simp⟩ <;> dsimp only
  · have hne : gicdIgroupr i ≠ gicdCtlr := by
      rw [gicdCtlr, gicdIgroupr]
      omega
    rw [Function.update_of_ne hne]
    exact G'.group i h h'
  · have hne : gicdIcfgr i ≠ gicdCtlr := by
      rw [gicdCtlr, gicdIcfgr]
      omega
    rw [Function.update_of_ne hne]
    exact hlevel i h h'

/-! ## A core's part -/

/-- A redistributor that is awake, with its private interrupts in group 1 and level triggered. -/
structure GicCore.Awake (g : GicCore) : Prop where
  awake : g.gicr gicrWaker &&& 1#32 <<< 2 = 0#32
  group : g.gicr gicrIgroupr0 = ~~~0#32 ∧ g.gicr gicrIgrpmodr0 = 0#32
  level : g.gicr gicrIcfgr1 = 0#32

/-- A core's redistributor is awake, and its interface lets all priorities through and splits the
two ends of an interrupt.  Virtual interrupts are on. -/
structure GicCore.Ready (g : GicCore) : Prop extends g.Awake where
  system : g.iccSreEl2 &&& 1 = 1
  priority : g.iccPmrEl1 = 0xFF
  split : g.iccCtlrEl1 = 2
  on : g.iccIgrpen1El1 = 1
  virtual_on : g.ichHcrEl2 = 1

/-- What `gic_percpu_init` does on a core: its private interrupts are off, and the rest of the
hypervisor's state is as it was. -/
structure Soc.PercpuReady (s s' : Soc) : Prop where
  hyp : s'.hyp = { s.here with
    gicr := Function.update s.hyp.gicr s.core 0#32
    cores := Function.update s.hyp.cores s.core { s.hyp.cores s.core with
      ichVmcrEl2 := 2
      iccSreEl1 := ((s.hyp.cores s.core).iccSreEl1.setWidth 32 ||| 1#32).setWidth 64 } }
  core : s'.core = s.core
  el2 : s'.el2 = s.el2
  ready : (s'.gic s.core).Ready
  others : ∀ c, c ≠ s.core → s'.gic c = s.gic c
  lrs : s'.gicMaxLrs = ((s.gic s.core).ichVtrEl2.toNat % 32 : ℕ) + 1

/-- Bits that were cleared are not there. -/
theorem and_not_and (v a : BitVec 32) : v &&& ~~~a &&& a = 0#32 := by
  rw [BitVec.and_assoc, BitVec.and_comm (~~~a), BitVec.and_not_self]
  exact BitVec.and_zero

namespace GicCore

variable (g : GicCore)

/-- A redistributor that is told to wake up is awake. -/
theorem write_waker (v : BitVec 32) :
    (g.write gicrWaker (v &&& ~~~(1#32 <<< 1))).gicr gicrWaker &&& 1#32 <<< 2 = 0#32 := by
  have hasleep : (v &&& ~~~(1#32 <<< 1) &&& 1#32 <<< 1) <<< 1 = 0#32 := by
    rw [and_not_and, BitVec.zero_shiftLeft]
  simp only [write, if_true, Function.update_self]
  rw [hasleep, BitVec.or_zero, and_not_and]

/-- A write to another register. -/
theorem write_of_ne (v : BitVec 32) {offset : ℕ} (h : offset ≠ gicrWaker) :
    g.write offset v = { g with gicr := Function.update g.gicr offset v } := by
  simp only [write, if_neg h]

/-- The writes of `gic_redist_init` behind the wait. -/
def regroup : GicCore :=
  ((((g.write gicrIgroupr0 (~~~0#32)).write gicrIgrpmodr0 0#32).write
    gicrIcactiver0 (~~~0#32)).write gicrIcpendr0 (~~~0#32)).write gicrIcfgr1 0#32

theorem regroup_eq : g.regroup = { g with
    gicr := Function.update (Function.update (Function.update (Function.update (Function.update
      g.gicr gicrIgroupr0 (~~~0#32)) gicrIgrpmodr0 0#32) gicrIcactiver0 (~~~0#32)) gicrIcpendr0
      (~~~0#32)) gicrIcfgr1 0#32 } := by
  rw [regroup, write_of_ne _ _ (by decide), write_of_ne _ _ (by decide),
    write_of_ne _ _ (by decide), write_of_ne _ _ (by decide), write_of_ne _ _ (by decide)]

theorem awake_regroup (h : g.gicr gicrWaker &&& 1#32 <<< 2 = 0#32) : g.regroup.Awake := by
  rw [regroup_eq]
  constructor
  case awake => simpa [Function.update_apply] using h
  case group => simp
  case level => simp

end GicCore

section percpu
variable {Q : Unit → Soc → Prop} {E : Fault → Soc → Prop} {s : Soc}

theorem wp_onHyp {α : Type} {Q : α → Soc → Prop} (x : Exec Hyp α) : wp (onHyp x) Q E s ↔
    wp x (fun a h => Q a (s.setHyp h)) (fun e h => E e (s.setHyp h)) s.here := by
  simp only [wp, onHyp]
  cases x s.here with
  | ok a h => rfl
  | error e h => rfl

@[simp] theorem wp_modifyGic (f : GicCore → GicCore) :
    wp (modifyGic f) Q E s ↔ Q () (s.setGic (f (s.gic s.core))) := Iff.rfl

@[simp] theorem wp_setCore (f : CoreRegs → CoreRegs) :
    wp (onHyp (modifyCore f)) Q E s ↔ Q () (s.setCore f) := Iff.rfl

theorem wp_gicrWrite32 {offset : ℕ} {v : BitVec 32} (h : offset ≠ gicrIcenabler0) :
    wp (gicrWrite32 offset v) Q E s ↔ Q () (s.setGic ((s.gic s.core).write offset v)) := by
  simp only [gicrWrite32, wp_bind, wp_get, if_neg h, wp_modifyGic]

/-- The private interrupts of the core that runs are off. -/
def Soc.maskPrivate (s : Soc) : Soc :=
  s.setHyp { s.here with gicr := Function.update s.hyp.gicr s.core 0#32 }

theorem wp_gicrWrite32_icenabler :
    wp (gicrWrite32 gicrIcenabler0 (~~~0#32)) Q E s ↔ Q () s.maskPrivate := by
  simp [gicrWrite32, setGicr, Soc.maskPrivate, wp_onHyp, Soc.here, Hyp.onCore]

/-- **`gic_redist_init`** does not wait for ever. -/
theorem gicRedistInit_spec (s : Soc) :
    wp gicRedistInit (fun _ s' => ∃ g : GicCore, g.Awake ∧
        g.ichVtrEl2 = (s.gic s.core).ichVtrEl2 ∧ s' = s.maskPrivate.setGic g)
      (fun _ _ => False) s := by
  have hawake := (s.gic s.core).write_waker ((s.gic s.core).gicr gicrWaker)
  have hvtr : ((s.gic s.core).write gicrWaker ((s.gic s.core).gicr gicrWaker &&&
    ~~~(1#32 <<< 1))).ichVtrEl2 = (s.gic s.core).ichVtrEl2 := rfl
  simp only [gicRedistInit, wp_bind, gicrRead32, wp_get, wp_pure]
  rw [wp_gicrWrite32 (by decide)]
  generalize (s.gic s.core).write gicrWaker _ = g at *
  rw [if_neg (by simpa using hawake), wp_bind, wp_gicrWrite32 (by decide), wp_bind,
    wp_gicrWrite32 (by decide), wp_bind, wp_gicrWrite32_icenabler]
  simp only [Soc.setGic_core, Soc.setGic_gic, Soc.setGic_setGic]
  generalize hg₂ : (g.write gicrIgroupr0 (~~~0#32)).write gicrIgrpmodr0 0#32 = g₂
  change wp _ _ _ (s.maskPrivate.setGic g₂)
  rw [wp_bind, wp_gicrWrite32 (by decide), wp_bind, wp_gicrWrite32 (by decide),
    wp_gicrWrite32 (by decide)]
  simp only [Soc.setGic_core, Soc.setGic_gic, Soc.setGic_setGic]
  refine ⟨g.regroup, GicCore.awake_regroup _ hawake, ?_, by rw [← hg₂, GicCore.regroup]⟩
  rw [GicCore.regroup_eq]
  exact hvtr

/-- **`gic_percpu_init`** returns, whatever the registers of the core were. -/
theorem gicPercpuInit_spec (s : Soc) :
    wp gicPercpuInit (fun _ s' => s.PercpuReady s') (fun _ _ => False) s := by
  rw [gicPercpuInit, wp_bind]
  refine wp_mono (gicRedistInit_spec s) ?_ fun _ _ h => h
  rintro _ _ ⟨g, A, hvtr, rfl⟩
  simp only [gicIccInit, gicHypInit, wp_bind, wp_modifyGic, wp_setCore, wp_modify,
    Soc.setCore_setGic, Soc.setGic_core, Soc.setCore_core, Soc.setCore_gic, Soc.setGic_gic,
    Soc.setGic_setGic]
  generalize hg' : GicCore.mk g.gicr _ _ _ _ _ _ _ = g'
  have hready : g'.Ready := by
    subst hg'
    refine ⟨⟨A.awake, A.group, A.level⟩, ?_, rfl, rfl, rfl, rfl⟩
    ext i hi
    cases i with
    | zero => simp
    | succ i => simp
  have hin : ∀ t : Soc, t.core = s.core → ((t.setGic g').gic s.core).Ready := by
    intro t ht
    rw [← ht, Soc.setGic_gic]
    exact hready
  refine ⟨?_, rfl, rfl, ?_, fun c hc => ?_, ?_⟩ <;> dsimp only
  · simp [Soc.setCore, Soc.maskPrivate, Soc.here, Hyp.onCore]
  · exact hin _ rfl
  · exact Soc.setGic_gic_of_ne _ _ hc
  · rw [hvtr, BitVec.toNat_and]
    congr 2
    exact Nat.and_two_pow_sub_one_eq_mod _ 5

/-- The hypervisor with another state of the interrupt controller and of the cores. -/
def Hyp.withController (h : Hyp) (d : Gicd) (gicr : ℕ → BitVec 32) (cores : ℕ → CoreRegs)
    (spis : ℤ) : Hyp :=
  { h with gicd := d, gicr := gicr, cores := cores, gicMaxSpi := spis }

/-- What `gic_v3_init` leaves: the shared interrupts are off, and so are the private ones of the core
that runs. -/
structure Soc.GicReady (s s' : Soc) : Prop where
  dist : s'.hyp.gicd.Ready s.hyp.gicd.lines
  hyp : s'.hyp = s.here.withController s'.hyp.gicd s'.hyp.gicr s'.hyp.cores
    (32 * s.hyp.gicd.lines - 1)
  gicr : s'.hyp.gicr s.core = 0#32
  core : s'.core = s.core
  el2 : s'.el2 = s.el2
  ready : (s'.gic s.core).Ready

/-- **`gic_v3_init`** returns, whatever was in the controller. -/
theorem gicV3Init_spec (s : Soc) :
    wp gicV3Init (fun _ s' => s.GicReady s') (fun _ _ => False) s := by
  rw [gicV3Init, wp_bind, wp_onHyp]
  refine wp_mono (gicDistInit_spec s.here) ?_ fun _ _ h => h
  rintro _ _ ⟨d, D, rfl⟩
  refine wp_mono (gicPercpuInit_spec _) ?_ fun _ _ h => h
  rintro _ s' ⟨hhyp, hcore, hel2, hready, _, _⟩
  refine ⟨?_, ?_, ?_, hcore, hel2, hready⟩
  · rw [hhyp]
    exact D
  · rw [hhyp]
    rfl
  · rw [hhyp]
    exact Function.update_self _ _ _

end percpu

end Xhyper
