import Xhyper.Lib.Fields
import Xhyper.VgicContain

/-!
# Targets and triggers of the physical interrupts

The distributor has a byte for the target of each interrupt, and two bits for its trigger; the
triggers of private interrupts are in a register of each core's redistributor.
`gic_set_config` clears the two bits of its interrupt and sets the new ones.  `gic_set_target`
clears the bytes of the other interrupts of the word instead.  For an interrupt below 16
`gic_set_config` writes the bits of the private interrupt that is 16 above it.

The registers are taken as plain storage.

## Main definitions

* `HypIcfgr` — the hypervisor with the redistributors' trigger registers.
* `gicSetConfig` — the trigger of an interrupt.
* `hyperSpiConfig` — the set-up of a shared interrupt.
* `FieldUpdate` — a call of `set_affinity` or `configure`.
* `fieldUpdate_local_iff` — when a call changes the field of its interrupt only.
-/

namespace Xhyper

open Memory Prog Fields

/-! ## The registers -/

/-- `GICD_ICFGR(n)`. -/
def gicdIcfgr (n : ℕ) : ℕ := 0xc00 + n * 4

/-- The hypervisor, and each core's `GICR_ICFGR1`. -/
structure HypIcfgr where
  hyp : Hyp
  icfgr1 : ℕ → BitVec 32

namespace HypIcfgr

/-- What the rest of the hypervisor works on. -/
def hypPart : Lens HypIcfgr Hyp where
  get s := s.hyp
  set h s := { s with hyp := h }
  get_set _ _ := rfl
  set_get _ := rfl
  set_set _ _ _ := rfl

@[simp] theorem get_hypPart (s : HypIcfgr) : hypPart.get s = s.hyp := rfl
@[simp] theorem set_hypPart (h : Hyp) (s : HypIcfgr) : hypPart.set h s = { s with hyp := h } := rfl

/-- The core that runs. -/
abbrev core (s : HypIcfgr) : ℕ := s.hyp.ram.core

/-- The target of an interrupt. -/
def target (s : HypIcfgr) (irq : ℕ) : Byte := s.hyp.gicd.target irq

/-- The trigger of an interrupt, seen from a core. -/
def config (s : HypIcfgr) (core irq : ℕ) : BitVec 2 :=
  if irq < gicMinSpi0 then field 2 (s.icfgr1 core) (irq % 16)
  else field 2 (s.hyp.gicd.read (gicdIcfgr (irq / 16))) (irq % 16)

end HypIcfgr

/-- `gic_set_config`. -/
def gicSetConfig (irq : ℕ) (config : BitVec 32) : Exec HypIcfgr Unit := do
  let s ← get
  let shift := irq % 16 * 2
  if gicMinSpi0 ≤ irq then
    let reg := s.hyp.gicd.read (gicdIcfgr (irq / 16))
    zoom HypIcfgr.hypPart
      (gicdWrite32 (gicdIcfgr (irq / 16)) (reg &&& ~~~(0x03#32 <<< shift) ||| config <<< shift))
  else
    -- an interrupt below 16 comes here as well
    let reg := s.icfgr1 s.core &&& ~~~(0x03#32 <<< shift) ||| config <<< shift
    set { s with icfgr1 := Function.update s.icfgr1 s.core reg }

/-- `hyper_spi_config`. -/
def hyperSpiConfig (irq : ℕ) (type : BitVec 32) : Exec HypIcfgr Unit := do
  zoom HypIcfgr.hypPart (gicSetTarget irq 0#32)
  gicSetConfig irq type
  zoom HypIcfgr.hypPart (gicEnableInt irq)

/-! ## Calls -/

/-- A call through `gicv3_ops`. -/
inductive FieldUpdate
  /-- `set_affinity`. -/
  | affinity (irq : ℕ) (target : BitVec 32)
  /-- `configure`. -/
  | configure (irq : ℕ) (config : BitVec 32)

namespace FieldUpdate

/-- Run a call. -/
def exec : FieldUpdate → Exec HypIcfgr Unit
  | affinity irq target => zoom HypIcfgr.hypPart (gicSetTarget irq target)
  | configure irq config => gicSetConfig irq config

/-- A shared interrupt and a target that fits in a byte, or an interrupt and one of the two
triggers. -/
def Valid : FieldUpdate → Prop
  | affinity irq target => gicMinSpi0 ≤ irq ∧ irq < 1020 ∧ target.toNat < 256
  | configure irq config => irq < 1020 ∧ (config = 0#32 ∨ config = 2#32)

/-- The field of the call's interrupt is set and no other one changes; below 16 there is none. -/
def Local (s s' : HypIcfgr) : FieldUpdate → Prop
  | affinity irq target => s'.target irq = target.setWidth 8 ∧
      (∀ j < 1020, j ≠ irq → s'.target j = s.target j) ∧
      ∀ c j, 16 ≤ j → j < 1020 → s'.config c j = s.config c j
  | configure irq config => (16 ≤ irq → s'.config s.core irq = config.setWidth 2) ∧
      (∀ c j, 16 ≤ j → j < 1020 → (j = irq → c ≠ s.core ∧ irq < gicMinSpi0) →
        s'.config c j = s.config c j) ∧
      ∀ j < 1020, s'.target j = s.target j

/-- The call has nothing to spoil: the interrupts next to a target have none and its own loses
no bit, or the trigger that is written in place of none is there already. -/
def Spares (s : HypIcfgr) : FieldUpdate → Prop
  | affinity irq target => s.target irq ||| target.setWidth 8 = target.setWidth 8 ∧
      ∀ j < 1020, j / 4 = irq / 4 → j ≠ irq → s.target j = 0#8
  | configure irq config => irq < 16 → s.config s.core (irq + 16) = config.setWidth 2

end FieldUpdate

section fields
variable {s : HypIcfgr} {irq j c : ℕ}

/-- The mask of a trigger and the bits put there, in the words of the library. -/
theorem put_config (v config : BitVec 32) (hc : config = 0#32 ∨ config = 2#32) :
    v &&& ~~~(0x03#32 <<< (irq % 16 * 2)) ||| config <<< (irq % 16 * 2) =
      put v (irq % 16) (config.setWidth 2) := by
  rcases hc with rfl | rfl <;> rfl

/-- The mask of a target and the bits put there. -/
theorem keep_target (v target : BitVec 32) (ht : target.toNat < 256) :
    v &&& 0xff#32 <<< (irq % 4 * 8) ||| target <<< (irq % 4 * 8) =
      keep v (irq % 4) (target.setWidth 8) := by
  have hwidth : (target.setWidth 8).setWidth 32 = target := by
    apply BitVec.eq_of_toNat_eq
    simp only [BitVec.toNat_setWidth]
    omega
  rw [keep, place, hwidth]
  rfl

/-- Set the trigger of a shared interrupt. -/
def Gicd.setConfig (d : Gicd) (irq : ℕ) (x : BitVec 2) : Gicd :=
  d.write (gicdIcfgr (irq / 16)) (put (d.read (gicdIcfgr (irq / 16))) (irq % 16) x)

/-- The triggers are none of the enable bits. -/
theorem read_icfgr (d : Gicd) (n : ℕ) : d.read (gicdIcfgr n) = d.regs (gicdIcfgr n) := by
  rw [Gicd.read, gicdIcfgr, if_neg (by omega), if_neg (by omega)]

theorem regs_write_icfgr (d : Gicd) (n : ℕ) (x : BitVec 32) :
    (d.write (gicdIcfgr n) x).regs = Function.update d.regs (gicdIcfgr n) x := by
  rw [Gicd.write, gicdIcfgr, if_neg (by omega), if_neg (by omega)]

/-- Setting the trigger of one shared interrupt leaves those of the others. -/
theorem field_setConfig (d : Gicd) (x : BitVec 2) (irq j : ℕ) :
    field 2 ((d.setConfig irq x).read (gicdIcfgr (j / 16))) (j % 16) =
      if j = irq then x else field 2 (d.read (gicdIcfgr (j / 16))) (j % 16) := by
  have hj : (j % 16 + 1) * 2 ≤ 32 := by omega
  rw [Gicd.setConfig, read_icfgr, regs_write_icfgr, read_icfgr, read_icfgr]
  by_cases hword : j / 16 = irq / 16
  · rw [hword, Function.update_self, field_put _ _ hj]
    by_cases heq : j = irq
    · rw [if_pos heq, if_pos (by omega)]
    · rw [if_neg heq, if_neg (by omega)]
  · have hne : gicdIcfgr (j / 16) ≠ gicdIcfgr (irq / 16) := by
      simp only [gicdIcfgr]
      omega
    have hirq : j ≠ irq := fun heq => hword (heq ▸ rfl)
    rw [Function.update_of_ne hne, if_neg hirq]

/-- The targets are other registers than the triggers. -/
theorem target_setConfig (d : Gicd) (irq : ℕ) (x : BitVec 2) (hj : j < 1020) :
    (d.setConfig irq x).target j = d.target j := by
  have hne : gicdItargetsr (j / 4) ≠ gicdIcfgr (irq / 16) := by
    simp only [gicdItargetsr, gicdIcfgr]
    omega
  rw [Gicd.target, Gicd.target, read_itargetsr, read_itargetsr, Gicd.setConfig, regs_write_icfgr,
    Function.update_of_ne hne]

/-! ## `configure` -/

/-- The state after the trigger of a shared interrupt was set. -/
def HypIcfgr.setSpi (s : HypIcfgr) (irq : ℕ) (x : BitVec 2) : HypIcfgr :=
  { s with hyp := { s.hyp with gicd := s.hyp.gicd.setConfig irq x } }

/-- The state after a trigger of the core's own register was set. -/
def HypIcfgr.setPrivate (s : HypIcfgr) (irq : ℕ) (x : BitVec 2) : HypIcfgr :=
  { s with icfgr1 := Function.update s.icfgr1 s.core (put (s.icfgr1 s.core) (irq % 16) x) }

@[simp] theorem gicd_setSpi (x : BitVec 2) :
    (s.setSpi irq x).hyp.gicd = s.hyp.gicd.setConfig irq x := rfl
@[simp] theorem icfgr1_setSpi (x : BitVec 2) : (s.setSpi irq x).icfgr1 = s.icfgr1 := rfl
@[simp] theorem gicd_setPrivate (x : BitVec 2) : (s.setPrivate irq x).hyp.gicd = s.hyp.gicd := rfl
@[simp] theorem icfgr1_setPrivate (x : BitVec 2) : (s.setPrivate irq x).icfgr1 =
    Function.update s.icfgr1 s.core (put (s.icfgr1 s.core) (irq % 16) x) := rfl

theorem gicSetConfig_spi (hirq : gicMinSpi0 ≤ irq) {config : BitVec 32}
    (hc : config = 0#32 ∨ config = 2#32) :
    gicSetConfig irq config s = .ok () (s.setSpi irq (config.setWidth 2)) := by
  have hrun : wp (gicSetConfig irq config) (fun _ s' => s' = s.setSpi irq (config.setWidth 2))
      (fun _ _ => False) s := by
    rw [HypIcfgr.setSpi, Gicd.setConfig, ← put_config _ _ hc]
    simp only [gicSetConfig, wp_bind, wp_get, hirq, if_true, wp_zoom]
    exact rfl
  obtain ⟨_, _, hexec, rfl⟩ := exists_ok_of_wp hrun
  exact hexec

theorem gicSetConfig_private (hirq : irq < gicMinSpi0) {config : BitVec 32}
    (hc : config = 0#32 ∨ config = 2#32) :
    gicSetConfig irq config s = .ok () (s.setPrivate irq (config.setWidth 2)) := by
  have hspi : ¬ gicMinSpi0 ≤ irq := not_le.mpr hirq
  have hrun : wp (gicSetConfig irq config) (fun _ s' => s' = s.setPrivate irq (config.setWidth 2))
      (fun _ _ => False) s := by
    rw [HypIcfgr.setPrivate, ← put_config _ _ hc]
    simp only [gicSetConfig, wp_bind, wp_get, hspi, if_false, wp_set]
  obtain ⟨_, _, hexec, rfl⟩ := exists_ok_of_wp hrun
  exact hexec

/-- Setting the trigger of a shared interrupt. -/
theorem config_setSpi (hirq : gicMinSpi0 ≤ irq) (x : BitVec 2) :
    (s.setSpi irq x).config c j = if j = irq then x else s.config c j := by
  rw [HypIcfgr.config, HypIcfgr.config, gicd_setSpi, icfgr1_setSpi]
  by_cases hj : j < gicMinSpi0
  · have hne : j ≠ irq := by omega
    rw [if_pos hj, if_neg hne, if_pos hj]
  · rw [if_neg hj, if_neg hj, field_setConfig]

/-- Setting one in the core's own register, where field `irq` is that of interrupt `16 + irq`. -/
theorem config_setPrivate (x : BitVec 2) (hj : 16 ≤ j) :
    (s.setPrivate irq x).config c j =
      if c = s.core ∧ j = 16 + irq % 16 then x else s.config c j := by
  rw [HypIcfgr.config, HypIcfgr.config, gicd_setPrivate, icfgr1_setPrivate]
  by_cases hspi : j < gicMinSpi0
  · rw [if_pos hspi, if_pos hspi]
    simp only [gicMinSpi0] at hspi
    by_cases hc : c = s.core
    · rw [hc, Function.update_self, field_put _ _ (by omega)]
      by_cases heq : j = 16 + irq % 16
      · rw [if_pos (by omega), if_pos ⟨rfl, heq⟩]
      · rw [if_neg (by omega), if_neg (fun h => heq h.2)]
    · rw [Function.update_of_ne hc, if_neg (fun h => hc h.1)]
  · rw [if_neg hspi, if_neg hspi]
    have hne : j ≠ 16 + irq % 16 := by
      simp only [gicMinSpi0] at hspi
      omega
    rw [if_neg (fun h => hne h.2)]

/-- **`configure` of a private or a shared interrupt** sets its trigger only. -/
theorem configure_local (h16 : 16 ≤ irq) {config : BitVec 32}
    (hc : config = 0#32 ∨ config = 2#32) :
    ∃ s', gicSetConfig irq config s = .ok () s' ∧ (FieldUpdate.configure irq config).Local s s' := by
  by_cases hspi : gicMinSpi0 ≤ irq
  · refine ⟨_, gicSetConfig_spi hspi hc, fun _ => ?_, fun c j _ _ hj => ?_, fun j hj => ?_⟩
    · rw [config_setSpi hspi, if_pos rfl]
    · have hne : j ≠ irq := fun heq => absurd (hj heq).2 (not_lt.mpr hspi)
      rw [config_setSpi hspi, if_neg hne]
    · exact target_setConfig _ _ _ hj
  · have hppi := not_le.mp hspi
    have hfield : 16 + irq % 16 = irq := by
      simp only [gicMinSpi0] at hppi
      omega
    refine ⟨_, gicSetConfig_private hppi hc, fun _ => ?_, fun c j hlo _ hj => ?_, fun j _ => rfl⟩
    · rw [config_setPrivate _ h16, hfield, if_pos ⟨rfl, rfl⟩]
    · rw [config_setPrivate _ hlo, hfield, if_neg fun h => (hj h.2).1 h.1]

/-- **`configure` below 16** sets the trigger of the interrupt that is 16 above. -/
theorem configure_sgi (h16 : irq < 16) {config : BitVec 32} (hc : config = 0#32 ∨ config = 2#32) :
    (∃ s', gicSetConfig irq config s = .ok () s' ∧
        (FieldUpdate.configure irq config).Local s s') ↔
      s.config s.core (irq + 16) = config.setWidth 2 := by
  have hppi : irq < gicMinSpi0 := by
    simp only [gicMinSpi0]
    omega
  have hfield : 16 + irq % 16 = irq + 16 := by omega
  constructor
  · rintro ⟨s', hexec, _, hothers, _⟩
    rw [gicSetConfig_private hppi hc] at hexec
    cases hexec
    have hsame := hothers s.core (irq + 16) (by omega) (by omega) fun heq => by omega
    rw [config_setPrivate _ (by omega), hfield, if_pos ⟨rfl, rfl⟩] at hsame
    exact hsame.symm
  · intro hsame
    refine ⟨_, gicSetConfig_private hppi hc, fun h => by omega, fun c j hlo _ _ => ?_,
      fun j _ => rfl⟩
    rw [config_setPrivate _ hlo, hfield]
    by_cases hj : c = s.core ∧ j = irq + 16
    · rw [if_pos hj, hj.1, hj.2, hsame]
    · rw [if_neg hj]

/-! ## `set_affinity` -/

/-- Set the target of a shared interrupt the way `gic_set_target` does. -/
def Gicd.keepTarget (d : Gicd) (irq : ℕ) (x : Byte) : Gicd :=
  d.write (gicdItargetsr (irq / 4)) (keep (d.read (gicdItargetsr (irq / 4))) (irq % 4) x)

/-- Its own target gets bits, and the others of the word lose theirs. -/
theorem target_keepTarget (d : Gicd) (irq j : ℕ) (x : Byte) :
    (d.keepTarget irq x).target j =
      if j = irq then d.target irq ||| x else if j / 4 = irq / 4 then 0#8 else d.target j := by
  have htarget : ∀ d : Gicd, d.target j = field 8 (d.read (gicdItargetsr (j / 4))) (j % 4) :=
    fun _ => rfl
  have hj : (j % 4 + 1) * 8 ≤ 32 := by omega
  by_cases hword : j / 4 = irq / 4
  · have hread : (d.keepTarget irq x).read (gicdItargetsr (j / 4)) =
        keep (d.read (gicdItargetsr (j / 4))) (irq % 4) x := by
      rw [hword, Gicd.keepTarget, read_itargetsr, write_itargetsr]
      exact Function.update_self _ _ _
    rw [htarget, hread, field_keep _ _ hj]
    by_cases heq : j = irq
    · rw [if_pos heq, if_pos (by omega), ← heq, htarget]
    · rw [if_neg heq, if_neg (by omega), if_pos hword]
  · have hirq : j ≠ irq := fun heq => hword (heq ▸ rfl)
    rw [if_neg hirq, if_neg hword, htarget, htarget, Gicd.keepTarget, read_write_itargetsr d hword]

/-- The triggers are other registers than the targets. -/
theorem read_icfgr_keepTarget (d : Gicd) (x : Byte) (hirq : irq < 1020) (n : ℕ) :
    (d.keepTarget irq x).read (gicdIcfgr n) = d.read (gicdIcfgr n) := by
  have hne : gicdIcfgr n ≠ gicdItargetsr (irq / 4) := by
    simp only [gicdItargetsr, gicdIcfgr]
    omega
  rw [read_icfgr, read_icfgr, Gicd.keepTarget, write_itargetsr]
  exact Function.update_of_ne hne _ _

/-- The state after the target of a shared interrupt was set. -/
def HypIcfgr.setTarget (s : HypIcfgr) (irq : ℕ) (x : Byte) : HypIcfgr :=
  { s with hyp := { s.hyp with gicd := s.hyp.gicd.keepTarget irq x } }

theorem gicSetTarget_shared (hlo : gicMinSpi0 ≤ irq) (hhi : irq < 1020) {target : BitVec 32}
    (ht : target.toNat < 256) : zoom HypIcfgr.hypPart (gicSetTarget irq target) s =
      .ok () (s.setTarget irq (target.setWidth 8)) := by
  have hlpi : ¬ gicMinLpi ≤ irq := by
    simp only [gicMinLpi]
    omega
  have hgic : s.hyp.gic.retarget irq target =
      { s.hyp.gic with gicd := s.hyp.gicd.keepTarget irq (target.setWidth 8) } := by
    rw [Gic.retarget, if_neg (not_lt.mpr hlo), if_neg hlpi, keep_target _ _ ht]
    rfl
  have hrun := gicSetTarget_eq irq s.hyp target
  rw [hgic] at hrun
  exact zoom_of_ok hrun

theorem target_setTarget (x : Byte) : (s.setTarget irq x).target j =
    if j = irq then s.target irq ||| x else if j / 4 = irq / 4 then 0#8 else s.target j :=
  target_keepTarget _ _ _ _

theorem config_setTarget (x : Byte) (hirq : irq < 1020) :
    (s.setTarget irq x).config c j = s.config c j := by
  rw [HypIcfgr.config, HypIcfgr.config]
  by_cases hj : j < gicMinSpi0
  · rw [if_pos hj, if_pos hj]
    rfl
  · rw [if_neg hj, if_neg hj]
    exact congrArg (fun v => field 2 v (j % 16)) (read_icfgr_keepTarget _ _ hirq _)

/-- **`set_affinity`** sets the target of its interrupt only when there is nothing to spoil. -/
theorem affinity_local_iff (hlo : gicMinSpi0 ≤ irq) (hhi : irq < 1020) {target : BitVec 32}
    (ht : target.toNat < 256) :
    (∃ s', zoom HypIcfgr.hypPart (gicSetTarget irq target) s = .ok () s' ∧
        (FieldUpdate.affinity irq target).Local s s') ↔
      (FieldUpdate.affinity irq target).Spares s := by
  have hexec := gicSetTarget_shared (s := s) hlo hhi ht
  constructor
  · rintro ⟨s', hexec', hself, hothers, _⟩
    rw [hexec] at hexec'
    cases hexec'
    rw [target_setTarget, if_pos rfl] at hself
    refine ⟨hself, fun j hj hword hne => ?_⟩
    have hother := hothers j hj hne
    rw [target_setTarget, if_neg hne, if_pos hword] at hother
    exact hother.symm
  · rintro ⟨hself, hothers⟩
    refine ⟨_, hexec, ?_, fun j hj hne => ?_, fun c j _ _ => config_setTarget _ hhi⟩
    · rw [target_setTarget, if_pos rfl, hself]
    · rw [target_setTarget, if_neg hne]
      by_cases hword : j / 4 = irq / 4
      · rw [if_pos hword, hothers j hj hword hne]
      · rw [if_neg hword]

/-! ## `hyper_spi_config` -/

/-- **`hyper_spi_config`** meant to send an interrupt to the first core.  It sets the trigger and
turns the interrupt on, but leaves its target as it was and takes those of its neighbours away. -/
theorem hyperSpiConfig_spec (hlo : gicMinSpi0 ≤ irq) (hhi : irq < 1020) {type : BitVec 32}
    (ht : type = 0#32 ∨ type = 2#32) : ∃ s', hyperSpiConfig irq type s = .ok () s' ∧
      s'.config s.core irq = type.setWidth 2 ∧ s'.hyp.gicd.enabled irq = true ∧
      s'.target irq = s.target irq ∧
      ∀ j < 1020, j / 4 = irq / 4 → j ≠ irq → s'.target j = 0#8 := by
  obtain ⟨t, ht₀⟩ : ∃ t, t = s.setTarget irq ((0#32).setWidth 8) := ⟨_, rfl⟩
  have htarget : zoom HypIcfgr.hypPart (gicSetTarget irq 0#32) s = .ok () t := by
    rw [ht₀]
    exact gicSetTarget_shared hlo hhi (by decide)
  obtain ⟨u, hu⟩ : ∃ u, u = t.setSpi irq (type.setWidth 2) := ⟨_, rfl⟩
  have hconfig : gicSetConfig irq type t = .ok () u := by
    rw [hu]
    exact gicSetConfig_spi hlo ht
  have hexec : hyperSpiConfig irq type s =
      .ok () { u with hyp := u.hyp.withGic (u.hyp.gic.unmask u.hyp.ram.core irq) } := by
    rw [hyperSpiConfig, bind_of_ok htarget, bind_of_ok hconfig]
    exact zoom_of_ok (gicEnableInt_eq irq u.hyp)
  refine ⟨_, hexec, ?_⟩
  have hgicd : (u.hyp.withGic (u.hyp.gic.unmask u.hyp.ram.core irq)).gicd =
      u.hyp.gicd.setEnable irq := by
    have hlpi : ¬ gicMinLpi ≤ irq := by
      simp only [gicMinLpi]
      omega
    rw [Gic.unmask, if_neg hlpi, if_pos hlo]
    rfl
  have hregs : (u.hyp.gicd.setEnable irq).regs = u.hyp.gicd.regs := setEnable_regs _ (by omega)
  have htargets : ∀ j < 1020, (u.hyp.gicd.setEnable irq).target j = t.target j := by
    intro j hj
    have hsame : (u.hyp.gicd.setEnable irq).target j = u.hyp.gicd.target j := by
      rw [Gicd.target, Gicd.target, read_itargetsr, read_itargetsr, hregs]
    rw [hsame, hu, gicd_setSpi]
    exact target_setConfig _ _ _ hj
  rw [HypIcfgr.config, HypIcfgr.target, hgicd, if_neg (not_lt.mpr hlo)]
  refine ⟨?_, ?_, ?_, fun j hj hword hne => ?_⟩
  · rw [read_icfgr, hregs, ← read_icfgr, hu, gicd_setSpi, field_setConfig, if_pos rfl]
  · rw [enabled_setEnable _ (by omega)]
    simp
  · rw [htargets irq hhi, ht₀, target_setTarget, if_pos rfl]
    exact BitVec.or_zero
  · rw [HypIcfgr.target, hgicd, htargets j hj, ht₀, target_setTarget, if_neg hne, if_pos hword]

end fields

/-- **A field update is local** exactly when it has nothing to spoil.  Setting a trigger from 16 on
always is.  Setting a target keeps the old bits of its own and clears the other three of the word,
and setting a trigger below 16 writes that of the interrupt 16 above. -/
theorem fieldUpdate_local_iff {op : FieldUpdate} (hop : op.Valid) (s : HypIcfgr) :
    (∃ s', op.exec s = .ok () s' ∧ op.Local s s') ↔ op.Spares s := by
  cases op with
  | affinity irq target => exact affinity_local_iff hop.1 hop.2.1 hop.2.2
  | configure irq config =>
      by_cases h16 : irq < 16
      · simp only [FieldUpdate.Spares, h16, true_implies]
        exact configure_sgi h16 hop.2
      · exact iff_of_true (configure_local (not_lt.mp h16) hop.2) fun h => absurd h h16

/-- Interrupts 33 and 34 go to the first core, and interrupt 17 is triggered by an edge. -/
def twoTargets : HypIcfgr where
  hyp := { zeroHyp ⟨0, fun _ => 0, ⟨.leftBy 0, 0⟩⟩ (freshPool (.leftBy 0) 0x1000) with
    gicd := ⟨fun _ => 0, fun n => if n = 0x820 then 0x00010100 else 0⟩ }
  icfgr1 := fun _ => 0x8

/-- Setting the trigger of interrupt 18 changes no other. -/
theorem fieldUpdate_local_edge : ∃ s', (FieldUpdate.configure 18 2#32).exec twoTargets = .ok () s' ∧
    (FieldUpdate.configure 18 2#32).Local twoTargets s' := by
  have hop : (FieldUpdate.configure 18 2#32).Valid := ⟨by decide, Or.inr rfl⟩
  exact (fieldUpdate_local_iff hop twoTargets).mpr fun h => absurd h (by decide)

/-- Sending interrupt 33 to the second core leaves it on the first and takes interrupt 34 off it;
setting the trigger of interrupt 1 sets that of interrupt 17. -/
theorem fieldUpdate_spoils :
    (¬ ∃ s', (FieldUpdate.affinity 33 2#32).exec twoTargets = .ok () s' ∧
      (FieldUpdate.affinity 33 2#32).Local twoTargets s') ∧
    ¬ ∃ s', (FieldUpdate.configure 1 0#32).exec twoTargets = .ok () s' ∧
      (FieldUpdate.configure 1 0#32).Local twoTargets s' := by
  constructor
  · rintro ⟨s', hexec, hself, _⟩
    cases hexec
    revert hself
    decide
  · rintro ⟨s', hexec, _, hothers, _⟩
    cases hexec
    have hsame := hothers 0 17 (by decide) (by decide) (by decide)
    revert hsame
    decide

end Xhyper
