import Xhyper.PrivateEnables

/-!
# Turning one interrupt on or off

`gic_enable_int` and `gic_disable_int` read a register, set the bit of the interrupt in it, and
write it back.  Writing back what is set already does nothing to a register whose ones set, and
clears it in a register whose ones clear.

## Main definitions

* `Gic.enabled` — whether an interrupt is on.
* `Gic.TouchesOnly` — one interrupt is turned on or off.
* `Gic.Alone` — no other interrupt of the register is on.
* `mask_unmask_exact` — turning on is exact, and turning off exactly when it is alone.
-/

namespace Xhyper

open Memory Prog

namespace Gic

/-- The enable bit of an interrupt: one of the redistributor of a core, or of the distributor. -/
def enabled (g : Gic) (core irq : ℕ) : Bool :=
  if irq < gicMinSpi0 then (g.gicr core).getLsbD irq else g.gicd.enabled irq

/-- Seen from the core `core`, the interrupt `irq` is turned on or off and no other one is. -/
def TouchesOnly (g g' : Gic) (core irq : ℕ) (on : Bool) : Prop :=
  ∀ c i, i < 1020 →
    g'.enabled c i = if i = irq ∧ (c = core ∨ gicMinSpi0 ≤ irq) then on else g.enabled c i

/-- No other interrupt whose bit is in the same register is on. -/
def Alone (g : Gic) (core irq : ℕ) : Prop :=
  ∀ i < 1020, i / 32 = irq / 32 → i ≠ irq → g.enabled core i = false

section bits
variable {core irq : ℕ} (g : Gic)

/-- What is read and written back to a register whose ones clear. -/
theorem clear_readback (w b : BitVec 32) : w &&& ~~~(w ||| b) = 0#32 := by
  ext i hi
  simp
  grind

/-- Turning off a shared interrupt. -/
theorem clearEnable_enable (d : Gicd) (hirq : irq < 1024) :
    (d.clearEnable irq).enable = Function.update d.enable (irq / 32) 0#32 := by
  have hset : ¬ (0x100 ≤ 0x180 + irq / 32 * 4 ∧ 0x180 + irq / 32 * 4 < 0x180) := by omega
  have hclear : 0x180 ≤ 0x180 + irq / 32 * 4 ∧ 0x180 + irq / 32 * 4 < 0x200 := by omega
  have hn : (0x180 + irq / 32 * 4 - 0x180) / 4 = irq / 32 := by omega
  simp only [Gicd.clearEnable, Gicd.write, Gicd.read, gicdIcenabler, if_neg hset, if_pos hclear, hn,
    clear_readback]

/-- **`unmask`** turns on its interrupt. -/
theorem enabled_unmask (hirq : irq < 1024) (c i : ℕ) :
    (g.unmask core irq).enabled c i =
      if i = irq ∧ (c = core ∨ gicMinSpi0 ≤ irq) then true else g.enabled c i := by
  have hlpi : ¬ gicMinLpi ≤ irq := by
    simp only [gicMinLpi]
    omega
  by_cases hspi : gicMinSpi0 ≤ irq
  · rw [unmask, if_neg hlpi, if_pos hspi]
    simp only [enabled, enabled_setEnable _ hirq]
    grind
  · have hsgi : irq < 32 := by
      simp only [gicMinSpi0] at hspi
      omega
    have hgicd : (g.unmask core irq).gicd = g.gicd := by rw [unmask, if_neg hlpi, if_neg hspi]
    simp only [enabled, hgicd, unmask_gicr hsgi]
    grind

/-- **`mask`** turns off every interrupt of the register. -/
theorem enabled_mask (hirq : irq < 1024) (c i : ℕ) :
    (g.mask core irq).enabled c i =
      if i / 32 = irq / 32 ∧ (c = core ∨ gicMinSpi0 ≤ irq) then false else g.enabled c i := by
  have hlpi : ¬ gicMinLpi ≤ irq := by
    simp only [gicMinLpi]
    omega
  by_cases hspi : gicMinSpi0 ≤ irq
  · have hgicr : (g.mask core irq).gicr = g.gicr := by rw [mask, if_neg hlpi, if_pos hspi]
    have hgicd : (g.mask core irq).gicd = g.gicd.clearEnable irq := by
      rw [mask, if_neg hlpi, if_pos hspi]
    simp only [enabled, hgicr, hgicd, Gicd.enabled, clearEnable_enable _ hirq, hspi, or_true,
      and_true]
    by_cases hword : i / 32 = irq / 32
    · have hi : ¬ i < gicMinSpi0 := by
        simp only [gicMinSpi0] at hspi ⊢
        omega
      simp [hi, hword]
    · simp [hword]
  · have hgicd : (g.mask core irq).gicd = g.gicd := by rw [mask, if_neg hlpi, if_neg hspi]
    have hgicr : (g.mask core irq).gicr = Function.update g.gicr core 0#32 := by
      rw [mask, if_neg hlpi, if_neg hspi]
      simp only [clear_readback]
    have hsgi : irq / 32 = 0 := by
      simp only [gicMinSpi0] at hspi
      omega
    simp only [enabled, hgicd, hgicr, hspi, or_false, hsgi]
    by_cases hi : i < gicMinSpi0
    · have hword : i / 32 = 0 := by
        simp only [gicMinSpi0] at hi
        omega
      by_cases hc : c = core
      · subst hc
        simp [hi, hword]
      · simp [hi, hc]
    · have hword : i / 32 ≠ 0 := by
        simp only [gicMinSpi0] at hi
        omega
      simp [hi, hword]

/-- The bit of a shared interrupt is the same seen from every core. -/
theorem enabled_congr {c i : ℕ} (hcore : c = core ∨ gicMinSpi0 ≤ irq) (hword : i / 32 = irq / 32) :
    g.enabled c i = g.enabled core i := by
  rcases hcore with rfl | hspi
  · rfl
  · have hi : ¬ i < gicMinSpi0 := by
      simp only [gicMinSpi0] at hspi ⊢
      omega
    rw [enabled, enabled, if_neg hi, if_neg hi]

/-- It touches its interrupt only when that is alone. -/
theorem touchesOnly_mask (hirq : irq < 1020) :
    g.TouchesOnly (g.mask core irq) core irq false ↔ g.Alone core irq := by
  constructor
  · intro h i hi hword hne
    have hmask := @enabled_mask core irq g (by omega) core i
    rw [if_pos ⟨hword, Or.inl rfl⟩] at hmask
    have htouch := h core i hi
    rw [if_neg (fun hand => hne hand.1)] at htouch
    exact htouch.symm.trans hmask
  · intro h c i hi
    rw [g.enabled_mask (by omega) c i]
    by_cases hcore : c = core ∨ gicMinSpi0 ≤ irq
    · by_cases hword : i / 32 = irq / 32
      · rw [if_pos ⟨hword, hcore⟩]
        by_cases hne : i = irq
        · rw [if_pos ⟨hne, hcore⟩]
        · rw [if_neg fun hand => hne hand.1]
          rw [g.enabled_congr hcore hword]
          exact (h i hi hword hne).symm
      · have hne : i ≠ irq := fun heq => hword (heq ▸ rfl)
        simp [hword, hne]
    · simp [hcore]

end bits

end Gic

/-- **`unmask` and `mask`** as they run on a core: turning on an interrupt turns on no other one,
whatever is on.  Turning it off turns off no other one exactly when no other one of its register is
on. -/
theorem mask_unmask_exact {irq : ℕ} (hirq : irq < 1020) (s : Hyp) :
    (∃ s', gicEnableInt irq s = .ok () s' ∧ s.gic.TouchesOnly s'.gic s.ram.core irq true) ∧
    ((∃ s', gicDisableInt irq s = .ok () s' ∧ s.gic.TouchesOnly s'.gic s.ram.core irq false) ↔
      s.gic.Alone s.ram.core irq) := by
  constructor
  · refine ⟨_, gicEnableInt_eq irq s, ?_⟩
    rw [Hyp.withGic_gic]
    exact fun c i _ => s.gic.enabled_unmask (by omega) c i
  · rw [gicDisableInt_eq, ← Gic.touchesOnly_mask _ hirq]
    constructor
    · rintro ⟨s', hs', h⟩
      cases hs'
      exact h
    · exact fun h => ⟨_, rfl, h⟩

/-- A machine whose interrupts 33, 40 and 64 are on. -/
def threeEnabled : Hyp :=
  { zeroHyp ⟨0, fun _ => 0, ⟨.leftBy 0, 0⟩⟩ (freshPool (.leftBy 0) 0x1000) with
    gicd := ⟨fun n => if n = 1 then 0x102 else if n = 2 then 1 else 0, fun _ => 0⟩ }

/-- Turning off 64 leaves the others on. -/
theorem mask_unmask_alone : ∃ s', gicDisableInt 64 threeEnabled = .ok () s' ∧
    threeEnabled.gic.TouchesOnly s'.gic threeEnabled.ram.core 64 false := by
  refine (mask_unmask_exact (by decide) threeEnabled).2.mpr fun i _ hword hne => ?_
  have hi : ¬ i < gicMinSpi0 := by
    simp only [gicMinSpi0]
    omega
  have hword' : i / 32 = 2 := hword
  have hbit : i % 32 ≠ 0 := by omega
  rw [Gic.enabled, if_neg hi, Gicd.enabled, hword']
  change (1#32).getLsbD (i % 32) = false
  simp [BitVec.getLsbD_one, hbit]

/-- Turning off 40 turns off 33. -/
theorem mask_turns_off_another : ¬ ∃ s', gicDisableInt 40 threeEnabled = .ok () s' ∧
    threeEnabled.gic.TouchesOnly s'.gic threeEnabled.ram.core 40 false := by
  rintro ⟨s', hs', h⟩
  rw [gicDisableInt_eq] at hs'
  rw [← (EStateM.Result.ok.inj hs').2, Hyp.withGic_gic] at h
  have hoff := (threeEnabled.gic.touchesOnly_mask (by decide)).mp h 33 (by decide) (by decide)
    (by decide)
  revert hoff
  decide

end Xhyper
