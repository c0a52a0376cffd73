import Xhyper.VgicEnable
import Xhyper.Vgicr

/-!
# The records of interrupts, register by register

A write to an enable, priority or target register of the distributor or of a redistributor goes
over the interrupts of the register: it sets one byte of the record of each selected one, and
may tell the physical interrupt controller.  A read puts together one byte of each record.

## Main definitions

* `slotAddr`, `irqAddr` — where the record of an interrupt is, and where the code looks for it.
* `Gic` — the physical controller, `Gic.unmask`, `Gic.mask`, `Gic.retarget` what it is told.
* `RegLoop`, `RegLoop.after` — a loop over the interrupts of a register, and what it does.
* `gicdLoop`, `vgicdWriteReg_loop` — the registers of the distributor.
* `Gathered` — what a read puts together.
-/

namespace Xhyper

open Memory Prog

/-! ## Where the records are -/

/-- The record of an interrupt: the element of the array it belongs to. -/
def slotAddr (vgicCpu spis irq : ℕ) : ℕ :=
  if irq < 16 then sgiAddr vgicCpu irq
  else if irq < 32 then ppiAddr vgicCpu (irq - 16)
  else spis + sizeofIrqConfig * (irq - 32)

/-- The address that `vgic_irq_get` gives. -/
def irqAddr (vgicCpu spis irq : ℕ) : ℕ :=
  if irq < 16 then sgiAddr vgicCpu irq
  else if irq < 32 then ppiAddr vgicCpu irq
  else spis + sizeofIrqConfig * (irq - 32)

/-- It is the record, but for the interrupts 16 to 31. -/
theorem irqAddr_eq_slotAddr {vgicCpu spis irq : ℕ} (h : irq < 16 ∨ 32 ≤ irq) :
    irqAddr vgicCpu spis irq = slotAddr vgicCpu spis irq := by
  rw [irqAddr, slotAddr]
  rcases h with hsgi | hspi
  · rw [if_pos hsgi, if_pos hsgi]
  · rw [if_neg (by omega), if_neg (by omega), if_neg (by omega), if_neg (by omega)]

/-- Within the interrupts of a register, different ones have different records. -/
theorem irqAddr_inj {vgicCpu spis irq irq' f : ℕ} (hsame : irq / 32 = irq' / 32)
    (h : irqAddr vgicCpu spis irq + f = irqAddr vgicCpu spis irq' + f) : irq = irq' := by
  simp only [irqAddr, sgiAddr, ppiAddr, sizeofIrqConfig] at h
  split at h <;> split at h <;> (try split at h) <;> (try split at h) <;> omega

namespace Hyp

/-- Replace memory. -/
def withMem (s : Hyp) (m : Mem) : Hyp := { s with ram := { s.ram with mem := m } }

/-- The distributor of the machine of `v`. -/
def dist (s : Hyp) (v : Fin ncpu) : ℕ := (s.vms (s.vcpus v).vm).vgicDist

/-- Where the records of its shared interrupts begin. -/
def spis (s : Hyp) (v : Fin ncpu) : ℕ := read64 s.ram.mem (s.dist v + 8)

/-- Where the code looks for the record of an interrupt of `v`. -/
def lookup (s : Hyp) (v : Fin ncpu) (irq : ℕ) : ℕ := irqAddr (s.vcpus v).vgicCpu (s.spis v) irq

/-- The code looks for it at the same place while the pointer to the shared ones is. -/
theorem lookup_congr {s s' : Hyp} {v : Fin ncpu} (hvcpus : s'.vcpus = s.vcpus)
    (hvms : s'.vms = s.vms)
    (hptr : Set.EqOn s'.ram.mem s.ram.mem (block (s.dist v + 8) 8)) (irq : ℕ) :
    s'.lookup v irq = s.lookup v irq := by
  have hdist : s'.dist v = s.dist v := by rw [dist, dist, hvcpus, hvms]
  have hspis : s'.spis v = s.spis v := by
    rw [spis, spis, hdist]
    exact readLe_congr fun x hx => hptr hx
  rw [lookup, lookup, hspis, hvcpus]

end Hyp

theorem vgicIrqGet_eq {s : Hyp} {v : Fin ncpu} (hvm : (s.vcpus v).vm ≠ 0)
    (hdist : s.dist v ≠ 0) (irq : ℕ) :
    vgicIrqGet v (irq : ℤ) s = .ok (s.lookup v irq) s := by
  refine eq_of_wp (y := pure (s.lookup v irq)) fun Q E h => ?_
  rw [wp_pure, Hyp.lookup, irqAddr] at h
  have hneg : (0 : ℤ) ≤ irq := Int.natCast_nonneg irq
  simp only [vgicIrqGet, wp_bind, wp_get]
  by_cases hsgi : irq < 16
  · rw [if_pos ⟨hneg, by omega⟩]
    simpa only [wp_pure, Int.toNat_natCast, if_pos hsgi] using h
  rw [if_neg (by omega)]
  by_cases hppi : irq < 32
  · rw [if_pos (by omega)]
    simpa only [wp_pure, Int.toNat_natCast, if_neg hsgi, if_pos hppi] using h
  rw [if_neg (by omega), if_pos (by omega)]
  rw [if_neg hsgi, if_neg hppi, Hyp.spis] at h
  rw [Hyp.dist] at h hdist
  simpa only [wp_bind, wp_derefVm hvm, if_neg hdist, wp_pure, Int.toNat_natCast] using h

/-! ## The physical controller -/

/-- The parts of the physical interrupt controller that a guest's writes reach. -/
structure Gic where
  gicd : Gicd
  gicr : ℕ → BitVec 32

namespace Hyp

/-- The physical interrupt controller. -/
def gic (s : Hyp) : Gic := ⟨s.gicd, s.gicr⟩

/-- Replace it. -/
def withGic (s : Hyp) (g : Gic) : Hyp := { s with gicd := g.gicd, gicr := g.gicr }

section
variable (s : Hyp) (m : Mem) (g : Gic)

@[simp] theorem withMem_mem : (s.withMem m).ram.mem = m := rfl
@[simp] theorem withMem_core : (s.withMem m).ram.core = s.ram.core := rfl
@[simp] theorem withMem_vcpus : (s.withMem m).vcpus = s.vcpus := rfl
@[simp] theorem withMem_vms : (s.withMem m).vms = s.vms := rfl
@[simp] theorem withMem_gic : (s.withMem m).gic = s.gic := rfl
@[simp] theorem withGic_ram : (s.withGic g).ram = s.ram := rfl
@[simp] theorem withGic_vcpus : (s.withGic g).vcpus = s.vcpus := rfl
@[simp] theorem withGic_vms : (s.withGic g).vms = s.vms := rfl
@[simp] theorem withGic_gic : (s.withGic g).gic = g := rfl

end

end Hyp

namespace Gic

/-- `gic_enable_int`. -/
def unmask (core irq : ℕ) (g : Gic) : Gic :=
  if gicMinLpi ≤ irq then g
  else if gicMinSpi0 ≤ irq then { g with gicd := g.gicd.setEnable irq }
  else
    let v := g.gicr core ||| (g.gicr core ||| 1#32 <<< (irq % 32))
    { g with gicr := Function.update g.gicr core v }

/-- `gic_disable_int`. -/
def mask (core irq : ℕ) (g : Gic) : Gic :=
  if gicMinLpi ≤ irq then g
  else if gicMinSpi0 ≤ irq then { g with gicd := g.gicd.clearEnable irq }
  else
    let v := g.gicr core &&& ~~~(g.gicr core ||| 1#32 <<< (irq % 32))
    { g with gicr := Function.update g.gicr core v }

/-- `gic_set_target`. -/
def retarget (irq : ℕ) (target : BitVec 32) (g : Gic) : Gic :=
  if irq < gicMinSpi0 then g
  else if gicMinLpi ≤ irq then g
  else
    let v := g.gicd.read (gicdItargetsr (irq / 4)) &&& 0xff#32 <<< (irq % 4 * 8) |||
      target <<< (irq % 4 * 8)
    { g with gicd := g.gicd.write (gicdItargetsr (irq / 4)) v }

end Gic

section hardware
variable (irq : ℕ) (s : Hyp)

theorem gicEnableInt_eq :
    gicEnableInt irq s = .ok () (s.withGic (s.gic.unmask s.ram.core irq)) := by
  refine eq_of_wp (y := set (s.withGic (s.gic.unmask s.ram.core irq))) fun Q E h => ?_
  rw [wp_set, Gic.unmask] at h
  simp only [gicEnableInt, wp_bind, wp_get, wp_ite, wp_pure]
  refine ⟨fun hlpi => ?_, fun hlpi => ⟨fun hspi => ?_, fun hspi => ?_⟩⟩
  · rw [if_pos hlpi] at h
    exact h
  · rw [if_neg hlpi, if_pos hspi] at h
    exact h
  · rw [if_neg hlpi, if_neg hspi] at h
    exact h

theorem gicDisableInt_eq :
    gicDisableInt irq s = .ok () (s.withGic (s.gic.mask s.ram.core irq)) := by
  refine eq_of_wp (y := set (s.withGic (s.gic.mask s.ram.core irq))) fun Q E h => ?_
  rw [wp_set, Gic.mask] at h
  simp only [gicDisableInt, wp_bind, wp_get, wp_ite, wp_pure]
  refine ⟨fun hlpi => ?_, fun hlpi => ⟨fun hspi => ?_, fun hspi => ?_⟩⟩
  · rw [if_pos hlpi] at h
    exact h
  · rw [if_neg hlpi, if_pos hspi] at h
    exact h
  · rw [if_neg hlpi, if_neg hspi] at h
    exact h

theorem gicSetTarget_eq (target : BitVec 32) :
    gicSetTarget irq target s = .ok () (s.withGic (s.gic.retarget irq target)) := by
  refine eq_of_wp (y := set (s.withGic (s.gic.retarget irq target))) fun Q E h => ?_
  rw [wp_set, Gic.retarget] at h
  simp only [gicSetTarget, wp_bind, wp_get, wp_ite, wp_pure]
  refine ⟨fun hsgi => ?_, fun hsgi => ⟨fun hlpi => ?_, fun hlpi => ?_⟩⟩
  · rw [if_pos hsgi] at h
    exact h
  · rw [if_neg hsgi, if_pos hlpi] at h
    exact h
  · rw [if_neg hsgi, if_neg hlpi] at h
    exact h

end hardware

/-! ## The loops of the write functions -/

/-- A loop over the `n` interrupts of a register from `irqNum` on: it stores `byte i` in the
byte `field` of the record of each selected one and tells the physical controller. -/
structure RegLoop where
  irqNum : ℕ
  n : ℕ
  field : ℕ
  sel : ℕ → Bool
  byte : ℕ → Byte
  tell : ℕ → ℕ → Gic → Gic

namespace RegLoop

variable (L : RegLoop) (v : Fin ncpu) (s : Hyp)

/-- The byte that is set for the interrupt `i` of the register. -/
def addr (i : ℕ) : ℕ := s.lookup v (L.irqNum + i) + L.field

/-- What the loop does for the interrupt `i`. -/
def step (i : ℕ) : Hyp :=
  if L.sel i then
    (s.withMem (Function.update s.ram.mem (L.addr v s i) (L.byte i))).withGic
      (L.tell s.ram.core i s.gic)
  else s

variable {L v s} in
theorem step_pos {i : ℕ} (h : L.sel i = true) : L.step v s i =
    (s.withMem (Function.update s.ram.mem (L.addr v s i) (L.byte i))).withGic
      (L.tell s.ram.core i s.gic) :=
  if_pos h

variable {L v s} in
theorem step_neg {i : ℕ} (h : ¬ L.sel i = true) : L.step v s i = s := if_neg h

/-- The physical controller after the first `k` interrupts. -/
def gicAfter (core : ℕ) (g : Gic) : ℕ → Gic
  | 0 => g
  | k + 1 => if L.sel k then L.tell core k (gicAfter core g k) else gicAfter core g k

/-- The state after the first `k` interrupts. -/
def after (k : ℕ) : Hyp :=
  (s.withMem (scatter s.ram.mem (L.addr v s) L.sel L.byte k)).withGic
    (L.gicAfter s.ram.core s.gic k)

section
variable (k : ℕ)

@[simp] theorem after_mem :
    (L.after v s k).ram.mem = scatter s.ram.mem (L.addr v s) L.sel L.byte k := rfl
@[simp] theorem after_core : (L.after v s k).ram.core = s.ram.core := rfl
@[simp] theorem after_vms : (L.after v s k).vms = s.vms := rfl
@[simp] theorem after_vcpus : (L.after v s k).vcpus = s.vcpus := rfl
@[simp] theorem after_gicMaxSpi : (L.after v s k).gicMaxSpi = s.gicMaxSpi := rfl
@[simp] theorem after_gic : (L.after v s k).gic = L.gicAfter s.ram.core s.gic k := rfl
@[simp] theorem after_dist : (L.after v s k).dist v = s.dist v := rfl

end

/-- The bytes set are not those of the pointer to the records. -/
def KeepsPtr : Prop :=
  ∀ i < L.n, L.sel i = true → L.addr v s i ∉ block (s.dist v + 8) 8

/-- **The bytes set are what the distributor does not work with**: they are neither those of the
pointer to the records nor those of the lock. -/
def KeepsDist : Prop :=
  ∀ i < L.n, L.sel i = true → L.addr v s i ∉ block (s.dist v + 8) 16

variable {L v s}

theorem KeepsDist.keepsPtr (h : L.KeepsDist v s) : L.KeepsPtr v s := fun i hi hsel hx =>
  h i hi hsel (block_subset le_rfl (by omega) hx)

/-- They are not if they are none of the distributor's own. -/
theorem keepsDist_of_out
    (h : ∀ i < L.n, L.sel i = true → L.addr v s i ∉ block (s.dist v) sizeofVgicDist) :
    L.KeepsDist v s := by
  intro i hi hsel hx
  have hsub : s.dist v + 8 + 16 ≤ s.dist v + sizeofVgicDist := by
    simp only [sizeofVgicDist]
    omega
  exact h i hi hsel (block_subset (Nat.le_add_right _ _) hsub hx)

theorem KeepsPtr.lookup (h : L.KeepsPtr v s) {k : ℕ} (hk : k ≤ L.n) (irq : ℕ) :
    (L.after v s k).lookup v irq = s.lookup v irq := by
  refine Hyp.lookup_congr (after_vcpus L v s k) (after_vms L v s k) (fun x hx => ?_) irq
  rw [after_mem]
  exact scatter_of_notMem fun i hi hsel heq => h i (hi.trans_le hk) hsel (heq ▸ hx)

theorem after_succ (h : L.KeepsPtr v s) {k : ℕ} (hk : k < L.n) :
    L.after v s (k + 1) = L.step v (L.after v s k) k := by
  have haddr : L.addr v (L.after v s k) k = L.addr v s k := by
    rw [addr, addr, h.lookup hk.le]
  rw [step, haddr]
  by_cases hsel : L.sel k = true
  · rw [if_pos hsel, after, scatter, if_pos hsel, gicAfter, if_pos hsel]
    rfl
  · rw [if_neg hsel, after, scatter, if_neg hsel, gicAfter, if_neg hsel]
    rfl

/-- **A loop whose rounds are steps** goes through the states. -/
theorem runs (h : L.KeepsPtr v s) {body : ℕ → Exec Hyp Unit}
    (hbody : ∀ i < L.n, ∀ t : Hyp, t.vcpus = s.vcpus → t.vms = s.vms →
      body i t = .ok () (L.step v t i)) :
    forRange 1 0 L.n body s = .ok L.n (L.after v s L.n) := by
  refine forRange_runs (S := L.after v s) fun k hk => ?_
  rw [after_succ h hk]
  exact hbody k hk _ rfl rfl

end RegLoop

/-- The loop over an enable register. -/
def enableLoop (irqNum : ℕ) (val : BitVec 64) (enabled : Byte) (tell : ℕ → ℕ → Gic → Gic) :
    RegLoop where
  irqNum := irqNum
  n := 32
  field := 2
  sel := val.getLsbD
  byte _ := enabled
  tell core i := tell core (irqNum + i)

/-- The byte of a written value for the interrupt `i` of a register. -/
def valByte (val : BitVec 64) (i : ℕ) : Byte := (val >>> (i * 8)).setWidth 8

/-- The loop over a priority register. -/
def prioLoop (irqNum : ℕ) (val : BitVec 64) : RegLoop where
  irqNum := irqNum
  n := 4
  field := 0
  sel _ := true
  byte := valByte val
  tell _ _ := id

/-- The loop over a target register. -/
def targetLoop (irqNum : ℕ) (val : BitVec 64) : RegLoop where
  irqNum := irqNum
  n := 4
  field := 1
  sel _ := true
  byte := valByte val
  tell _ i := Gic.retarget (irqNum + i) ((valByte val i).setWidth 32)

/-- The loop of a write to the distributor, if the register has one. -/
def gicdLoop (offset : ℕ) (val : BitVec 64) : Option RegLoop :=
  if 0x100 ≤ offset ∧ offset ≤ 0x17f then
    some (enableLoop ((offset - gicdIsenabler 0) / 4 * 32) val 1 Gic.unmask)
  else if 0x180 ≤ offset ∧ offset ≤ 0x1ff then
    some (enableLoop ((offset - gicdIsenabler 0) / 4 * 32) val 0 Gic.mask)
  else if 0x400 ≤ offset ∧ offset ≤ 0x7fb then some (prioLoop ((offset - 0x400) / 4 * 4) val)
  else if 0x800 ≤ offset ∧ offset ≤ 0xbfb then some (targetLoop ((offset - 0x800) / 4 * 4) val)
  else none

/-- The loop of a write to a redistributor. -/
def gicrLoop (offset : ℕ) (val : BitVec 64) : Option RegLoop :=
  if offset % gicrStride = 0x10100 then some (enableLoop 0 val 1 Gic.unmask)
  else if 0x10400 ≤ offset % gicrStride ∧ offset % gicrStride ≤ 0x1041c then
    some (prioLoop (gicrPrioIrq offset) val)
  else none

section loops
variable {s : Hyp} {v : Fin ncpu} {val : BitVec 64} {irqNum : ℕ}

theorem valByte_eq (i : ℕ) :
    BitVec.ofNat 8 (val >>> (i * 8) &&& 0xff#64).toNat = valByte val i := by
  apply BitVec.eq_of_toNat_eq
  have hmask : (0xff#64).toNat = 2 ^ 8 - 1 := rfl
  rw [BitVec.toNat_ofNat, BitVec.toNat_and, hmask, Nat.and_two_pow_sub_one_eq_mod, Nat.mod_mod,
    valByte, BitVec.toNat_setWidth]

theorem storeLe_byte (a x : ℕ) (s : Hyp) : storeLe a 1 x s =
    .ok () (s.withMem (Function.update s.ram.mem a (BitVec.ofNat 8 x))) := by
  rw [← writeLe_byte]
  rfl

/-- One round of a loop over an enable register. -/
theorem enableLoop_body {enabled : ℕ} {op : ℕ → Exec Hyp Unit} {tell : ℕ → ℕ → Gic → Gic}
    (hop : ∀ irq t, op irq t = .ok () (t.withGic (tell t.ram.core irq t.gic)))
    (hvm : (s.vcpus v).vm ≠ 0) (hdist : s.dist v ≠ 0) (i : ℕ) :
    (do
      let irq ← vgicIrqGet v (irqNum + i : ℕ)
      if val.getLsbD i = true then do
        storeLe (irq + 2) 1 enabled
        op (irqNum + i)
      else pure () : Exec Hyp Unit) s =
      .ok () ((enableLoop irqNum val (BitVec.ofNat 8 enabled) tell).step v s i) := by
  rw [bind_of_ok (vgicIrqGet_eq hvm hdist _)]
  by_cases hsel : val.getLsbD i = true
  · rw [if_pos hsel, RegLoop.step_pos hsel, bind_of_ok (storeLe_byte _ _ _), hop]
    rfl
  · rw [if_neg hsel, RegLoop.step_neg hsel]
    rfl

/-- One round of a loop over a priority register. -/
theorem prioLoop_body (hvm : (s.vcpus v).vm ≠ 0) (hdist : s.dist v ≠ 0) (i : ℕ) :
    (do
      let irq ← vgicIrqGet v (irqNum + i : ℕ)
      storeLe irq 1 (val >>> (i * 8) &&& 0xff#64).toNat : Exec Hyp Unit) s =
      .ok () ((prioLoop irqNum val).step v s i) := by
  rw [bind_of_ok (vgicIrqGet_eq hvm hdist _), RegLoop.step, storeLe_byte, valByte_eq]
  rfl

/-- One round of the loop over a target register: the byte is read back for the physical
controller. -/
theorem targetLoop_body (hvm : (s.vcpus v).vm ≠ 0) (hdist : s.dist v ≠ 0) (i : ℕ) :
    (do
      let irq ← vgicIrqGet v (irqNum + i : ℕ)
      storeLe (irq + 1) 1 (val >>> (i * 8) &&& 0xff#64).toNat
      let affinity ← loadLe (irq + 1) 1
      gicSetTarget (irqNum + i) (BitVec.ofNat 32 affinity) : Exec Hyp Unit) s =
      .ok () ((targetLoop irqNum val).step v s i) := by
  rw [bind_of_ok (vgicIrqGet_eq hvm hdist _), RegLoop.step, bind_of_ok (storeLe_byte _ _ _),
    valByte_eq]
  have hback : ∀ a : ℕ, loadLe a 1 (s.withMem (Function.update s.ram.mem a (valByte val i))) =
      .ok (valByte val i).toNat (s.withMem (Function.update s.ram.mem a (valByte val i))) := by
    intro a
    have hread : readLe (Function.update s.ram.mem a (valByte val i)) a 1 =
        (valByte val i).toNat := by
      rw [readLe_byte, Function.update_self]
    rw [← hread]
    rfl
  rw [bind_of_ok (hback _), gicSetTarget_eq]
  have hwidth : BitVec.ofNat 32 (valByte val i).toNat = (valByte val i).setWidth 32 := by
    apply BitVec.eq_of_toNat_eq
    simp
  rw [hwidth]
  rfl

/-- **The loops of the `switch` of `vgicd_write`.** -/
theorem vgicdWriteReg_body {offset : ℕ} {L : RegLoop} (v : Fin ncpu) (vgicDist : ℕ)
    (hL : gicdLoop offset val = some L) : ∃ body : ℕ → Exec Hyp Unit,
      (∀ i t, (t.vcpus v).vm ≠ 0 → t.dist v ≠ 0 → body i t = .ok () (L.step v t i)) ∧
      vgicdWriteReg v vgicDist offset val = (do
        let _ ← forRange 1 0 L.n body
        pure true) := by
  rw [gicdLoop] at hL
  rw [vgicdWriteReg]
  by_cases hset : 0x100 ≤ offset ∧ offset ≤ 0x17f
  · rw [if_pos hset] at hL
    cases hL
    rw [if_neg (by omega), if_pos hset, vgicdEnable, bind_assoc]
    simp only [pure_bind]
    exact ⟨_, fun i t hvm hdist => enableLoop_body gicEnableInt_eq hvm hdist i, rfl⟩
  rw [if_neg hset] at hL
  by_cases hclear : 0x180 ≤ offset ∧ offset ≤ 0x1ff
  · rw [if_pos hclear] at hL
    cases hL
    rw [if_neg (by omega), if_neg hset, if_pos hclear, vgicdEnable, bind_assoc]
    simp only [pure_bind]
    exact ⟨_, fun i t hvm hdist => enableLoop_body gicDisableInt_eq hvm hdist i, rfl⟩
  rw [if_neg hclear] at hL
  by_cases hprio : 0x400 ≤ offset ∧ offset ≤ 0x7fb
  · rw [if_pos hprio] at hL
    cases hL
    rw [if_neg (by omega), if_neg hset, if_neg hclear, if_pos hprio]
    exact ⟨_, fun i t hvm hdist => prioLoop_body hvm hdist i, rfl⟩
  rw [if_neg hprio] at hL
  by_cases htarget : 0x800 ≤ offset ∧ offset ≤ 0xbfb
  · rw [if_pos htarget] at hL
    cases hL
    rw [if_neg (by omega), if_neg hset, if_neg hclear, if_neg hprio, if_pos htarget]
    exact ⟨_, fun i t hvm hdist => targetLoop_body hvm hdist i, rfl⟩
  · rw [if_neg htarget] at hL
    cases hL

theorem vgicdWriteReg_loop {offset vgicDist : ℕ} {L : RegLoop} (hL : gicdLoop offset val = some L)
    (hvm : (s.vcpus v).vm ≠ 0) (hdist : s.dist v ≠ 0) (h : L.KeepsPtr v s) :
    vgicdWriteReg v vgicDist offset val s = .ok true (L.after v s L.n) := by
  obtain ⟨body, hbody, hreg⟩ := vgicdWriteReg_body v vgicDist hL
  rw [hreg]
  refine bind_of_ok (RegLoop.runs h fun i _ t hvcpus hvms => hbody i t ?_ ?_)
  · rwa [hvcpus]
  · rwa [Hyp.dist, hvcpus, hvms]

/-- Any other register but `GICD_CTLR` is ignored or not known. -/
theorem vgicdWriteReg_none {offset vgicDist : ℕ} (hL : gicdLoop offset val = none)
    (h0 : offset ≠ 0) : vgicdWriteReg v vgicDist offset val s = .ok (gicdIgnored offset) s := by
  have hset : ¬ (0x100 ≤ offset ∧ offset ≤ 0x17f) := by
    intro h
    rw [gicdLoop, if_pos h] at hL
    cases hL
  have hclear : ¬ (0x180 ≤ offset ∧ offset ≤ 0x1ff) := by
    intro h
    rw [gicdLoop, if_neg hset, if_pos h] at hL
    cases hL
  have hprio : ¬ (0x400 ≤ offset ∧ offset ≤ 0x7fb) := by
    intro h
    rw [gicdLoop, if_neg hset, if_neg hclear, if_pos h] at hL
    cases hL
  have htarget : ¬ (0x800 ≤ offset ∧ offset ≤ 0xbfb) := by
    intro h
    rw [gicdLoop, if_neg hset, if_neg hclear, if_neg hprio, if_pos h] at hL
    cases hL
  rw [vgicdWriteReg, if_neg h0, if_neg hset, if_neg hclear, if_neg hprio, if_neg htarget]
  rfl

end loops

/-! ## Under the lock -/

namespace Hyp

variable (s : Hyp) (v : Fin ncpu)

/-- The lock of the distributor of `v` taken. -/
def lockDist : Hyp := s.withMem (setDistLock s.ram.mem (s.dist v) (.heldBy s.ram.core))

/-- The lock given back. -/
def unlockDist : Hyp := s.withMem (setDistLock s.ram.mem (s.dist v) (.leftBy s.ram.core))

@[simp] theorem lockDist_mem :
    (s.lockDist v).ram.mem = setDistLock s.ram.mem (s.dist v) (.heldBy s.ram.core) := rfl
@[simp] theorem lockDist_core : (s.lockDist v).ram.core = s.ram.core := rfl
@[simp] theorem lockDist_vms : (s.lockDist v).vms = s.vms := rfl
@[simp] theorem lockDist_vcpus : (s.lockDist v).vcpus = s.vcpus := rfl
@[simp] theorem lockDist_gicMaxSpi : (s.lockDist v).gicMaxSpi = s.gicMaxSpi := rfl
@[simp] theorem lockDist_gic : (s.lockDist v).gic = s.gic := rfl
@[simp] theorem lockDist_dist : (s.lockDist v).dist v = s.dist v := rfl
@[simp] theorem unlockDist_mem :
    (s.unlockDist v).ram.mem = setDistLock s.ram.mem (s.dist v) (.leftBy s.ram.core) := rfl
@[simp] theorem unlockDist_core : (s.unlockDist v).ram.core = s.ram.core := rfl
@[simp] theorem unlockDist_vms : (s.unlockDist v).vms = s.vms := rfl
@[simp] theorem unlockDist_vcpus : (s.unlockDist v).vcpus = s.vcpus := rfl
@[simp] theorem unlockDist_gicMaxSpi : (s.unlockDist v).gicMaxSpi = s.gicMaxSpi := rfl
@[simp] theorem unlockDist_gic : (s.unlockDist v).gic = s.gic := rfl

end Hyp

section locked
variable {s : Hyp} {v : Fin ncpu}

/-- All eight bytes of the lock are written. -/
theorem setDistLock_inside {m m' : Mem} {a x : ℕ} {l : Spinlock} (hx : x ∈ block (a + 16) 8) :
    setDistLock m a l x = setDistLock m' a l x := by
  rw [mem_block] at hx
  simp only [setDistLock, writeLe]
  by_cases hword : a + 20 ≤ x ∧ x < a + 20 + 4
  · rw [if_pos hword, if_pos hword]
  · have howner : a + 16 ≤ x ∧ x < a + 16 + 4 := by omega
    rw [if_neg hword, if_neg hword, if_pos howner, if_pos howner]

/-- The word that is written is read back. -/
theorem word_distLock (m : Mem) (a : ℕ) (l : Spinlock) :
    (distLock (setDistLock m a l) a).word = l.word := by
  have hword : readLe (setDistLock m a l) (a + 20) 4 = l.word.toNat := by
    rw [setDistLock, readLe_writeLe]
    exact Nat.mod_eq_of_lt (BitVec.isLt _)
  rw [distLock, hword, BitVec.ofNat_toNat, BitVec.setWidth_eq]

/-- An operation of the lock writes the lock, or stops. -/
theorem withDistLock_ends {a : ℕ} {op : ℕ → Spinlock → Except Fault Spinlock}
    {Q : Unit → Hyp → Prop}
    (h : ∀ l, op s.ram.core (distLock s.ram.mem a) = .ok l →
      Q () (s.withMem (setDistLock s.ram.mem a l))) :
    wp (withDistLock a op) Q (fun _ _ => True) s := by
  simp only [withDistLock, wp_bind, wp_get]
  cases hop : op s.ram.core (distLock s.ram.mem a) with
  | ok l => exact h l hop
  | error e => trivial

/-- **What a core does under the lock**, when it leaves the lock alone. -/
theorem withDistLock_runs {x : Exec Hyp Bool} {t : Hyp} {b : Bool} (hcore : s.ram.core < 2 ^ 31)
    (hfree : (distLock s.ram.mem (s.dist v)).word = 0) (hx : x (s.lockDist v) = .ok b t)
    (hdist : t.dist v = s.dist v) (ht : t.ram.core = s.ram.core)
    (hkeep : Set.EqOn t.ram.mem (s.lockDist v).ram.mem (block (s.dist v + 16) 8)) :
    (do
      withDistLock (s.dist v) archSpinLock
      let handled ← x
      withDistLock (s.dist v) archSpinUnlock
      pure (if handled then 0 else -1) : Exec Hyp ℤ) s =
        .ok (if b then 0 else -1) (t.unlockDist v) := by
  have hend : (do set (t.unlockDist v); pure (if b then 0 else -1) : Exec Hyp ℤ) s =
      .ok (if b then 0 else -1) (t.unlockDist v) := rfl
  rw [← hend]
  refine eq_of_wp fun Q E h => ?_
  simp only [wp_bind, wp_set, wp_pure] at h
  rw [wp_bind, wp_distLock hfree]
  have hheld : distLock t.ram.mem (s.dist v) = .heldBy t.ram.core := by
    rw [distLock_of_eqOn hkeep, ht]
    refine distLock_setDistLock ?_ ?_ <;>
    · simp only [Spinlock.heldBy]
      omega
  rw [wp_bind]
  refine (wp_iff_of_ok hx).mpr ?_
  rw [wp_bind, wp_distUnlock hheld]
  rw [Hyp.unlockDist, hdist] at h
  exact h

/-- A core that can take the lock of the distributor of `v`. -/
structure VgicFree (s : Hyp) (v : Fin ncpu) : Prop where
  vm_ne : (s.vcpus v).vm ≠ 0
  dist_ne : s.dist v ≠ 0
  core : s.ram.core < 2 ^ 31
  lock_free : (distLock s.ram.mem (s.dist v)).word = 0

@[simp] theorem lockDist_spis : (s.lockDist v).spis v = s.spis v := by
  refine readLe_congr fun x hx => setDistLock_outside ?_
  simp only [Hyp.dist, Hyp.lockDist, Hyp.withMem_vms, Hyp.withMem_vcpus, mem_block] at hx ⊢
  omega

@[simp] theorem lockDist_lookup (irq : ℕ) : (s.lockDist v).lookup v irq = s.lookup v irq := by
  rw [Hyp.lookup, Hyp.lookup, lockDist_spis]
  rfl

/-- `vgicd_write` is its `switch` under the lock. -/
theorem vgicdWrite_eq {offset : ℕ} {val : BitVec 64} (F : VgicFree s v) :
    vgicdWrite v offset val s = (do
      withDistLock (s.dist v) archSpinLock
      let handled ← vgicdWriteReg v (s.dist v) offset val
      withDistLock (s.dist v) archSpinUnlock
      pure (if handled then 0 else -1) : Exec Hyp ℤ) s := by
  refine eq_of_wp fun Q E h => ?_
  have hdist : ¬ (s.vms (s.vcpus v).vm).vgicDist = 0 := F.dist_ne
  simp only [vgicdWrite, wp_bind, wp_get, wp_derefVm F.vm_ne, if_neg hdist]
  simp only [wp_bind] at h
  exact h

/-- What a write with the loop `L` leaves: the distributor's fields and its free lock, the bytes
set, and what the physical controller was told. -/
structure RegLoop.Written (L : RegLoop) (v : Fin ncpu) (s s' : Hyp) : Prop where
  vms : s'.vms = s.vms
  vcpus : s'.vcpus = s.vcpus
  gicMaxSpi : s'.gicMaxSpi = s.gicMaxSpi
  core : s'.ram.core = s.ram.core
  gic : s'.gic = L.gicAfter s.ram.core s.gic L.n
  lock : distLock s'.ram.mem (s.dist v) = .leftBy s.ram.core
  locked : Set.EqOn s'.ram.mem (setDistLock s.ram.mem (s.dist v) (.leftBy s.ram.core))
    (block (s.dist v + 16) 8)
  ptr : Set.EqOn s'.ram.mem s.ram.mem (block (s.dist v + 8) 8)
  mem : ∀ x ∉ block (s.dist v + 16) 8,
    s'.ram.mem x = scatter s.ram.mem (L.addr v s) L.sel L.byte L.n x

/-- What is scattered over two memories differs where they do. -/
theorem scatter_congr {m m' : Mem} {addr : ℕ → ℕ} {sel : ℕ → Bool} {b : ℕ → Byte} {k x : ℕ}
    (h : m x = m' x) : scatter m addr sel b k x = scatter m' addr sel b k x := by
  induction k with
  | zero => exact h
  | succ k ih =>
      rw [scatter, scatter]
      by_cases hsel : sel k = true
      · rw [if_pos hsel, if_pos hsel]
        by_cases hx : x = addr k
        · rw [hx, Function.update_self, Function.update_self]
        · rw [Function.update_of_ne hx, Function.update_of_ne hx, ih]
      · rw [if_neg hsel, if_neg hsel, ih]

/-- A write to a register with a loop that leaves the pointer and the lock alone: the loop runs
under the lock. -/
theorem vgicdWrite_loop_eq {offset : ℕ} {val : BitVec 64} {L : RegLoop} (F : VgicFree s v)
    (hL : gicdLoop offset val = some L) (hkeep : L.KeepsDist v s) :
    L.addr v (s.lockDist v) = L.addr v s ∧
      vgicdWrite v offset val s = .ok 0 ((L.after v (s.lockDist v) L.n).unlockDist v) := by
  have haddr : L.addr v (s.lockDist v) = L.addr v s := by
    funext i
    rw [RegLoop.addr, RegLoop.addr, lockDist_lookup]
  have hlocked : L.KeepsDist v (s.lockDist v) := by
    intro i hi hsel
    rw [haddr, Hyp.lockDist_dist]
    exact hkeep i hi hsel
  have hreg : vgicdWriteReg v (s.dist v) offset val (s.lockDist v) =
      .ok true (L.after v (s.lockDist v) L.n) :=
    vgicdWriteReg_loop (s := s.lockDist v) hL F.vm_ne F.dist_ne hlocked.keepsPtr
  refine ⟨haddr, (vgicdWrite_eq F).trans ?_⟩
  refine withDistLock_runs F.core F.lock_free hreg ?_ ?_ fun x hx => ?_
  · rw [RegLoop.after_dist, Hyp.lockDist_dist]
  · rw [RegLoop.after_core, Hyp.lockDist_core]
  · rw [RegLoop.after_mem, haddr]
    refine scatter_of_notMem fun i hi hsel heq => hkeep i hi hsel (heq ▸ ?_)
    exact block_subset (by omega) (by omega) hx

/-- **A write to a register with a loop** that leaves the pointer and the lock alone. -/
theorem vgicdWrite_loop {offset : ℕ} {val : BitVec 64} {L : RegLoop} (F : VgicFree s v)
    (hL : gicdLoop offset val = some L) (hkeep : L.KeepsDist v s) :
    ∃ s', vgicdWrite v offset val s = .ok 0 s' ∧ L.Written v s s' := by
  obtain ⟨haddr, hrun⟩ := vgicdWrite_loop_eq F hL hkeep
  generalize hu : L.after v (s.lockDist v) L.n = u at hrun
  have hmem : ∀ x, u.ram.mem x =
      scatter (s.lockDist v).ram.mem (L.addr v s) L.sel L.byte L.n x := by
    intro x
    rw [← hu, RegLoop.after_mem, haddr]
  have hdist : u.dist v = s.dist v := by rw [← hu, RegLoop.after_dist, Hyp.lockDist_dist]
  have hcore : u.ram.core = s.ram.core := by rw [← hu, RegLoop.after_core, Hyp.lockDist_core]
  have hout : ∀ x, x ∉ block (s.dist v + 16) 8 →
      (u.unlockDist v).ram.mem x = scatter s.ram.mem (L.addr v s) L.sel L.byte L.n x := by
    intro x hx
    rw [Hyp.unlockDist_mem, hdist, setDistLock_outside hx, hmem]
    exact scatter_congr (setDistLock_outside hx)
  refine ⟨u.unlockDist v, hrun, ?_⟩
  constructor
  · rw [Hyp.unlockDist_vms, ← hu, RegLoop.after_vms, Hyp.lockDist_vms]
  · rw [Hyp.unlockDist_vcpus, ← hu, RegLoop.after_vcpus, Hyp.lockDist_vcpus]
  · rw [Hyp.unlockDist_gicMaxSpi, ← hu, RegLoop.after_gicMaxSpi, Hyp.lockDist_gicMaxSpi]
  · rw [Hyp.unlockDist_core, hcore]
  · rw [Hyp.unlockDist_gic, ← hu, RegLoop.after_gic, Hyp.lockDist_core, Hyp.lockDist_gic]
  · rw [Hyp.unlockDist_mem, hdist, hcore]
    refine distLock_setDistLock ?_ ?_ <;>
    · have hlt := F.core
      simp only [Spinlock.leftBy]
      omega
  · intro x hx
    rw [Hyp.unlockDist_mem, hdist, hcore]
    exact setDistLock_inside hx
  · intro x hx
    have hptr : x ∉ block (s.dist v + 16) 8 := by
      simp only [mem_block] at hx ⊢
      omega
    rw [hout x hptr]
    exact scatter_of_notMem fun i hi hsel heq => hkeep.keepsPtr i hi hsel (heq ▸ hx)
  · exact hout

/-- **A write to any other register** leaves everything but the distributor's own fields. -/
theorem vgicdWrite_none {offset : ℕ} {val : BitVec 64} (F : VgicFree s v)
    (hL : gicdLoop offset val = none) : ∃ r m, vgicdWrite v offset val s = .ok r (s.withMem m) ∧
      Set.EqOn m s.ram.mem (block (s.dist v) sizeofVgicDist)ᶜ := by
  -- what the `switch` leaves is memory that differs in the field `enabled`
  obtain ⟨b, m, hreg, hm⟩ : ∃ b m,
      vgicdWriteReg v (s.dist v) offset val (s.lockDist v) = .ok b ((s.lockDist v).withMem m) ∧
        Set.EqOn m (s.lockDist v).ram.mem (block (s.dist v + 4) 1)ᶜ := by
    by_cases h0 : offset = 0
    · refine ⟨true, writeLe (s.lockDist v).ram.mem (s.dist v + 4) 1
        (if val.getLsbD 1 = true then 1 else 0), ?_, eqOn_writeLe _ _ _ _⟩
      rw [vgicdWriteReg, if_pos h0]
      rfl
    · exact ⟨_, (s.lockDist v).ram.mem, vgicdWriteReg_none hL h0, fun _ _ => rfl⟩
  have hlocked : Set.EqOn m (s.lockDist v).ram.mem (block (s.dist v + 16) 8) := by
    intro x hx
    refine hm ?_
    simp only [Set.mem_compl_iff, mem_block] at hx ⊢
    omega
  have hrun := withDistLock_runs F.core F.lock_free hreg rfl rfl hlocked
  refine ⟨_, setDistLock m (s.dist v) (.leftBy s.ram.core), (vgicdWrite_eq F).trans hrun, ?_⟩
  intro x hx
  simp only [Set.mem_compl_iff, mem_block, sizeofVgicDist] at hx
  have hlock : x ∉ block (s.dist v + 16) 8 := by
    simp only [mem_block]
    omega
  have hfield : x ∉ block (s.dist v + 4) 1 := by
    simp only [mem_block]
    omega
  rw [setDistLock_outside hlock, hm hfield, Hyp.lockDist_mem, setDistLock_outside hlock]

end locked

/-! ## The loops of the read functions -/

/-- A register that shows the byte `field` of `n` interrupts from `irqNum` on, `width` bits
apart. -/
structure RegFields where
  irqNum : ℕ
  n : ℕ
  field : ℕ
  width : ℕ

/-- The byte that is shown for the interrupt `i` of the register. -/
def RegFields.addr (F : RegFields) (v : Fin ncpu) (s : Hyp) (i : ℕ) : ℕ :=
  s.lookup v (F.irqNum + i) + F.field

/-- The bytes at `addr i`, each `width` bits further up. -/
def gathered (m : Mem) (addr : ℕ → ℕ) (width : ℕ) (init : BitVec 32) : ℕ → BitVec 32
  | 0 => init
  | k + 1 => gathered m addr width init k ||| (m (addr k)).setWidth 32 <<< (k * width)

theorem vgicGather_eq {s : Hyp} {v : Fin ncpu} (hvm : (s.vcpus v).vm ≠ 0) (hdist : s.dist v ≠ 0)
    (F : RegFields) (init : BitVec 32) :
    vgicGather v F.irqNum F.n F.field F.width init s =
      .ok (gathered s.ram.mem (F.addr v s) F.width init F.n) s := by
  rw [vgicGather]
  refine bind_of_ok (whileLoop_runs (S := fun _ => s)
    (B := fun k => (k, gathered s.ram.mem (F.addr v s) F.width init k)) ?_ ?_ ?_)
  · exact fun k hk => decide_eq_true hk
  · exact decide_eq_false (lt_irrefl _)
  · intro k hk
    have hload : loadLe (F.addr v s k) 1 s = .ok (s.ram.mem (F.addr v s k)).toNat s := by
      rw [← readLe_byte]
      rfl
    have hwidth : BitVec.ofNat 32 (s.ram.mem (F.addr v s k)).toNat =
        (s.ram.mem (F.addr v s k)).setWidth 32 := by
      apply BitVec.eq_of_toNat_eq
      simp
    rw [bind_of_ok (vgicIrqGet_eq hvm hdist _), ← RegFields.addr, bind_of_ok hload, hwidth]
    rfl

/-- The fields of the records that a read of the distributor shows. -/
def gicdFields (offset : ℕ) : Option RegFields :=
  if 0x80 ≤ offset ∧ offset ≤ 0xff then some ⟨(offset - 0x80) / 4 * 32, 32, 3, 1⟩
  else if 0x100 ≤ offset ∧ offset ≤ 0x17f then
    some ⟨(offset - gicdIsenabler 0) / 4 * 32, 32, 2, 1⟩
  else if 0x400 ≤ offset ∧ offset ≤ 0x7fb then some ⟨offset - 0x400, 4, 0, 8⟩
  else if 0x800 ≤ offset ∧ offset ≤ 0xbfb then some ⟨offset - 0x800, 4, 1, 8⟩
  else none

/-- What a read of the distributor puts into the guest's register, if the register is known. -/
def gicdValue (isen : BitVec 32) (s : Hyp) (v : Fin ncpu) (offset : ℕ) : Option (BitVec 64) :=
  match gicdFields offset with
  | some F =>
      some ((gathered s.ram.mem (F.addr v s) F.width
        (if 0x100 ≤ offset ∧ offset ≤ 0x17f then isen else 0) F.n).setWidth 64)
  | none =>
      if offset = 0 then some (if readLe s.ram.mem (s.dist v + 4) 1 = 0 then 0x10 else 0x12)
      else if offset = 4 then
        some (((BitVec.ofNat 32 (readLe s.ram.mem (s.dist v) 4) + 32) >>> 5 - 1 |||
          7#32 <<< 5).setWidth 64)
      else if offset = 8 then some ((s.gicd.read 8).setWidth 64)
      else if gicdZero offset then some 0
      else if offset = 0xffe8 then some ((s.gicd.read 0xffe8).setWidth 64)
      else none

/-- Set a register of a virtual CPU. -/
def Hyp.setX (s : Hyp) (v : Fin ncpu) (r : Fin 31) (x : BitVec 64) : Hyp :=
  s.setVcpu v { s.vcpus v with
    regs := { (s.vcpus v).regs with x := Function.update (s.vcpus v).regs.x r x } }

section reads
variable {s : Hyp} {v : Fin ncpu} {offset : ℕ} {isen : BitVec 32} {r : Fin 31}

/-- **The `switch` of `vgicd_read`**, when the guest's register is not the zero register. -/
theorem vgicdReadReg_eq (hvm : (s.vcpus v).vm ≠ 0) (hdist : s.dist v ≠ 0) :
    vgicdReadReg isen v (s.dist v) offset (some r) s =
      match gicdValue isen s v offset with
      | some x => .ok true (s.setX v r x)
      | none => .ok false s := by
  have hgather := vgicGather_eq hvm hdist
  rw [vgicdReadReg, gicdValue, gicdFields]
  by_cases hgrp : 0x80 ≤ offset ∧ offset ≤ 0xff
  · have hen : ¬ (0x100 ≤ offset ∧ offset ≤ 0x17f) := by omega
    rw [if_neg (by omega), if_neg (by omega), if_neg (by omega), if_pos hgrp, if_pos hgrp]
    simp only [if_neg hen]
    exact bind_of_ok (hgather ⟨(offset - 0x80) / 4 * 32, 32, 3, 1⟩ 0)
  by_cases hen : 0x100 ≤ offset ∧ offset ≤ 0x17f
  · rw [if_neg (by omega), if_neg (by omega), if_neg (by omega), if_neg hgrp, if_pos hen,
      if_neg hgrp, if_pos hen]
    simp only [if_pos hen]
    exact bind_of_ok (hgather ⟨(offset - gicdIsenabler 0) / 4 * 32, 32, 2, 1⟩ isen)
  by_cases hprio : 0x400 ≤ offset ∧ offset ≤ 0x7fb
  · rw [if_neg (by omega), if_neg (by omega), if_neg (by omega), if_neg hgrp, if_neg hen,
      if_pos hprio, if_neg hgrp, if_neg hen, if_pos hprio]
    simp only [if_neg hen]
    exact bind_of_ok (hgather ⟨offset - 0x400, 4, 0, 8⟩ 0)
  by_cases htarget : 0x800 ≤ offset ∧ offset ≤ 0xbfb
  · rw [if_neg (by omega), if_neg (by omega), if_neg (by omega), if_neg hgrp, if_neg hen,
      if_neg hprio, if_pos htarget, if_neg hgrp, if_neg hen, if_neg hprio, if_pos htarget]
    simp only [if_neg hen]
    exact bind_of_ok (hgather ⟨offset - 0x800, 4, 1, 8⟩ 0)
  rw [if_neg hgrp, if_neg hen, if_neg hprio, if_neg htarget, if_neg hgrp, if_neg hen,
    if_neg hprio, if_neg htarget]
  by_cases h0 : offset = 0
  · simp only [if_pos h0]
    exact bind_of_ok rfl
  by_cases h4 : offset = 4
  · simp only [if_neg h0, if_pos h4]
    exact bind_of_ok rfl
  by_cases h8 : offset = 8
  · simp only [if_neg h0, if_neg h4, if_pos h8]
    exact bind_of_ok rfl
  by_cases hzero : gicdZero offset = true
  · simp only [if_neg h0, if_neg h4, if_neg h8, if_pos hzero]
    rfl
  by_cases hpidr : offset = 0xffe8
  · simp only [if_neg h0, if_neg h4, if_neg h8, if_neg hzero, if_pos hpidr]
    exact bind_of_ok rfl
  · simp only [if_neg h0, if_neg h4, if_neg h8, if_neg hzero, if_neg hpidr]
    rfl

/-- `vgicd_read` is its `switch` under the lock. -/
theorem vgicdRead_eq (F : VgicFree s v) :
    vgicdRead isen v offset (some r) s = (do
      withDistLock (s.dist v) archSpinLock
      let handled ← vgicdReadReg isen v (s.dist v) offset (some r)
      withDistLock (s.dist v) archSpinUnlock
      pure (if handled then 0 else -1) : Exec Hyp ℤ) s := by
  refine eq_of_wp fun Q E h => ?_
  have hdist : ¬ (s.vms (s.vcpus v).vm).vgicDist = 0 := F.dist_ne
  simp only [vgicdRead, wp_bind, wp_get, wp_derefVm F.vm_ne, if_neg hdist]
  simp only [wp_bind] at h
  exact h

/-- **A read of the distributor** takes its value once the lock was taken. -/
theorem vgicdRead_runs (F : VgicFree s v) :
    vgicdRead isen v offset (some r) s =
      match gicdValue isen (s.lockDist v) v offset with
      | some x => .ok 0 (((s.lockDist v).setX v r x).unlockDist v)
      | none => .ok (-1) ((s.lockDist v).unlockDist v) := by
  have hreg := @vgicdReadReg_eq (s.lockDist v) v offset isen r F.vm_ne F.dist_ne
  rw [Hyp.lockDist_dist] at hreg
  rw [vgicdRead_eq F]
  cases hvalue : gicdValue isen (s.lockDist v) v offset with
  | none =>
      rw [hvalue] at hreg
      exact withDistLock_runs F.core F.lock_free hreg rfl rfl fun _ _ => rfl
  | some x =>
      rw [hvalue] at hreg
      have hdist : ((s.lockDist v).setX v r x).dist v = s.dist v := by
        simp [Hyp.dist, Hyp.setX, Hyp.setVcpu]
      exact withDistLock_runs F.core F.lock_free hreg hdist rfl fun _ _ => rfl

end reads

end Xhyper
