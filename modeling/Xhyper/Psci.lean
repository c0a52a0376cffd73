import Xhyper.BlkRuns
import Xhyper.Vcpu

/-!
# Calls of the guest to the firmware

A guest's `hvc` or `smc` is answered by `vpsci_trap_smc`.  To turn a virtual CPU on, the guest
names it by its number in the machine and gives the address it starts at; the hypervisor
passes the number on to the firmware as that of a physical core.

`vpsci_cpu_on` compares the number with the machine's count of virtual CPUs and only prints a
warning, so every number is an index into `vm->vcpus`.

## Main definitions

* `smcCall` — a call to the firmware.
* `vpsciCpuOn`, `vpsciTrapSmc`, `el1SyncProc` — a guest's call.
* `CpuOn`, `vpsciTrapSmc_cpuon` — what turning a CPU on does.
* `CpuOnConfined`, `vpsci_cpu_on_confined` — what it should change, and when that is so.
-/

namespace Xhyper

open Memory Prog

/-- `PSCI_VERSION`. -/
abbrev psciVersion : BitVec 64 := 0x84000000

/-- `PSCI_MIGRATE_INFO_TYPE`. -/
abbrev psciMigrateInfoType : BitVec 64 := 0x84000006

/-- `PSCI_SYSTEM_OFF`. -/
abbrev psciSystemOff : BitVec 64 := 0x84000008

/-- `PSCI_SYSTEM_RESET`. -/
abbrev psciSystemReset : BitVec 64 := 0x84000009

/-- `PSCI_SYSTEM_CPUON`. -/
abbrev psciSystemCpuon : BitVec 64 := 0xc4000003

/-- `PSCI_FEATURE`. -/
abbrev psciFeature : BitVec 64 := 0x8400000a

section calls
variable (P : Platform) (v : Fin ncpu)

/-- `smc_call`. -/
def smcCall (funid targetCpu entryAddr : BitVec 64) : Exec Hyp (BitVec 64) := do
  let s ← get
  let smc : Smc := ⟨funid, targetCpu, entryAddr⟩
  set { s with smcs := smc :: s.smcs }
  pure (P.firmware s.smcs smc)

/-- `vpsci_version`, which returns a `u32`. -/
def vpsciVersion : Exec Hyp (BitVec 32) := do
  let r ← smcCall P psciVersion 0 0
  pure (r.setWidth 32)

/-- `vpsci_migrate_info_type`, which returns an `s32`. -/
def vpsciMigrateInfoType : Exec Hyp (BitVec 32) := do
  let r ← smcCall P psciMigrateInfoType 0 0
  pure (r.setWidth 32)

/-- `vm->vcpus[targetCpu]`. -/
def vcpuAt (V : Vm) (targetCpu : BitVec 64) : Exec Hyp (Fin ncpu) :=
  if h : targetCpu.toNat < ncpu then
    match V.vcpus ⟨targetCpu.toNat, h⟩ with
    | none => throw .nullDeref
    | some target => pure target
  else throw .outOfBounds

/-- `vpsci_cpu_on`, which returns an `s32`. -/
def vpsciCpuOn (targetCpu entryAddr : BitVec 64) : Exec Hyp (BitVec 32) := do
  let V ← derefVm ((← get).vcpus v).vm
  -- a number that is too large has a warning printed, and nothing else
  let target ← vcpuAt V targetCpu
  modifyVcpu target fun t => { t with regs := { t.regs with elr := entryAddr } }
  modifyVcpu target fun t => { t with state := .ready }
  let r ← smcCall P psciSystemCpuon targetCpu P.start
  pure (r.setWidth 32)

/-- `vpsci_trap_smc`. -/
def vpsciTrapSmc (funid targetCpu entryAddr : BitVec 64) : Exec Hyp (BitVec 64) := do
  if funid = psciVersion then do
    let r ← vpsciVersion P
    pure (r.setWidth 64)
  else if funid = psciMigrateInfoType then do
    let r ← vpsciMigrateInfoType P
    pure (r.signExtend 64)
  else if funid = psciSystemOff then pure (-1)
  else if funid = psciSystemReset then pure (-1)
  else if funid = psciSystemCpuon then do
    let r ← vpsciCpuOn P v targetCpu entryAddr
    pure (r.signExtend 64)
  else if funid = psciFeature then pure 0
  else if funid = 0x80000000#64 then pure 0
  else abort "Unknown function id : %p from hvc/smc call"

/-- Register `x` of a virtual CPU. -/
def modifyX (i : Fin 31) (r : BitVec 64) : Exec Hyp Unit :=
  modifyVcpu v fun t => { t with regs := { t.regs with x := Function.update t.regs.x i r } }

/-- Add to the address a virtual CPU returns to. -/
def skip (n : BitVec 64) : Exec Hyp Unit :=
  modifyVcpu v fun t => { t with regs := { t.regs with elr := t.regs.elr + n } }

/-- `vpsci_handler`. -/
def vpsciHandler : Exec Hyp Unit := do
  let x := ((← get).vcpus v).regs.x
  let ret ← vpsciTrapSmc P v (x 0) (x 1) (x 2)
  modifyX v 0 ret

/-- `hvc_smc_handler`. -/
def hvcSmcHandler (imm : BitVec 64) : Exec Hyp ℤ := do
  if imm = 0 then do
    vpsciHandler P v
    pure 0
  else pure (-1)

/-- `VSYSREG_ICC_SGI1R_EL1`. -/
abbrev vsysregIccSgi1rEl1 : BitVec 64 := 0x3a3016

/-- `vgicv3_generate_sgi`; the register number 31 reads past the array. -/
def vgicv3GenerateSgi (rt : ℕ) : Exec Hyp ℤ := do
  if h : rt < 31 then do
    let r := ((← get).vcpus v).regs.x ⟨rt, h⟩
    modifyCore fun c => { c with iccSgi1rEl1 := r }
    pure 1
  else throw .outOfBounds

/-- `vsysreg_handler`. -/
def vsysregHandler (iss : BitVec 64) : Exec Hyp ℤ := do
  let rt := (iss >>> 5 &&& 0x1f#64).toNat
  if iss &&& ~~~(0x1f#64 <<< 5) = vsysregIccSgi1rEl1 then do
    let _ ← vgicv3GenerateSgi v rt
    pure 0
  else pure (-1)

/-- `el1_sync_proc`, with what it reads from `esr_el2`, `far_el2` and `hpfar_el2`. -/
def el1SyncProc (H : VmmioHandlers) (esr far hpfar : BitVec 64) : Exec Hyp Unit := do
  match ((← get).cores (← get).ram.core).tpidrEl2 with
  | none => throw .nullDeref
  | some v => do
      let esrEc := esr >>> 26 &&& 0x3f#64
      let esrIss := esr &&& 0x1ffffff#64
      if esrEc = 0x16#64 then do
        if (← hvcSmcHandler P v esrIss) ≠ 0 then abort "Unknown HVC call #%d"
        else skip v 0
      else if esrEc = 0x17#64 then do
        if (← hvcSmcHandler P v esrIss) ≠ 0 then abort "Unknown SMC call #%d"
        else skip v 4
      else if esrEc = 0x18#64 then do
        if (← vsysregHandler v esrIss) < 0 then abort "Unknow system register trap"
        else skip v 4
      else if esrEc = 0x24#64 then do
        let _ ← dataAbortHandler H v esrIss far hpfar
        skip v 4
      else abort "Unknown el1 sync: esr_ec %p, esr_iss %p, elr %p, far %p"

end calls

/-! ## Turning a virtual CPU on -/

/-- The call by which the firmware is told to start a core. -/
def Platform.cpuOnSmc (P : Platform) (targetCpu : BitVec 64) : Smc :=
  ⟨psciSystemCpuon, targetCpu, P.start⟩

/-- What the guest gets back: the firmware's answer, cut to 32 bits and extended again. -/
def Platform.cpuOnAnswer (P : Platform) (s : Hyp) (targetCpu : BitVec 64) : BitVec 64 :=
  ((P.firmware s.smcs (P.cpuOnSmc targetCpu)).setWidth 32).signExtend 64

/-- The virtual CPU `i` is ready to start at `entryAddr`. -/
def Vcpu.turnOn (t : Vcpu) (entryAddr : BitVec 64) : Vcpu :=
  { t with regs := { t.regs with elr := entryAddr }, state := .ready }

/-- The state after `i` was turned on as number `targetCpu` of its machine. -/
def Hyp.cpuOn (s : Hyp) (P : Platform) (i : Fin ncpu) (targetCpu entryAddr : BitVec 64) : Hyp :=
  { s.setVcpu i ((s.vcpus i).turnOn entryAddr) with smcs := P.cpuOnSmc targetCpu :: s.smcs }

section cpuOn
variable {P : Platform} {v i : Fin ncpu} {targetCpu entryAddr : BitVec 64} {s s' : Hyp}
  {Q : BitVec 64 → Hyp → Prop} {E : Fault → Hyp → Prop}

@[simp] theorem cpuOn_vms : (s.cpuOn P i targetCpu entryAddr).vms = s.vms := rfl
@[simp] theorem cpuOn_vcpus : (s.cpuOn P i targetCpu entryAddr).vcpus =
    Function.update s.vcpus i ((s.vcpus i).turnOn entryAddr) := rfl
@[simp] theorem cpuOn_smcs :
    (s.cpuOn P i targetCpu entryAddr).smcs = P.cpuOnSmc targetCpu :: s.smcs := rfl

/-- The virtual CPU that `vm->vcpus[targetCpu]` is, when there is one. -/
def Targets (s : Hyp) (v : Fin ncpu) (targetCpu : BitVec 64) (i : Fin ncpu) : Prop :=
  (s.vcpus v).vm ≠ 0 ∧ ∃ h : targetCpu.toNat < ncpu,
    (s.vms (s.vcpus v).vm).vcpus ⟨targetCpu.toNat, h⟩ = some i

/-- **Turning a virtual CPU on** changes the one that is named and calls the firmware, or it
stops before it changed anything. -/
theorem wp_vpsciTrapSmc_cpuon (hok : ∀ i, Targets s v targetCpu i →
      Q (P.cpuOnAnswer s targetCpu) (s.cpuOn P i targetCpu entryAddr))
    (herr : (∀ i, ¬ Targets s v targetCpu i) → ∀ e, E e s) :
    wp (vpsciTrapSmc P v psciSystemCpuon targetCpu entryAddr) Q E s := by
  have h1 : psciSystemCpuon ≠ psciVersion := by decide
  have h2 : psciSystemCpuon ≠ psciMigrateInfoType := by decide
  have h3 : psciSystemCpuon ≠ psciSystemOff := by decide
  have h4 : psciSystemCpuon ≠ psciSystemReset := by decide
  rw [vpsciTrapSmc, if_neg h1, if_neg h2, if_neg h3, if_neg h4, if_pos rfl, vpsciCpuOn]
  simp only [wp_bind, wp_get]
  by_cases hvm : (s.vcpus v).vm = 0
  · simp only [derefVm, hvm, if_true, wp_bind, wp_get, wp_throw]
    exact herr (fun i h => h.1 hvm) _
  · rw [wp_derefVm hvm]
    by_cases ht : targetCpu.toNat < ncpu
    · cases hslot : (s.vms (s.vcpus v).vm).vcpus ⟨targetCpu.toNat, ht⟩ with
      | none =>
          simp only [vcpuAt, ht, dite_true, hslot, wp_throw]
          refine herr (fun i h => ?_) _
          obtain ⟨_, _, h⟩ := h
          rw [hslot] at h
          cases h
      | some i =>
          have hafter := hok i ⟨hvm, ht, hslot⟩
          simp only [vcpuAt, ht, dite_true, hslot, wp_pure, wp_modifyVcpu, smcCall, wp_bind, wp_get,
            wp_set]
          simpa [Hyp.cpuOn, Hyp.setVcpu, Vcpu.turnOn, Platform.cpuOnAnswer, Platform.cpuOnSmc]
            using hafter
    · simp only [vcpuAt, ht, dite_false, wp_throw]
      exact herr (fun i h => ht h.2.1) _

/-- What a call that returned did. -/
theorem vpsciTrapSmc_cpuon_inv {r : BitVec 64}
    (h : vpsciTrapSmc P v psciSystemCpuon targetCpu entryAddr s = .ok r s') :
    ∃ i, Targets s v targetCpu i ∧ r = P.cpuOnAnswer s targetCpu ∧
      s' = s.cpuOn P i targetCpu entryAddr := by
  have hwp : wp (vpsciTrapSmc P v psciSystemCpuon targetCpu entryAddr)
      (fun r s' => ∃ i, Targets s v targetCpu i ∧ r = P.cpuOnAnswer s targetCpu ∧
        s' = s.cpuOn P i targetCpu entryAddr) (fun _ _ => True) s :=
    wp_vpsciTrapSmc_cpuon (fun i hi => ⟨i, hi, rfl, rfl⟩) fun _ _ => trivial
  exact ok_of_wp hwp h

/-- A call that names a virtual CPU returns. -/
theorem vpsciTrapSmc_cpuon (h : Targets s v targetCpu i) :
    vpsciTrapSmc P v psciSystemCpuon targetCpu entryAddr s =
      .ok (P.cpuOnAnswer s targetCpu) (s.cpuOn P i targetCpu entryAddr) := by
  have hwp : wp (vpsciTrapSmc P v psciSystemCpuon targetCpu entryAddr)
      (fun r s' => r = P.cpuOnAnswer s targetCpu ∧ s' = s.cpuOn P i targetCpu entryAddr)
      (fun _ _ => False) s := by
    refine wp_vpsciTrapSmc_cpuon (fun j hj => ?_) fun hno _ => hno i h
    obtain ⟨_, _, hi⟩ := h
    obtain ⟨_, _, hj⟩ := hj
    rw [hi, Option.some_inj] at hj
    exact ⟨rfl, by rw [hj]⟩
  obtain ⟨_, _, hrun, rfl, rfl⟩ := exists_ok_of_wp hwp
  exact hrun

/-! ## Staying inside the machine -/

/-- The virtual CPUs that are not `vm->vcpus[targetCpu]` keep all their fields. -/
def OnlyTarget (s : Hyp) (v : Fin ncpu) (targetCpu : BitVec 64) (s' : Hyp) : Prop :=
  ∀ i, ¬ Targets s v targetCpu i → s'.vcpus i = s.vcpus i

/-- **A guest's `CPU_ON` stays inside its machine**: for a number that is too large it is
refused, with no virtual CPU changed and no call to the firmware; for another number it
changes no virtual CPU but the one of that number. -/
def CpuOnConfined (P : Platform) (s : Hyp) (v : Fin ncpu) (targetCpu entryAddr : BitVec 64) :
    Prop :=
  ((s.vms (s.vcpus v).vm).nvcpu ≤ targetCpu.toNat →
    ∃ r s', vpsciTrapSmc P v psciSystemCpuon targetCpu entryAddr s = .ok r s' ∧
      r.toInt < 0 ∧ s'.vcpus = s.vcpus ∧ s'.smcs = s.smcs) ∧
  ((targetCpu.toNat : ℤ) < (s.vms (s.vcpus v).vm).nvcpu →
    wp (vpsciTrapSmc P v psciSystemCpuon targetCpu entryAddr)
      (fun _ s' => OnlyTarget s v targetCpu s') (fun _ s' => OnlyTarget s v targetCpu s') s)

/-- **`CPU_ON` stays inside its machine exactly for the numbers the machine has.** -/
theorem vpsci_cpu_on_confined (P : Platform) (s : Hyp) (v : Fin ncpu)
    (targetCpu entryAddr : BitVec 64) :
    CpuOnConfined P s v targetCpu entryAddr ↔
      (targetCpu.toNat : ℤ) < (s.vms (s.vcpus v).vm).nvcpu := by
  constructor
  · rintro ⟨hbad, _⟩
    by_contra hlt
    obtain ⟨r, s', hrun, _, _, hsmcs⟩ := hbad (not_lt.mp hlt)
    obtain ⟨i, _, _, rfl⟩ := vpsciTrapSmc_cpuon_inv hrun
    -- a call that returns has called the firmware
    rw [cpuOn_smcs] at hsmcs
    exact absurd hsmcs (List.cons_ne_self _ _)
  · intro hlt
    refine ⟨fun hle => absurd hlt (not_lt.mpr hle), fun _ => ?_⟩
    refine wp_vpsciTrapSmc_cpuon (fun i hi j hj => ?_) fun _ _ _ _ => rfl
    have hne : j ≠ i := fun h => hj (h ▸ hi)
    rw [cpuOn_vcpus, Function.update_of_ne hne]

end cpuOn

/-- A machine at address 1 with two virtual CPUs. -/
def twoVcpus : Hyp :=
  { zeroHyp ⟨0, fun _ => 0, ⟨.leftBy 0, 0⟩⟩ (freshPool (.leftBy 0) 0x10000) with
    vms := fun _ => { zeroVm with
      nvcpu := 2
      vcpus := fun k => if k = 0 then some 0 else if k = 1 then some 1 else none }
    vcpus := fun _ => { zeroVcpu with vm := 1, state := .running } }

/-- A firmware that accepts every call. -/
def obedient : Platform where
  firmware _ _ := 0
  start := 0x40200000
  vgicdRead := 0x40200100
  vgicdWrite := 0x40200200
  vgicrRead := 0x40200300
  vgicrWrite := 0x40200400

/-- The number behind the last one is used as an index, and the null pointer there is written
through. -/
theorem vpsci_cpu_on_null :
    vpsciTrapSmc obedient 0 psciSystemCpuon 2 0x80600000 twoVcpus = .error .nullDeref twoVcpus ∧
      ¬ CpuOnConfined obedient twoVcpus 0 2 0x80600000 := by
  have hrun : vpsciTrapSmc obedient 0 psciSystemCpuon 2 0x80600000 twoVcpus =
      .error .nullDeref twoVcpus := rfl
  refine ⟨hrun, fun h => ?_⟩
  obtain ⟨r, s', hok, _⟩ := h.1 (by decide)
  rw [hrun] at hok
  cases hok

end Xhyper
