import Xhyper.Vgic

/-!
# Virtual CPUs

The array `vcpus` is shared by all virtual machines.  A virtual CPU is taken from it when its
machine is created, and it is never given back.  A physical core runs the virtual CPU at its
own number.

## Main definitions

* `pcpuInit`, `vcpuInit` — the arrays after boot.
* `vcpuAlloc`, `createVcpu` — take a virtual CPU.
* `switchVcpu`, `startVcpu` — run one on a core.
-/

namespace Xhyper

open Memory Prog

/-- `SPSR_M(5) | SPSR_DAIF`. -/
abbrev spsrInit : BitVec 64 := 5#64 ||| 0xf#64 <<< 6

/-- `pcpu_init`. -/
def pcpuInit : Exec Hyp Unit :=
  modify fun s => { s with pcpus := fun i => { cpuid := i.val, vcpu := none } }

/-- `vcpu_init`. -/
def vcpuInit : Exec Hyp Unit :=
  modify fun s => { s with
    vcpusLock := archSpinlockInit s.vcpusLock
    vcpus := fun i => { s.vcpus i with state := .unused } }

/-- The loop of `vcpu_alloc`.  Its condition compares the pointer with one `NCPU` elements
further on, so it does not end at the end of the array. -/
def vcpuScan : List (Fin ncpu) → Exec Hyp (Option (Fin ncpu))
  | [] => throw .outOfBounds
  | i :: rest => do
      if ((← get).vcpus i).state = .unused then do
        modifyVcpu i fun v => { v with state := .alloced }
        spinUnlock Hyp.vcpusLockPart (← get).ram.core
        pure (some i)
      else vcpuScan rest

/-- `vcpu_alloc`. -/
def vcpuAlloc : Exec Hyp (Option (Fin ncpu)) := do
  spinLock Hyp.vcpusLockPart (← get).ram.core
  vcpuScan (List.finRange ncpu)

/-- `create_vcpu`. -/
def createVcpu (vm vcpuid : ℕ) (entry : BitVec 64) : Exec Hyp (Fin ncpu) := do
  match ← vcpuAlloc with
  | none => abort "Unable to alloc a vcpu"
  | some i => do
      modifyVcpu i fun v => { v with vm := vm, cpuid := vcpuid }
      let cnt := ((← get).cores (← get).ram.core).sysRegs.cntfrqEl0
      modifyVcpu i fun v => { v with
        regs := { v.regs with spsr := spsrInit, elr := entry }
        sysRegs := { v.sysRegs with
          mpidrEl1 := BitVec.ofNat 64 vcpuid
          midrEl1 := 0x410FD081
          cntfrqEl0 := cnt } }
      if vcpuid = 0 then do
        let dtb := (← derefVm vm).dtb
        modifyVcpu i fun v => { v with
          regs := { v.regs with x := Function.update v.regs.x 0 (BitVec.ofNat 64 dtb) } }
      else pure ()
      let vgicCpu ← createVgicCpu vcpuid
      modifyVcpu i fun v => { v with vgicCpu := vgicCpu }
      -- gic_context_init
      let vmcr := ((← get).cores (← get).ram.core).ichVmcrEl2
      modifyVcpu i fun v => { v with gicContext := { v.gicContext with vmcr := vmcr } }
      pure i

/-- `cur_pcpu` and the store of its field `vcpu`. -/
def setCurPcpu (i : Fin ncpu) : Exec Hyp Unit := do
  let s ← get
  if h : s.ram.core < ncpu then
    let p := s.pcpus ⟨s.ram.core, h⟩
    set { s with pcpus := Function.update s.pcpus ⟨s.ram.core, h⟩ { p with vcpu := some i } }
  else throw .outOfBounds

/-- `restore_sysreg`. -/
def restoreSysreg (i : Fin ncpu) : Exec Hyp Unit := do
  let s ← get
  modifyCore fun c => { c with sysRegs := (s.vcpus i).sysRegs }

/-- `restore_gic_context`. -/
def restoreGicContext (i : Fin ncpu) : Exec Hyp Unit := do
  let s ← get
  modifyCore fun c => { c with
    ichVmcrEl2 := (s.vcpus i).gicContext.vmcr
    iccSreEl1 := (c.iccSreEl1.setWidth 32).setWidth 64 ||| (s.vcpus i).gicContext.sreEl1 }

/-- `switch_vcpu`, up to `switch_out`, which leaves for the guest. -/
def switchVcpu (i : Fin ncpu) : Exec Hyp Unit := do
  setCurPcpu i
  modifyCore fun c => { c with tpidrEl2 := some i }
  modifyVcpu i fun v => { v with state := .running }
  let V ← derefVm ((← get).vcpus i).vm
  modifyCore fun c => { c with vttbrEl2 := V.vttbr }
  restoreSysreg i
  restoreGicContext i

/-- `start_vcpu`. -/
def startVcpu : Exec Hyp Unit := do
  let s ← get
  if h : s.ram.core < ncpu then
    if (s.vcpus ⟨s.ram.core, h⟩).state ≠ .ready then abort "vcpu is not ready"
    else switchVcpu ⟨s.ram.core, h⟩
  else throw .outOfBounds

end Xhyper
