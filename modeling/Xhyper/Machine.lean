import Xhyper.GuestImage
import Xhyper.Xmalloc

/-!
# The state of the hypervisor

Memory, the two allocators, the arrays of physical and virtual CPUs, the virtual
machines, the system registers of each core, and the interrupt controller.

A `vm_t` and a `vcpu_t` are records.  The virtual machines are found by the address
that `xmalloc` gave them, the virtual CPUs by their place in the array `vcpus`.  What
the virtual interrupt controller and the list of trapped regions keep on the heap is
bytes of memory.

The cores share the state.  A function runs on the core `ram.core` from its first to
its last statement.

## Main definitions

* `Vcpu`, `Vm`, `Pcpu`, `CoreRegs` — the records.
* `Platform` — the firmware and the addresses the linker fixes.
* `Hyp` — the state, and `Hyp.ramPart`, `Hyp.heapPart` its allocators' parts.
-/

namespace Xhyper

open Memory Prog

/-! ## Records -/

/-- `vcpu_t.regs`. -/
structure Regs where
  x : Fin 31 → BitVec 64
  spsr : BitVec 64
  elr : BitVec 64

/-- `vcpu_t.sys_regs`, and the registers of a core that are loaded from it. -/
structure SysRegs where
  spsrEl1 : BitVec 64
  elrEl1 : BitVec 64
  mpidrEl1 : BitVec 64
  midrEl1 : BitVec 64
  spEl0 : BitVec 64
  spEl1 : BitVec 64
  ttbr0El1 : BitVec 64
  ttbr1El1 : BitVec 64
  tcrEl1 : BitVec 64
  vbarEl1 : BitVec 64
  sctlrEl1 : BitVec 64
  cntvCtlEl0 : BitVec 64
  cntvTvalEl0 : BitVec 64
  cntfrqEl0 : BitVec 64

/-- `struct gicv3_context`, less the list registers, which nothing saves. -/
structure GicContext where
  vmcr : BitVec 64
  sreEl1 : BitVec 64

/-- `enum vcpu_state`. -/
inductive VcpuState
  | unused
  | alloced
  | ready
  | running
  deriving DecidableEq, Repr

/-- The value of the enumeration constant. -/
def VcpuState.rank : VcpuState → ℕ
  | unused => 0
  | alloced => 1
  | ready => 2
  | running => 3

/-- `vcpu_t`, less the name of its core. -/
structure Vcpu where
  regs : Regs
  sysRegs : SysRegs
  /-- The address of the `vm_t`. -/
  vm : ℕ
  cpuid : ℤ
  state : VcpuState
  /-- The address of the `vgicv3_cpu`. -/
  vgicCpu : ℕ
  gicContext : GicContext

/-- `pcpu_t`; `vcpu` is a place in the array `vcpus`. -/
structure Pcpu where
  cpuid : ℤ
  vcpu : Option (Fin ncpu)

/-- `vm_t`; an entry of `vcpus` is a place in the array `vcpus`, or a null pointer. -/
structure Vm where
  name : List Byte
  nvcpu : ℤ
  vttbr : ℕ
  vmLock : Spinlock
  vcpus : Fin ncpu → Option (Fin ncpu)
  /-- The address of the `vgicv3_dist`. -/
  vgicDist : ℕ
  /-- The address of the first `vmmio_info`. -/
  vmmios : ℕ
  dtb : ℕ

/-- The system registers of a core that the hypervisor writes. -/
structure CoreRegs where
  /-- `tpidr_el2`, the virtual CPU this core runs. -/
  tpidrEl2 : Option (Fin ncpu)
  vttbrEl2 : ℕ
  /-- The registers `restore_sysreg` loads. -/
  sysRegs : SysRegs
  ichVmcrEl2 : BitVec 64
  iccSreEl1 : BitVec 64
  iccSgi1rEl1 : BitVec 64

/-- The physical distributor: the enable bits behind its `ISENABLER` and `ICENABLER`
registers, and its other registers by offset. -/
structure Gicd where
  enable : ℕ → BitVec 32
  regs : ℕ → BitVec 32

/-- A call to the firmware. -/
structure Smc where
  funid : BitVec 64
  targetCpu : BitVec 64
  entryAddr : BitVec 64
  deriving DecidableEq, Repr

/-- What is not in the sources: how the firmware answers a call after the calls before
it, and the addresses of some functions. -/
structure Platform where
  firmware : List Smc → Smc → BitVec 64
  /-- `_start`. -/
  start : BitVec 64
  vgicdRead : ℕ
  vgicdWrite : ℕ
  vgicrRead : ℕ
  vgicrWrite : ℕ

/-! ## The state -/

/-- The state of the hypervisor. -/
structure Hyp where
  ram : Ram
  /-- `*sys_blk`. -/
  sysBlk : BlkPool
  /-- The virtual machines by address. -/
  vms : ℕ → Vm
  vcpus : Fin ncpu → Vcpu
  vcpusLock : Spinlock
  pcpus : Fin ncpu → Pcpu
  gicMaxSpi : ℤ
  cores : ℕ → CoreRegs
  gicd : Gicd
  /-- The enable bits behind each core's `GICR_ISENABLER0`. -/
  gicr : ℕ → BitVec 32
  /-- The calls to the firmware, last one first. -/
  smcs : List Smc

namespace Hyp

/-- The page allocator's part. -/
def ramPart : Lens Hyp Ram where
  get s := s.ram
  set r s := { s with ram := r }
  get_set _ _ := rfl
  set_get _ := rfl
  set_set _ _ _ := rfl

@[simp] theorem get_ramPart (s : Hyp) : ramPart.get s = s.ram := rfl
@[simp] theorem set_ramPart (r : Ram) (s : Hyp) : ramPart.set r s = { s with ram := r } := rfl

/-- The block allocator's part. -/
def heapPart : Lens Hyp Heap where
  get s := ⟨s.ram.core, s.ram.mem, s.sysBlk⟩
  set h s := { s with ram := { s.ram with core := h.core, mem := h.mem }, sysBlk := h.pool }
  get_set _ _ := rfl
  set_get _ := rfl
  set_set _ _ _ := rfl

@[simp] theorem get_heapPart (s : Hyp) : heapPart.get s = ⟨s.ram.core, s.ram.mem, s.sysBlk⟩ := rfl
@[simp] theorem set_heapPart (h : Heap) (s : Hyp) : heapPart.set h s =
    { s with ram := { s.ram with core := h.core, mem := h.mem }, sysBlk := h.pool } := rfl

/-- `vcpus_lock`. -/
def vcpusLockPart : Lens Hyp Spinlock where
  get s := s.vcpusLock
  set l s := { s with vcpusLock := l }
  get_set _ _ := rfl
  set_get _ := rfl
  set_set _ _ _ := rfl

@[simp] theorem get_vcpusLockPart (s : Hyp) : vcpusLockPart.get s = s.vcpusLock := rfl
@[simp] theorem set_vcpusLockPart (l : Spinlock) (s : Hyp) :
    vcpusLockPart.set l s = { s with vcpusLock := l } := rfl

/-- Replace one virtual machine. -/
def setVm (s : Hyp) (vm : ℕ) (V : Vm) : Hyp := { s with vms := Function.update s.vms vm V }

/-- Replace one virtual CPU. -/
def setVcpu (s : Hyp) (i : Fin ncpu) (v : Vcpu) : Hyp :=
  { s with vcpus := Function.update s.vcpus i v }

/-- The lock of one virtual machine. -/
def vmLockPart (vm : ℕ) : Lens Hyp Spinlock where
  get s := (s.vms vm).vmLock
  set l s := s.setVm vm { s.vms vm with vmLock := l }
  get_set l s := by simp [setVm]
  set_get s := by simp [setVm]
  set_set t u s := by simp [setVm]

@[simp] theorem get_vmLockPart (vm : ℕ) (s : Hyp) :
    (vmLockPart vm).get s = (s.vms vm).vmLock := rfl
@[simp] theorem set_vmLockPart (vm : ℕ) (l : Spinlock) (s : Hyp) :
    (vmLockPart vm).set l s = s.setVm vm { s.vms vm with vmLock := l } := rfl

/-- The same state, seen from another core. -/
def onCore (core : ℕ) (s : Hyp) : Hyp := { s with ram := { s.ram with core := core } }

end Hyp

/-- A virtual machine of zeroed memory. -/
def zeroVm : Vm where
  name := []
  nvcpu := 0
  vttbr := 0
  vmLock := { coreid := 0, word := 0 }
  vcpus := fun _ => none
  vgicDist := 0
  vmmios := 0
  dtb := 0

/-- A virtual CPU of zeroed memory. -/
def zeroVcpu : Vcpu where
  regs := { x := fun _ => 0, spsr := 0, elr := 0 }
  sysRegs := ⟨0, 0, 0, 0, 0, 0, 0, 0, 0, 0, 0, 0, 0, 0⟩
  vm := 0
  cpuid := 0
  state := .unused
  vgicCpu := 0
  gicContext := { vmcr := 0, sreEl1 := 0 }

/-- The hypervisor's variables as they are in zeroed memory, over the memory `ram` and the
pool `sysBlk`. -/
def zeroHyp (ram : Ram) (sysBlk : BlkPool) : Hyp where
  ram := ram
  sysBlk := sysBlk
  vms := fun _ => zeroVm
  vcpus := fun _ => zeroVcpu
  vcpusLock := { coreid := 0, word := 0 }
  pcpus := fun _ => { cpuid := 0, vcpu := none }
  gicMaxSpi := 0
  cores := fun _ => {
    tpidrEl2 := none
    vttbrEl2 := 0
    sysRegs := zeroVcpu.sysRegs
    ichVmcrEl2 := 0
    iccSreEl1 := 0
    iccSgi1rEl1 := 0 }
  gicd := { enable := fun _ => 0, regs := fun _ => 0 }
  gicr := fun _ => 0
  smcs := []

/-! ## Access -/

/-- Read the `n`-byte number at `a`. -/
def loadLe (a n : ℕ) : Exec Hyp ℕ := do return readLe (← get).ram.mem a n

/-- Write the `n`-byte number at `a`. -/
def storeLe (a n v : ℕ) : Exec Hyp Unit :=
  modify fun s => { s with ram := { s.ram with mem := writeLe s.ram.mem a n v } }

/-- Read through a pointer to a `vm_t`. -/
def derefVm (vm : ℕ) : Exec Hyp Vm := do
  let s ← get
  if vm = 0 then throw .nullDeref else pure (s.vms vm)

/-- Change a `vm_t` through its pointer. -/
def modifyVm (vm : ℕ) (f : Vm → Vm) : Exec Hyp Unit := modify fun s => s.setVm vm (f (s.vms vm))

/-- Change a `vcpu_t` through its pointer. -/
def modifyVcpu (i : Fin ncpu) (f : Vcpu → Vcpu) : Exec Hyp Unit :=
  modify fun s => s.setVcpu i (f (s.vcpus i))

/-- Change the registers of the core that runs. -/
def modifyCore (f : CoreRegs → CoreRegs) : Exec Hyp Unit :=
  modify fun s => { s with cores := Function.update s.cores s.ram.core (f (s.cores s.ram.core)) }

section
variable {E : Fault → Hyp → Prop} {s : Hyp}

@[simp] theorem wp_loadLe {Q : ℕ → Hyp → Prop} (a n : ℕ) :
    wp (loadLe a n) Q E s ↔ Q (readLe s.ram.mem a n) s := Iff.rfl

@[simp] theorem wp_storeLe {Q : Unit → Hyp → Prop} (a n v : ℕ) :
    wp (storeLe a n v) Q E s ↔
      Q () { s with ram := { s.ram with mem := writeLe s.ram.mem a n v } } := Iff.rfl

theorem wp_derefVm {Q : Vm → Hyp → Prop} {vm : ℕ} (h : vm ≠ 0) :
    wp (derefVm vm) Q E s ↔ Q (s.vms vm) s := by
  simp only [derefVm, wp_bind, wp_get, if_neg h, wp_pure]

@[simp] theorem wp_modifyVm {Q : Unit → Hyp → Prop} (vm : ℕ) (f : Vm → Vm) :
    wp (modifyVm vm f) Q E s ↔ Q () (s.setVm vm (f (s.vms vm))) := Iff.rfl

@[simp] theorem wp_modifyVcpu {Q : Unit → Hyp → Prop} (i : Fin ncpu) (f : Vcpu → Vcpu) :
    wp (modifyVcpu i f) Q E s ↔ Q () (s.setVcpu i (f (s.vcpus i))) := Iff.rfl

@[simp] theorem wp_modifyCore {Q : Unit → Hyp → Prop} (f : CoreRegs → CoreRegs) :
    wp (modifyCore f) Q E s ↔
      Q () { s with cores := Function.update s.cores s.ram.core (f (s.cores s.ram.core)) } :=
  Iff.rfl

end

end Xhyper
