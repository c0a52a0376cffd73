import Xhyper.BlkRuns
import Xhyper.GuestImage
import Xhyper.Vcpu

/-!
# Virtual machines

`create_guest_vm` makes a virtual machine: its record, its virtual CPUs, its translation
table with the guest's memory and the serial port, and its interrupt controller.  The code
never says where it put the record, which only its virtual CPUs point to; `buildGuestVm` is
`create_guest_vm` with the address as its result.

## Main definitions

* `vmInit`, `buildGuestVm`, `createGuestVm` — make a virtual machine.
* `hyperInit` — what the primary core does before it.
-/

namespace Xhyper

open Memory Prog

/-- `sizeof(vm_t)`. -/
abbrev sizeofVm : ℕ := 120

/-- The bytes of `vm_t.name`. -/
abbrev vmNameLen : ℕ := 32

/-- `strcpy(vm->name, name)`, with the zero that ends the name. -/
def setVmName (vm : ℕ) (name : List Byte) : Exec Hyp Unit :=
  if name.length < vmNameLen then modifyVm vm fun V => { V with name := name }
  else throw .outOfBounds

/-- `vm->vcpus[cpu] = create_vcpu(vm, cpu, entry)`. -/
def addVcpu (vm cpu : ℕ) (entry : BitVec 64) : Exec Hyp Unit := do
  let i ← createVcpu vm cpu entry
  if h : cpu < ncpu then
    modifyVm vm fun V => { V with vcpus := Function.update V.vcpus ⟨cpu, h⟩ (some i) }
  else throw .outOfBounds

/-- `vm_init`. -/
def vmInit (vm : ℕ) (image : Guest) (vmConfig : VmConfig) : Exec Hyp Unit := do
  modifyVm vm fun _ => zeroVm
  setVmName vm image.guestName
  modifyVm vm fun V => { V with vmLock := archSpinlockInit V.vmLock }
  modifyVm vm fun V => { V with nvcpu := vmConfig.ncpu }
  modifyVm vm fun V => { V with dtb := vmConfig.dtbAddr }
  addVcpu vm 0 (BitVec.ofNat 64 vmConfig.entryAddr)
  let _ ← forRange 1 1 vmConfig.ncpu.toNat fun cpu => addVcpu vm cpu 0

/-- `vm->vcpus[0]->state = VCPU_READY`. -/
def readyFirst (vm : ℕ) : Exec Hyp Unit := do
  match ((← get).vms vm).vcpus 0 with
  | none => throw .nullDeref
  | some i => modifyVcpu i fun v => { v with state := .ready }

/-- `create_guest_vm`, with the address of the machine it made. -/
def buildGuestVm (P : Platform) (vmConfig : VmConfig) : Exec Hyp ℕ := do
  match vmConfig.guestImage with
  | none => abort "Guest vm are required when creating geust vm"
  | some image =>
      if vmConfig.ncpu > ncpu then abort "The number of VCPUs cannot exceed %d"
      else do
        match ← zoom Hyp.heapPart (xmalloc sizeofVm) with
        | none => abort "Unable to alloc a vm, no memory"
        | some vm => do
            vmInit vm image vmConfig
            match ← zoom Hyp.ramPart allocOnePage with
            | none => abort "Unable to alloc the vttbr"
            | some vttbr => do
                modifyVm vm fun V => { V with vttbr := vttbr }
                zoom Hyp.ramPart (doMemoryMapping vttbr vmConfig)
                zoom Hyp.ramPart (doDeviceMapping vttbr)
                let vgicDist ← createVgicDist P vm
                modifyVm vm fun V => { V with vgicDist := vgicDist }
                readyFirst vm
                pure vm

/-- `create_guest_vm`. -/
def createGuestVm (P : Platform) (vmConfig : VmConfig) : Exec Hyp Unit := do
  let _ ← buildGuestVm P vmConfig

/-- `blk_pool_start`: the linker keeps three pages for the pool at the end of the image. -/
def blkPoolStart (himageEnd : ℕ) : ℕ := himageEnd - 3 * pageSize

/-- The steps of `hyper_init_primary` that set up the allocators and the arrays, for an image
that ends at `himageEnd`. -/
def hyperInit (himageEnd : ℕ) : Exec Hyp Unit := do
  let _ ← zoom Hyp.heapPart (xmallocInit (blkPoolStart himageEnd))
  zoom Hyp.ramPart (kallocInit himageEnd)
  pcpuInit
  vcpuInit

end Xhyper
