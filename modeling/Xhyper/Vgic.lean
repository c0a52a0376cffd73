import Xhyper.Vmmio

/-!
# The virtual interrupt controller

A virtual machine has one `vgicv3_dist` with the configuration of its shared interrupts,
and each virtual CPU a `vgicv3_cpu` with that of its private ones.  Both are on the heap,
and they are kept as bytes of memory: the array of shared interrupts is as long as
`xmalloc` was asked to make it, and what lies behind it is what the code writes to when it
goes past the end.

The physical distributor sets enable bits when ones are written to `ISENABLER` and clears
them when ones are written to `ICENABLER`; both read back the enable bits.

## Main definitions

* `createVgicCpu`, `createVgicDist` — make the two.
* `Gicd.read`, `Gicd.write`, `gicEnableInt`, `gicDisableInt`, `gicSetTarget` — the physical
  distributor.
* `vgicIrqGet` — where an interrupt's configuration is.
* `vgicdWrite` — a guest's write to the distributor.
-/

namespace Xhyper

open Memory Prog

/-- `GIC_NSGI`. -/
abbrev gicNsgi : ℕ := 16

/-- `GIC_MIN_SPI0`. -/
abbrev gicMinSpi0 : ℕ := 32

/-- `GIC_MIN_LPI`. -/
abbrev gicMinLpi : ℕ := 8192

/-! ## The records on the heap -/

/-- `sizeof(struct vgicv3_cpu)`: the bitmap, and twice sixteen interrupts. -/
abbrev sizeofVgicCpu : ℕ := 130

/-- `sizeof(struct vgicv3_dist)`. -/
abbrev sizeofVgicDist : ℕ := 32

/-- The pointer to the records is one of the distributor's fields. -/
theorem ptr_subset_dist (a : ℕ) : block (a + 8) 8 ⊆ block a sizeofVgicDist :=
  block_subset (Nat.le_add_right _ _) (Nat.add_le_add_left (by decide : 8 + 8 ≤ 32) a)

/-- So is the lock. -/
theorem lock_subset_dist (a : ℕ) : block (a + 16) 8 ⊆ block a sizeofVgicDist :=
  block_subset (Nat.le_add_right _ _) (Nat.add_le_add_left (by decide : 16 + 8 ≤ 32) a)

/-- `sizeof(struct vgicv3_irq_config)`. -/
abbrev sizeofIrqConfig : ℕ := 4

/-- `&vgic_cpu->sgis[i]`. -/
def sgiAddr (vgicCpu i : ℕ) : ℕ := vgicCpu + 2 + sizeofIrqConfig * i

/-- `&vgic_cpu->ppis[i]`, also past the end of the array. -/
def ppiAddr (vgicCpu i : ℕ) : ℕ := vgicCpu + 66 + sizeofIrqConfig * i

/-- The part of `create_vgic_cpu`'s two loops that is about one interrupt. -/
def initIrqConfig (affinity a : ℕ) : Exec Hyp Unit := do
  storeLe (a + 2) 1 0
  storeLe (a + 1) 1 affinity
  storeLe (a + 3) 1 1

/-- `create_vgic_cpu`. -/
def createVgicCpu (vcpuid : ℕ) : Exec Hyp ℕ := do
  match ← zoom Hyp.heapPart (xmalloc sizeofVgicCpu) with
  | none => abort "Unable to alloc vgic_cpu, no memory"
  | some vgicCpu => do
      storeLe vgicCpu 2 0
      let _ ← forRange 1 0 gicNsgi fun i => initIrqConfig (1 <<< vcpuid) (sgiAddr vgicCpu i)
      let _ ← forRange 1 0 gicNsgi fun i => initIrqConfig (1 <<< vcpuid) (ppiAddr vgicCpu i)
      pure vgicCpu

/-- `create_vgic_dist`.  The lock is not initialised, and `spis` is as many bytes long as
there are interrupts. -/
def createVgicDist (P : Platform) (vm : ℕ) : Exec Hyp ℕ := do
  match ← zoom Hyp.heapPart (xmalloc sizeofVgicDist) with
  | none => abort "Unable to alloc vgic_dist, no memory"
  | some vgicDist => do
      let nspis := (((← get).gicMaxSpi - 31) % 2 ^ 32).toNat
      storeLe vgicDist 4 nspis
      storeLe (vgicDist + 4) 1 0
      match ← zoom Hyp.heapPart (xmalloc nspis) with
      | none => do
          storeLe (vgicDist + 8) 8 0
          abort "Unable to alloc vgic_dist->spis, no memory"
      | some spis => do
          storeLe (vgicDist + 8) 8 spis
          createMmioTrap vm gicdBase gicdSize P.vgicdRead P.vgicdWrite
          createMmioTrap vm gicrBase gicrSize P.vgicrRead P.vgicrWrite
          pure vgicDist

/-! ## The physical distributor -/

/-- `GICD_ISENABLER(n)`. -/
def gicdIsenabler (n : ℕ) : ℕ := 0x100 + n * 4

/-- `GICD_ICENABLER(n)`. -/
def gicdIcenabler (n : ℕ) : ℕ := 0x180 + n * 4

/-- `GICD_ITARGETSR(n)`. -/
def gicdItargetsr (n : ℕ) : ℕ := 0x800 + n * 4

namespace Gicd

/-- `GICD_READ32`. -/
def read (d : Gicd) (offset : ℕ) : BitVec 32 :=
  if 0x100 ≤ offset ∧ offset < 0x180 then d.enable ((offset - 0x100) / 4)
  else if 0x180 ≤ offset ∧ offset < 0x200 then d.enable ((offset - 0x180) / 4)
  else d.regs offset

/-- `GICD_WRITE32`. -/
def write (d : Gicd) (offset : ℕ) (v : BitVec 32) : Gicd :=
  if 0x100 ≤ offset ∧ offset < 0x180 then
    let n := (offset - 0x100) / 4
    { d with enable := Function.update d.enable n (d.enable n ||| v) }
  else if 0x180 ≤ offset ∧ offset < 0x200 then
    let n := (offset - 0x180) / 4
    { d with enable := Function.update d.enable n (d.enable n &&& ~~~v) }
  else { d with regs := Function.update d.regs offset v }

/-- The enable bit of an interrupt. -/
def enabled (d : Gicd) (irq : ℕ) : Bool := (d.enable (irq / 32)).getLsbD (irq % 32)

end Gicd

/-- Write a register of the distributor. -/
def gicdWrite32 (offset : ℕ) (v : BitVec 32) : Exec Hyp Unit :=
  modify fun s => { s with gicd := s.gicd.write offset v }

/-- Replace the enable bits of the core that runs. -/
def setGicr (v : BitVec 32) : Exec Hyp Unit :=
  modify fun s => { s with gicr := Function.update s.gicr s.ram.core v }

/-- `gic_disable_int`. -/
def gicDisableInt (irq : ℕ) : Exec Hyp Unit := do
  let s ← get
  if gicMinLpi ≤ irq then pure ()
  else if gicMinSpi0 ≤ irq then
    gicdWrite32 (gicdIcenabler (irq / 32))
      (s.gicd.read (gicdIcenabler (irq / 32)) ||| 1#32 <<< (irq % 32))
  else
    -- what is read of GICR_ICENABLER0 is written back, and clears these bits
    setGicr (s.gicr s.ram.core &&& ~~~(s.gicr s.ram.core ||| 1#32 <<< (irq % 32)))

/-- `gic_enable_int`. -/
def gicEnableInt (irq : ℕ) : Exec Hyp Unit := do
  let s ← get
  if gicMinLpi ≤ irq then pure ()
  else if gicMinSpi0 ≤ irq then
    gicdWrite32 (gicdIsenabler (irq / 32))
      (s.gicd.read (gicdIsenabler (irq / 32)) ||| 1#32 <<< (irq % 32))
  else
    setGicr (s.gicr s.ram.core ||| (s.gicr s.ram.core ||| 1#32 <<< (irq % 32)))

/-- `gic_set_target`; the mask keeps the old target and drops the others. -/
def gicSetTarget (irq : ℕ) (target : BitVec 32) : Exec Hyp Unit := do
  let s ← get
  if irq < gicMinSpi0 then pure ()
  else if gicMinLpi ≤ irq then pure ()
  else
    gicdWrite32 (gicdItargetsr (irq / 4))
      (s.gicd.read (gicdItargetsr (irq / 4)) &&& 0xff#32 <<< (irq % 4 * 8) |||
        target <<< (irq % 4 * 8))

/-! ## The lock of the virtual distributor -/

/-- `vgic_dist->lock` as it lies in memory. -/
def distLock (m : Mem) (vgicDist : ℕ) : Spinlock where
  coreid := (BitVec.ofNat 32 (readLe m (vgicDist + 16) 4)).toInt
  word := BitVec.ofNat 32 (readLe m (vgicDist + 20) 4)

/-- Write the lock back. -/
def setDistLock (m : Mem) (vgicDist : ℕ) (l : Spinlock) : Mem :=
  writeLe (writeLe m (vgicDist + 16) 4 (BitVec.ofInt 32 l.coreid).toNat) (vgicDist + 20) 4
    l.word.toNat

/-- Run an operation of the lock. -/
def withDistLock (vgicDist : ℕ) (op : ℕ → Spinlock → Except Fault Spinlock) : Exec Hyp Unit := do
  let s ← get
  match op s.ram.core (distLock s.ram.mem vgicDist) with
  | .ok l => set { s with ram := { s.ram with mem := setDistLock s.ram.mem vgicDist l } }
  | .error e => throw e

/-! ## A guest's write to the distributor -/

/-- `vgic_irq_get`: the address of the configuration of an interrupt. -/
def vgicIrqGet (v : Fin ncpu) (irqNum : ℤ) : Exec Hyp ℕ := do
  let s ← get
  if 0 ≤ irqNum ∧ irqNum < 16 then pure (sgiAddr (s.vcpus v).vgicCpu irqNum.toNat)
  else if 16 ≤ irqNum ∧ irqNum < 32 then
    -- the index is the interrupt's number, not its place among the private ones
    pure (ppiAddr (s.vcpus v).vgicCpu irqNum.toNat)
  else if 32 ≤ irqNum then do
    let V ← derefVm (s.vcpus v).vm
    if V.vgicDist = 0 then throw .nullDeref
    else pure (read64 s.ram.mem (V.vgicDist + 8) + sizeofIrqConfig * (irqNum.toNat - 32))
  else abort "Invalid irq number"

/-- The loops of `vgicd_write` over the 32 interrupts of an enable register: set the field
`enabled` of those with a bit in `val`, and tell the physical distributor. -/
def vgicdEnable (v : Fin ncpu) (irqNum : ℕ) (val : BitVec 64) (enabled : ℕ)
    (op : ℕ → Exec Hyp Unit) : Exec Hyp Unit := do
  let _ ← forRange 1 0 32 fun i => do
    let irq ← vgicIrqGet v (irqNum + i : ℕ)
    if val.getLsbD i = true then do
      storeLe (irq + 2) 1 enabled
      op (irqNum + i)
    else pure ()

/-- The registers of `vgicd_write` that are accepted and ignored. -/
def gicdIgnored (offset : ℕ) : Bool :=
  offset == 0x4 || offset == 0x8 ||                       -- GICD_TYPER, GICD_IIDR
  (0x80 ≤ offset && offset ≤ 0xff) ||                     -- GICD_IGROUPR
  (0x200 ≤ offset && offset ≤ 0x3ff) ||                   -- pending and active bits
  (0xc00 ≤ offset && offset ≤ 0xcff) ||                   -- GICD_ICFGR
  (0x6000 ≤ offset && offset ≤ 0x60fb) ||                 -- GICD_IROUTER(0) ... (31) + 3
  (0x6100 ≤ offset && offset ≤ 0x7fdb)                    -- GICD_IROUTER(32) ... (1019) + 3

/-- The `switch` of `vgicd_write`; was the register handled? -/
def vgicdWriteReg (v : Fin ncpu) (vgicDist offset : ℕ) (val : BitVec 64) : Exec Hyp Bool := do
  if offset = 0 then do
    storeLe (vgicDist + 4) 1 (if val.getLsbD 1 = true then 1 else 0)
    pure true
  else if 0x100 ≤ offset ∧ offset ≤ 0x17f then do
    vgicdEnable v ((offset - gicdIsenabler 0) / 4 * 32) val 1 gicEnableInt
    pure true
  else if 0x180 ≤ offset ∧ offset ≤ 0x1ff then do
    -- the number is counted from the other register's base
    vgicdEnable v ((offset - gicdIsenabler 0) / 4 * 32) val 0 gicDisableInt
    pure true
  else if 0x400 ≤ offset ∧ offset ≤ 0x7fb then do
    let irqNum := (offset - 0x400) / 4 * 4
    let _ ← forRange 1 0 4 fun i => do
      let irq ← vgicIrqGet v (irqNum + i : ℕ)
      storeLe irq 1 (val >>> (i * 8) &&& 0xff#64).toNat
    pure true
  else if 0x800 ≤ offset ∧ offset ≤ 0xbfb then do
    let irqNum := (offset - 0x800) / 4 * 4
    let _ ← forRange 1 0 4 fun i => do
      let irq ← vgicIrqGet v (irqNum + i : ℕ)
      storeLe (irq + 1) 1 (val >>> (i * 8) &&& 0xff#64).toNat
      let affinity ← loadLe (irq + 1) 1
      gicSetTarget (irqNum + i) (BitVec.ofNat 32 affinity)
    pure true
  else pure (gicdIgnored offset)

/-- `vgicd_write`. -/
def vgicdWrite (v : Fin ncpu) (offset : ℕ) (val : BitVec 64) : Exec Hyp ℤ := do
  let V ← derefVm ((← get).vcpus v).vm
  if V.vgicDist = 0 then throw .nullDeref
  else do
    withDistLock V.vgicDist archSpinLock
    let handled ← vgicdWriteReg v V.vgicDist offset val
    withDistLock V.vgicDist archSpinUnlock
    pure (if handled then 0 else -1)

end Xhyper
