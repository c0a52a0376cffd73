import Xhyper.Lib.Prog
import Xhyper.Lib.Memory
import Xhyper.Lib.Chain
import Xhyper.Lib.Radix
import Xhyper.Base
import Xhyper.Kalloc
import Xhyper.PageWalk
import Xhyper.TableWrite
import Xhyper.Mapping
import Xhyper.Stage2Map
import Xhyper.WalkEntries
import Xhyper.Xmalloc
import Xhyper.BlkInvariant
import Xhyper.BlkCalls
import Xhyper.BlkRuns
import Xhyper.ListRegs
import Xhyper.CopyToIpa
import Xhyper.GuestImage
import Xhyper.GuestMemory
import Xhyper.Machine
import Xhyper.Vmmio
import Xhyper.MmioTrap
import Xhyper.Vgic
import Xhyper.VgicEnable
import Xhyper.Vcpu
import Xhyper.Vm
import Xhyper.Psci
import Xhyper.Slots
import Xhyper.HypRun
import Xhyper.Wakeup
import Xhyper.GuestOptional
import Xhyper.GuestPages
import Xhyper.Isolation
import Xhyper.Creation
import Xhyper.Spinlock
import Xhyper.PageRuns
import Xhyper.CpuOnRace
import Xhyper.Lib.A64
import Xhyper.Vector
import Xhyper.Vgicr
import Xhyper.VgicRecords
import Xhyper.VgicContain
import Xhyper.VgicStorage
import Xhyper.LockBalance
import Xhyper.MmioDispatch
import Xhyper.VgicDevices
import Xhyper.MmioAccess
import Xhyper.IrqDelivery
import Xhyper.IrqInject
import Xhyper.Lib.Oblivious
import Xhyper.StaleLoads
import Xhyper.ZeroRegister
import Xhyper.PageUses
import Xhyper.PrivateEnables
import Xhyper.VcpuCalls
import Xhyper.VmmioPublish
import Xhyper.SgiTargets
import Xhyper.GuestContext
import Xhyper.IrqMask
import Xhyper.BlkServe
import Xhyper.BlkReject
import Xhyper.BlkReuse
import Xhyper.CopyFaults
import Xhyper.MmioNewest
import Xhyper.GicLookup
import Xhyper.SpiAccess
import Xhyper.Lib.Fields
import Xhyper.GicFields
import Xhyper.PrivatePriorities
import Xhyper.Lib.Numeral
import Xhyper.Printf
import Xhyper.PrintfFormat
import Xhyper.Lib.Mutex
import Xhyper.GicdCores
import Xhyper.PageCores
import Xhyper.PageOwners
import Xhyper.Lib.Vmsa
import Xhyper.Stage2Hw
import Xhyper.TrapEffect
import Xhyper.Board
import Xhyper.Lib.IrqLines
import Xhyper.IrqLife
import Xhyper.Lib.Serial
import Xhyper.Uart
import Xhyper.PageBudget
import Xhyper.GicInit
import Xhyper.GuestEntry
import Xhyper.Boot
import Xhyper.Secondary
import Xhyper.Lib.Tlb
import Xhyper.BoardTlb
