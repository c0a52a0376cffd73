import Xhyper.BlkCalls
import Xhyper.Machine

/-!
# Trapped regions

A virtual machine has a list of guest regions that are not mapped.  An access to one
of them is a data abort, and `vmmio_handler` looks for the region and calls one of its
two functions.  A region is a record on the heap, and new ones go to the front of the
list.

The functions that the records point to are a parameter (`VmmioHandlers`): a call of
one is found by its address.

## Main definitions

* `VmmioInfo`, `readVmmio` — a record, as it lies in memory.
* `vmmioHandlerRegister`, `createMmioTrap` — add a region.
* `vmmioHandler`, `dataAbortHandler` — find the region of an access.
* `vmmioHandlerRegister_spec`, `vmmioHandler_first` — what registering does, and that the
  first region of the list is found.
-/

namespace Xhyper

open Memory Prog

/-- `struct vmmio_access`, less the field nothing sets. -/
structure VmmioAccess where
  ipa : ℕ
  /-- The access is a write. -/
  wnr : Bool
  accsize : ℕ

/-- `struct vmmio_info`; a function pointer is an address. -/
structure VmmioInfo where
  next : ℕ
  base : ℕ
  size : ℕ
  vmmioRead : ℕ
  vmmioWrite : ℕ
  deriving DecidableEq, Repr

/-- `sizeof(struct vmmio_info)`. -/
abbrev sizeofVmmioInfo : ℕ := 40

/-- The record at `a`. -/
def readVmmio (m : Mem) (a : ℕ) : VmmioInfo where
  next := read64 m a
  base := read64 m (a + 8)
  size := read64 m (a + 16)
  vmmioRead := read64 m (a + 24)
  vmmioWrite := read64 m (a + 32)

/-- The functions at the addresses that records hold. -/
structure VmmioHandlers where
  read : ℕ → Fin ncpu → ℕ → Option (Fin 31) → VmmioAccess → Exec Hyp ℤ
  write : ℕ → Fin ncpu → ℕ → BitVec 64 → VmmioAccess → Exec Hyp ℤ

/-! ## Registering -/

/-- `vmmio_handler_register`. -/
def vmmioHandlerRegister (vm ipa size vmmioRead vmmioWrite : ℕ) : Exec Hyp ℤ := do
  if size = 0 ∨ vm = 0 then pure (-1)
  else do
    spinLock (Hyp.vmLockPart vm) (← get).ram.core
    match ← zoom Hyp.heapPart (xmalloc sizeofVmmioInfo) with
    | none => throw .nullDeref
    | some new => do
        storeLe new 8 ((← get).vms vm).vmmios
        modifyVm vm fun V => { V with vmmios := new }
        spinUnlock (Hyp.vmLockPart vm) (← get).ram.core
        storeLe (new + 8) 8 ipa
        storeLe (new + 16) 8 size
        storeLe (new + 24) 8 vmmioRead
        storeLe (new + 32) 8 vmmioWrite
        pure 0

/-- `create_mmio_trap`; flushing the TLB changes no state here. -/
def createMmioTrap (vm ipa size vmmioRead vmmioWrite : ℕ) : Exec Hyp Unit := do
  let V ← derefVm vm
  match ← zoom Hyp.ramPart (pageWalk V.vttbr ipa false) with
  | some _ => zoom Hyp.ramPart (pageUnmap V.vttbr ipa size)
  | none => pure ()
  let _ ← vmmioHandlerRegister vm ipa size vmmioRead vmmioWrite

/-! ## Dispatch -/

section dispatch
variable (H : VmmioHandlers) (v : Fin ncpu)

/-- The loop of `vmmio_handler` from the record `m` on. -/
def vmmioLoop (reg : Option (Fin 31)) (val : BitVec 64) (vmmio : VmmioAccess) :
    ℕ → ℕ → Exec Hyp ℤ
  | 0, _ => throw .spin
  | fuel + 1, m => do
      if m = 0 then pure 0
      else do
        let info := readVmmio (← get).ram.mem m
        if info.base ≤ vmmio.ipa ∧ vmmio.ipa < (info.base + info.size) % 2 ^ 64 then
          if vmmio.wnr then
            if info.vmmioWrite ≠ 0 then
              H.write info.vmmioWrite v (vmmio.ipa - info.base) val vmmio
            else vmmioLoop reg val vmmio fuel info.next
          else if info.vmmioRead ≠ 0 then
            H.read info.vmmioRead v (vmmio.ipa - info.base) reg vmmio
          else vmmioLoop reg val vmmio fuel info.next
        else vmmioLoop reg val vmmio fuel info.next

/-- The register of an access; number 31 is the zero register. -/
def vmmioReg (regNum : ℕ) : Option (Fin 31) :=
  if h : regNum < 31 then some ⟨regNum, h⟩ else none

/-- The value in the register of an access. -/
def vmmioVal (vcpu : Vcpu) (regNum : ℕ) : BitVec 64 :=
  match vmmioReg regNum with
  | some reg => vcpu.regs.x reg
  | none => 0

/-- `vmmio_handler`.  A list without a cycle has fewer than `2 ^ 64` records. -/
def vmmioHandler (regNum : ℕ) (vmmio : VmmioAccess) : Exec Hyp ℤ := do
  let vcpu := (← get).vcpus v
  let V ← derefVm vcpu.vm
  if V.vmmios = 0 then pure (-1)
  else vmmioLoop H v (vmmioReg regNum) (vmmioVal vcpu regNum) vmmio (2 ^ 64) V.vmmios

/-- `get_fault_ipa`. -/
def getFaultIpa (hpfar vaddr : BitVec 64) : BitVec 64 :=
  (hpfar &&& 0xfffffffffff#64) <<< 8 ||| (vaddr &&& 0xfff#64)

/-- `data_abort_handler`, with `hpfar_el2` as an argument. -/
def dataAbortHandler (esrIss far hpfar : BitVec 64) : Exec Hyp ℤ := do
  let ipa := getFaultIpa hpfar far
  let wnr := (esrIss >>> 6 &&& 0x1#64).toNat
  let sas := (esrIss >>> 22 &&& 0x3#64).toNat
  let srt := (esrIss >>> 16 &&& 0x1f#64).toNat
  let fnv := (esrIss >>> 10 &&& 0x1#64).toNat
  if fnv ≠ 0 then abort "FAR is not valid"
  else do
    let r ← vmmioHandler H v srt { ipa := ipa.toNat, wnr := decide (wnr ≠ 0), accsize := 2 ^ sas }
    if r < 0 then pure (-1) else pure 0

/-- The program that the record `info` gives for an access. -/
def VmmioInfo.call (info : VmmioInfo) (reg : Option (Fin 31)) (val : BitVec 64)
    (vmmio : VmmioAccess) : Exec Hyp ℤ :=
  if vmmio.wnr then H.write info.vmmioWrite v (vmmio.ipa - info.base) val vmmio
  else H.read info.vmmioRead v (vmmio.ipa - info.base) reg vmmio

/-- The outcome of a data abort with syndrome `esrIss` at `ipa` that the record `info`
answers. -/
def VmmioInfo.serve (info : VmmioInfo) (vcpu : Vcpu) (esrIss : BitVec 64) (ipa : ℕ) :
    Exec Hyp ℤ := do
  let r ← info.call H v (vmmioReg (esrIss >>> 16 &&& 0x1f#64).toNat)
    (vmmioVal vcpu (esrIss >>> 16 &&& 0x1f#64).toNat)
    { ipa := ipa, wnr := decide ((esrIss >>> 6 &&& 0x1#64).toNat ≠ 0),
      accsize := 2 ^ (esrIss >>> 22 &&& 0x3#64).toNat }
  if r < 0 then pure (-1) else pure 0

variable {H v}

/-- **The first record is found**, when its functions are there and the access is in its
region. -/
theorem wp_vmmioHandler_first {s : Hyp} {Q : ℤ → Hyp → Prop} {E : Fault → Hyp → Prop}
    {regNum : ℕ} {vmmio : VmmioAccess} {info : VmmioInfo}
    (hvm : (s.vcpus v).vm ≠ 0) (hfirst : (s.vms (s.vcpus v).vm).vmmios ≠ 0)
    (hinfo : readVmmio s.ram.mem (s.vms (s.vcpus v).vm).vmmios = info)
    (hin : info.base ≤ vmmio.ipa ∧ vmmio.ipa < (info.base + info.size) % 2 ^ 64)
    (hread : info.vmmioRead ≠ 0) (hwrite : info.vmmioWrite ≠ 0) :
    wp (vmmioHandler H v regNum vmmio) Q E s ↔
      wp (info.call H v (vmmioReg regNum) (vmmioVal (s.vcpus v) regNum) vmmio) Q E s := by
  obtain ⟨fuel, hfuel⟩ : ∃ fuel, 2 ^ 64 = fuel + 1 := Nat.exists_eq_succ_of_ne_zero (by norm_num)
  simp only [vmmioHandler, wp_bind, wp_get, wp_derefVm hvm]
  rw [if_neg hfirst, hfuel, vmmioLoop, if_neg hfirst]
  simp only [wp_bind, wp_get, hinfo]
  rw [if_pos hin, VmmioInfo.call]
  simp only [hread, hwrite, ne_eq, not_false_eq_true, if_true]

/-- The fault registers of an access to `ipa`. -/
def FaultAt (ipa : ℕ) (far hpfar : BitVec 64) : Prop :=
  hpfar = BitVec.ofNat 64 (ipa / pageSize * 16) ∧ far.toNat % pageSize = ipa % pageSize

theorem getFaultIpa_eq {ipa : ℕ} {far hpfar : BitVec 64} (hb : ipa < 2 ^ 48)
    (h : FaultAt ipa far hpfar) : (getFaultIpa hpfar far).toNat = ipa := by
  obtain ⟨rfl, hfar⟩ := h
  have hoff : (far &&& 0xfff#64).toNat = ipa % pageSize := by
    rw [BitVec.toNat_and, ← hfar]
    exact Nat.and_two_pow_sub_one_eq_mod far.toNat 12
  have hpage : ((BitVec.ofNat 64 (ipa / pageSize * 16) &&& 0xfffffffffff#64) <<< 8).toNat
      = ipa / pageSize * 2 ^ 12 := by
    have hmask : (BitVec.ofNat 64 (ipa / pageSize * 16) &&& 0xfffffffffff#64).toNat
        = ipa / pageSize * 16 := by
      rw [BitVec.toNat_and, BitVec.toNat_ofNat]
      simp only [pageSize]
      rw [Nat.mod_eq_of_lt (by omega)]
      refine (Nat.and_two_pow_sub_one_eq_mod _ 44).trans (Nat.mod_eq_of_lt (by omega))
    rw [BitVec.toNat_shiftLeft, hmask, Nat.shiftLeft_eq, Nat.mod_eq_of_lt]
    · omega
    · simp only [pageSize]
      omega
  have hlt : ipa % pageSize < 2 ^ 12 := Nat.mod_lt _ (by decide)
  rw [getFaultIpa, BitVec.toNat_or, hoff, hpage, ← Nat.shiftLeft_eq,
    ← Nat.shiftLeft_add_eq_or_of_lt hlt, Nat.shiftLeft_eq]
  simp only [pageSize]
  omega

/-- A data abort goes to the region that was registered last, when it is in it. -/
theorem dataAbortHandler_first {s : Hyp} {ipa : ℕ} {esrIss far hpfar : BitVec 64}
    {info : VmmioInfo} (hb : ipa < 2 ^ 48) (hfault : FaultAt ipa far hpfar)
    (hfnv : esrIss >>> 10 &&& 0x1#64 = 0)
    (hvm : (s.vcpus v).vm ≠ 0) (hfirst : (s.vms (s.vcpus v).vm).vmmios ≠ 0)
    (hinfo : readVmmio s.ram.mem (s.vms (s.vcpus v).vm).vmmios = info)
    (hin : info.base ≤ ipa ∧ ipa < (info.base + info.size) % 2 ^ 64)
    (hread : info.vmmioRead ≠ 0) (hwrite : info.vmmioWrite ≠ 0) :
    dataAbortHandler H v esrIss far hpfar s
      = info.serve H v (s.vcpus v) esrIss ipa s := by
  refine eq_of_wp (y := info.serve H v (s.vcpus v) esrIss ipa) fun Q E h => ?_
  have hfnv' : ¬ (esrIss >>> 10 &&& 0x1#64).toNat ≠ 0 := by simp [hfnv]
  simp only [dataAbortHandler, if_neg hfnv', getFaultIpa_eq hb hfault, wp_bind]
  rw [wp_vmmioHandler_first hvm hfirst hinfo hin hread hwrite]
  simpa only [VmmioInfo.serve, wp_bind] using h

end dispatch

/-! ## What registering does -/

/-- A record written field by field. -/
def writeVmmio (m : Mem) (a : ℕ) (info : VmmioInfo) : Mem :=
  write64 (write64 (write64 (write64 (write64 m a info.next) (a + 8) info.base) (a + 16) info.size)
    (a + 24) info.vmmioRead) (a + 32) info.vmmioWrite

/-- What a record holds after it was written. -/
theorem readVmmio_writeVmmio (m : Mem) (a : ℕ) (info : VmmioInfo) :
    readVmmio (writeVmmio m a info) a =
      ⟨info.next % 2 ^ 64, info.base % 2 ^ 64, info.size % 2 ^ 64, info.vmmioRead % 2 ^ 64,
        info.vmmioWrite % 2 ^ 64⟩ := by
  have hsame : ∀ (m : Mem) (b v : ℕ), read64 (write64 m b v) b = v % 2 ^ 64 := by
    intro m b v
    rw [read64, write64, readLe_writeLe]
    norm_num
  have hfar : ∀ (m : Mem) (i j v : ℕ), i + 8 ≤ j ∨ j + 8 ≤ i →
      read64 (write64 m (a + j) v) (a + i) = read64 m (a + i) := by
    intro m i j v hij
    exact read64_write64_of_disjoint m (by omega)
  have hnext : ∀ (m : Mem) (j v : ℕ), 8 ≤ j → read64 (write64 m (a + j) v) a = read64 m a :=
    fun m j v hj => hfar m 0 j v (by omega)
  simp only [readVmmio, writeVmmio]
  rw [hfar _ 8 32 _ (by omega), hfar _ 16 32 _ (by omega), hfar _ 24 32 _ (by omega),
    hfar _ 8 24 _ (by omega), hfar _ 16 24 _ (by omega), hfar _ 8 16 _ (by omega),
    hnext _ 32 _ (by omega), hnext _ 24 _ (by omega), hnext _ 16 _ (by omega),
    hnext _ 8 _ (by omega)]
  simp only [hsame]

theorem writeVmmio_of_notMem {m : Mem} {a x : ℕ} {info : VmmioInfo}
    (hx : x ∉ block a sizeofVmmioInfo) : writeVmmio m a info x = m x := by
  simp only [mem_block] at hx
  have hout : ∀ (m : Mem) (i v : ℕ), i + 8 ≤ sizeofVmmioInfo → write64 m (a + i) v x = m x := by
    intro m i v hi
    apply writeLe_of_notMem
    simp only [mem_block]
    omega
  rw [writeVmmio, hout _ 32 _ (by decide), hout _ 24 _ (by decide), hout _ 16 _ (by decide),
    hout _ 8 _ (by decide)]
  exact hout m 0 _ (by decide)

/-- **Registering a region** takes a block of the heap, makes it the record of the region
and the first of the list, and writes nothing else. -/
theorem vmmioHandlerRegister_spec {start : ℕ} {s : Hyp} {live : List ℕ}
    {free : Fin blkSliceBit → List ℕ} {vm ipa size vmmioRead vmmioWrite : ℕ}
    (B : Blocks start (Hyp.heapPart.get s) live free) (hvm : vm ≠ 0) (hsize : size ≠ 0) :
    wp (vmmioHandlerRegister vm ipa size vmmioRead vmmioWrite) (fun _ s' => ∃ new h',
        s.sysBlk.HasRoom sizeofVmmioInfo ∧
        Given start (Hyp.heapPart.get s) h' live sizeofVmmioInfo new ∧
        h'.pool.blkLock.word = 0 ∧
        s' = { s with
          ram := { s.ram with
            mem := writeVmmio s.ram.mem new
              ⟨(s.vms vm).vmmios, ipa, size, vmmioRead, vmmioWrite⟩ }
          sysBlk := h'.pool
          vms := Function.update s.vms vm
            { s.vms vm with vmmios := new, vmLock := .leftBy s.ram.core } })
      (fun _ _ => (s.vms vm).vmLock.word = 0 → s.sysBlk.blkLock.word = 0 →
        ¬ s.sysBlk.HasRoom sizeofVmmioInfo) s := by
  have hno : ¬ (size = 0 ∨ vm = 0) := by
    rintro (h | h)
    · exact hsize h
    · exact hvm h
  simp only [vmmioHandlerRegister, hno, if_false, wp_bind, wp_get]
  refine wp_spinLock_of (fun _ => ?_) (fun hl _ h0 => absurd h0 hl)
  rw [wp_zoom]
  refine wp_mono (xmalloc_spec B (by decide)) ?_ ?_
  · rintro r h' ⟨hlock, hr⟩
    rcases hr with ⟨_, _, _, _, hbig⟩ | ⟨new, hr, hroom, G⟩
    · exact absurd hbig (by decide)
    · subst hr
      have hcore := G.core_eq
      have hmem := G.mem_eq
      simp only [Hyp.get_heapPart] at hcore hmem
      simp only [wp_bind, wp_get, wp_storeLe, wp_modifyVm]
      rw [wp_spinUnlock (by simp [Hyp.setVm, hcore])]
      refine ⟨new, h', hroom, G, hlock, ?_⟩
      simp [Hyp.setVm, hcore, hmem, writeVmmio]
  · intro e h' hE _ hlock
    exact (hE hlock).2

end Xhyper
