import Xhyper.Lib.A64
import Xhyper.Machine

/-!
# Entering the guest while interrupts are on

`switch_out` loads the registers of a virtual CPU and returns to the guest.  The core has
enabled interrupts long before, so one may come before each of its instructions.  The handler
saves and restores the general registers; `elr_el2` and `spsr_el2`, which the interrupt itself
writes, it leaves.

What an interrupt comes before is numbered from the first instruction of `switch_out`, the
`mrs`, which is number 0.  Number 3 writes `spsr_el2`, number 4 `elr_el2`, number 22 is the
`eret`.

## Main definitions

* `saveHypRegs`, `restoreHypRegs`, `vectorEl2Irq` — the handler.
* `restoreVmRegs`, `switchOut` — the way into the guest.
* `Leaving`, `EntersGuest` — the two ends of that way.
* `like_irqEl2`, `restoreVmRegs_x` — an interrupt, and the way without one.
* `guest_entry_survives` — what arrives in the guest, and when.
-/

namespace Xhyper

open Memory A64

/-! ## The code -/

/-- `save_hyp_regs`. -/
def saveHypRegs : List Instr :=
  [.subSp 256,
    .stp 0 1 .sp (8 * 0),
    .stp 2 3 .sp (8 * 2),
    .stp 4 5 .sp (8 * 4),
    .stp 6 7 .sp (8 * 6),
    .stp 8 9 .sp (8 * 8),
    .stp 10 11 .sp (8 * 10),
    .stp 12 13 .sp (8 * 12),
    .stp 14 15 .sp (8 * 14),
    .stp 16 17 .sp (8 * 16),
    .stp 18 19 .sp (8 * 18),
    .stp 20 21 .sp (8 * 20),
    .stp 22 23 .sp (8 * 22),
    .stp 24 25 .sp (8 * 24),
    .stp 26 27 .sp (8 * 26),
    .stp 28 29 .sp (8 * 28),
    .str 30 .sp (8 * 30)]

/-- `restore_hyp_regs`. -/
def restoreHypRegs : List Instr :=
  [.ldp 0 1 .sp (8 * 0),
    .ldp 2 3 .sp (8 * 2),
    .ldp 4 5 .sp (8 * 4),
    .ldp 6 7 .sp (8 * 6),
    .ldp 8 9 .sp (8 * 8),
    .ldp 10 11 .sp (8 * 10),
    .ldp 12 13 .sp (8 * 12),
    .ldp 14 15 .sp (8 * 14),
    .ldp 16 17 .sp (8 * 16),
    .ldp 18 19 .sp (8 * 18),
    .ldp 20 21 .sp (8 * 20),
    .ldp 22 23 .sp (8 * 22),
    .ldp 24 25 .sp (8 * 24),
    .ldp 26 27 .sp (8 * 26),
    .ldp 28 29 .sp (8 * 28),
    .ldr 30 .sp (8 * 30),
    .addSp 256]

/-- The loads of `restore_vm_regs` of the registers 2 to 29. -/
def restoreX2X29 : List Instr :=
  [.ldp 2 3 (.x 0) (8 * 2),
    .ldp 4 5 (.x 0) (8 * 4),
    .ldp 6 7 (.x 0) (8 * 6),
    .ldp 8 9 (.x 0) (8 * 8),
    .ldp 10 11 (.x 0) (8 * 10),
    .ldp 12 13 (.x 0) (8 * 12),
    .ldp 14 15 (.x 0) (8 * 14),
    .ldp 16 17 (.x 0) (8 * 16),
    .ldp 18 19 (.x 0) (8 * 18),
    .ldp 20 21 (.x 0) (8 * 20),
    .ldp 22 23 (.x 0) (8 * 22),
    .ldp 24 25 (.x 0) (8 * 24),
    .ldp 26 27 (.x 0) (8 * 26),
    .ldp 28 29 (.x 0) (8 * 28)]

/-- `restore_vm_regs`. -/
def restoreVmRegs : List Instr :=
  [.mrs 0 .tpidr,
    .ldp 30 1 (.x 0) (8 * 30),
    .ldr 2 (.x 0) (8 * 32),
    .msr .spsr 1,
    .msr .elr 2,
    .ldp 3 4 (.x 0) (8 * 0),
    .push 3 4] ++ restoreX2X29 ++ [.pop 0 1]

/-- `switch_out`. -/
def switchOut : List Instr := restoreVmRegs ++ [.eret]

/-- `el2_irq_proc`, called: what it leaves in the general registers is not fixed.  It keeps the
stack pointer and the system registers, and writes neither the bytes `R` nor the stack in use,
which ends at `top`. -/
structure IrqProc (R : Set ℕ) (top : ℕ) where
  run : Core → Core
  sp : ∀ s, (run s).sp = s.sp
  tpidr : ∀ s, (run s).tpidr = s.tpidr
  spsr : ∀ s, (run s).spsr = s.spsr
  elr : ∀ s, (run s).elr = s.elr
  mem : ∀ s y, y ∈ live R top s → (run s).mem y = s.mem y

variable {R : Set ℕ} {low top : ℕ}

/-- `vector_el2_irq`, up to its `eret`. -/
def vectorEl2Irq (proc : IrqProc R top) (s : Core) : Core :=
  execs (proc.run (execs s saveHypRegs)) restoreHypRegs

/-- An interrupt that comes while the core is in EL2. -/
def irqEl2 (proc : IrqProc R top) (vector : BitVec 64) : Core → Core :=
  interrupt vector (vectorEl2Irq proc)

/-! ## What arrives -/

/-- `vcpu->regs` of the virtual CPU at the address `a`. -/
def regsAt (m : Mem) (a : ℕ) : Regs where
  x j := BitVec.ofNat 64 (read64 m (a + 8 * j))
  spsr := BitVec.ofNat 64 (read64 m (a + 8 * 31))
  elr := BitVec.ofNat 64 (read64 m (a + 8 * 32))

/-- `PSTATE.M[4:2]`, the exception level in 64-bit state. -/
def level (pstate : BitVec 64) : BitVec 3 := pstate.extractLsb' 2 3

/-- The core is in EL1 with the registers `r`. -/
structure EntersGuest (r : Regs) (s : Core) : Prop where
  level : level s.pstate = 1
  pc : s.pc = r.elr
  pstate : s.pstate = r.spsr
  x : s.x = r.x

/-- The stack pointers with room for the frame of an interrupt above `low`. -/
def stack (low top : ℕ) : Set ℕ := {a | low + 256 ≤ a ∧ a ≤ top}

/-- A core in EL2 about to enter the guest: its virtual CPU is among the bytes `R`, the stack
is not, and has room. -/
structure Leaving (R : Set ℕ) (low top : ℕ) (s : Core) : Prop where
  level : level s.pstate = 2
  regs : block s.tpidr.toNat 264 ⊆ R
  room : low + 272 ≤ s.sp
  sp : s.sp ≤ top
  stack : ∀ y, low ≤ y → y < top → y ∉ R

/-! ## What the handler leaves -/

/-- The registers that are stored and loaded in pairs. -/
def pairsX : List (Fin 31 × Fin 31) :=
  [(0, 1), (2, 3), (4, 5), (6, 7), (8, 9), (10, 11), (12, 13), (14, 15), (16, 17), (18, 19),
    (20, 21), (22, 23), (24, 25), (26, 27), (28, 29)]

theorem adjacent_pairsX : Adjacent pairsX := by
  simp [Adjacent, pairsX]

/-- The general registers in the order in which the handler saves them. -/
def allX : List (Fin 31) := regs pairsX ++ [30]

theorem mem_allX (j : Fin 31) : j ∈ allX := by
  revert j
  decide

theorem saveHypRegs_eq : saveHypRegs =
    .subSp 256 ::
      (pairsX.map (fun p => .stp p.1 p.2 .sp (8 * p.1)) ++ [.str 30 .sp (8 * 30)]) :=
  rfl

theorem restoreHypRegs_eq : restoreHypRegs =
    pairsX.map (fun p => .ldp p.1 p.2 .sp (8 * p.1)) ++ [.ldr 30 .sp (8 * 30), .addSp 256] :=
  rfl

theorem restoreX2X29_eq :
    restoreX2X29 = pairsX.tail.map fun p => .ldp p.1 p.2 (.x 0) (8 * p.1) :=
  rfl

theorem saveHypRegs_spec (s : Core) : ∃ pc, execs s saveHypRegs =
    { s with sp := s.sp - 256, mem := spill (s.sp - 256) s.x allX s.mem, pc := pc } := by
  obtain ⟨pc, hpc⟩ := execs_stps adjacent_pairsX .sp (exec s (.subSp 256))
  refine ⟨pc + 4, ?_⟩
  rw [saveHypRegs_eq, execs_cons, execs_append, hpc, allX, spill_append]
  simp only [execs_cons, execs_nil, exec, Core.store, Core.next, Core.base, spill, List.foldl_cons,
    List.foldl_nil]
  rfl

theorem restoreHypRegs_spec (s : Core) : ∃ pc, execs s restoreHypRegs =
    { s with sp := s.sp + 256, x := fetch s.sp s.mem allX s.x, pc := pc } := by
  obtain ⟨pc, hpc⟩ := execs_ldps (b := .sp) adjacent_pairsX (by simp) s
  refine ⟨pc + 4 + 4, ?_⟩
  rw [restoreHypRegs_eq, execs_append, hpc, allX, fetch_append]
  generalize regs pairsX = l
  rfl

section

variable (proc : IrqProc R top) (vector : BitVec 64)

/-- The handler keeps the system registers. -/
theorem vectorEl2Irq_sysregs (s : Core) : (vectorEl2Irq proc s).tpidr = s.tpidr ∧
    (vectorEl2Irq proc s).spsr = s.spsr ∧ (vectorEl2Irq proc s).elr = s.elr := by
  obtain ⟨pc₁, hsave⟩ := saveHypRegs_spec s
  obtain ⟨pc₂, hrestore⟩ := restoreHypRegs_spec (proc.run (execs s saveHypRegs))
  rw [vectorEl2Irq, hrestore]
  refine ⟨?_, ?_, ?_⟩
  · rw [proc.tpidr, hsave]
  · rw [proc.spsr, hsave]
  · rw [proc.elr, hsave]

theorem vectorEl2Irq_sp {s : Core} (hs : s.sp ∈ stack low top) :
    (vectorEl2Irq proc s).sp = s.sp := by
  obtain ⟨pc₁, hsave⟩ := saveHypRegs_spec s
  obtain ⟨pc₂, hrestore⟩ := restoreHypRegs_spec (proc.run (execs s saveHypRegs))
  rw [vectorEl2Irq, hrestore, proc.sp, hsave]
  have hroom := hs.1
  simp only
  omega

/-- **The general registers** come back from the frame. -/
theorem vectorEl2Irq_x {s : Core} (hs : s.sp ∈ stack low top) : (vectorEl2Irq proc s).x = s.x := by
  obtain ⟨pc₁, hsave⟩ := saveHypRegs_spec s
  obtain ⟨pc₂, hrestore⟩ := restoreHypRegs_spec (proc.run (execs s saveHypRegs))
  rw [vectorEl2Irq, hrestore]
  funext j
  simp only [fetch_apply, mem_allX, if_true, proc.sp]
  have hframe : read64 (proc.run (execs s saveHypRegs)).mem ((execs s saveHypRegs).sp + 8 * j) =
      read64 (execs s saveHypRegs).mem ((execs s saveHypRegs).sp + 8 * j) := by
    refine readLe_congr fun y hy => proc.mem _ y (Or.inr ?_)
    rw [hsave] at hy ⊢
    have hj := j.isLt
    obtain ⟨hlow, hhigh⟩ := hs
    simp only [mem_block] at hy
    exact ⟨by simp only; omega, by omega⟩
  rw [hframe, hsave]
  simp only [read64_spill, mem_allX, if_true, BitVec.ofNat_toNat, BitVec.setWidth_eq]

/-- **The memory** that counts is not written. -/
theorem vectorEl2Irq_mem {s : Core} (hs : s.sp ∈ stack low top)
    (hR : ∀ y, low ≤ y → y < top → y ∉ R) {y : ℕ} (hy : y ∈ live R top s) :
    (vectorEl2Irq proc s).mem y = s.mem y := by
  obtain ⟨pc₁, hsave⟩ := saveHypRegs_spec s
  obtain ⟨pc₂, hrestore⟩ := restoreHypRegs_spec (proc.run (execs s saveHypRegs))
  obtain ⟨hlow, hhigh⟩ := hs
  have hlive : y ∈ live R top (execs s saveHypRegs) := by
    rw [hsave]
    exact hy.imp_right fun hstack => ⟨by have hle := hstack.1; simp only; omega, hstack.2⟩
  have hout : y ∉ block (s.sp - 256) 248 := by
    intro hframe
    simp only [mem_block] at hframe
    rcases hy with hy | hy
    · exact hR y (by omega) (by omega) hy
    · have hle := hy.1
      omega
  rw [vectorEl2Irq, hrestore]
  refine (proc.mem _ y hlive).trans ?_
  rw [hsave]
  exact eqOn_spill _ _ _ _ hout

/-- An interrupt that does not wait. -/
theorem irqEl2_taken {s : Core} (hs : ¬ Masked s.pstate) :
    irqEl2 proc vector s = exec (vectorEl2Irq proc (takeInterrupt vector s)) .eret := by
  rw [irqEl2, interrupt, if_neg hs]

theorem irqEl2_masked {s : Core} (hs : Masked s.pstate) : irqEl2 proc vector s = s := by
  rw [irqEl2, interrupt, if_pos hs]

/-- What an interrupt leaves in the registers it writes. -/
theorem returning_irqEl2 : Returning (irqEl2 proc vector) where
  masked s hs := irqEl2_masked proc vector hs
  pstate s := by
    by_cases hs : Masked s.pstate
    · rw [irqEl2_masked proc vector hs]
    · have hspsr := (vectorEl2Irq_sysregs proc (takeInterrupt vector s)).2.1
      rw [irqEl2_taken proc vector hs, exec_eret_pstate, hspsr]
      rfl
  spsr s hs := by
    have hspsr := (vectorEl2Irq_sysregs proc (takeInterrupt vector s)).2.1
    rw [irqEl2_taken proc vector hs, exec_eret_spsr, hspsr]
    rfl

/-- **An interrupt** leaves the core as it was, but for `elr`, `spsr` and the stack below. -/
theorem like_irqEl2 (hR : ∀ y, low ≤ y → y < top → y ∉ R) {s t : Core} (h : Like R top s t)
    (ht : t.sp ∈ stack low top) : Like R top (irqEl2 proc vector s) t := by
  have hs : s.sp ∈ stack low top := by rwa [h.sp]
  refine Like.trans ?_ h
  by_cases hm : Masked s.pstate
  · rw [irqEl2_masked proc vector hm]
    exact Like.refl R top s
  · have hstack : (takeInterrupt vector s).sp ∈ stack low top := hs
    obtain ⟨htpidr, hspsr, helr⟩ := vectorEl2Irq_sysregs proc (takeInterrupt vector s)
    rw [irqEl2_taken proc vector hm]
    exact Like.eret (vectorEl2Irq_x proc hstack) (vectorEl2Irq_sp proc hstack) helr hspsr htpidr
      fun y hy => vectorEl2Irq_mem proc hstack hR hy

end

/-! ## The way into the guest -/

/-- The words of `vcpu->regs`. -/
theorem block_regs {v off n : ℕ} (h : block v 264 ⊆ R) (hoff : off + n ≤ 264) {t : Core} :
    block (v + off) n ⊆ live R top t := by
  intro y hy
  refine Or.inl (h ?_)
  simp only [mem_block] at hy ⊢
  omega

/-- `restore_vm_regs` up to the loads of the registers 2 to 29. -/
def restoreHead : List Instr := restoreVmRegs.take 7

theorem restoreVmRegs_eq : restoreVmRegs = restoreHead ++ (restoreX2X29 ++ [.pop 0 1]) := by
  have hrest : restoreVmRegs.drop 7 = restoreX2X29 ++ [.pop 0 1] := by
    rw [restoreVmRegs, List.append_assoc]
    rfl
  rw [restoreHead, ← hrest, List.take_append_drop]

/-- What the head of `restore_vm_regs` leaves. -/
theorem restoreHead_spec (s : Core) :
    let t := execs s restoreHead
    let r := regsAt s.mem s.tpidr.toNat
    t.x 0 = s.tpidr ∧ t.x 30 = r.x 30 ∧ t.sp = s.sp - 16 ∧
      t.mem = write64 (write64 s.mem (s.sp - 16) (r.x 0).toNat) (s.sp - 16 + 8) (r.x 1).toNat :=
  ⟨rfl, rfl, rfl, rfl⟩

theorem adjacent_restored : Adjacent pairsX.tail :=
  fun p hp => adjacent_pairsX p (List.mem_of_mem_tail hp)

theorem mem_restored (j : Fin 31) : j = 0 ∨ j = 1 ∨ j = 30 ∨ j ∈ regs pairsX.tail := by
  revert j
  decide

theorem zero_notMem_restored : ∀ n, Base.x 0 = .x n → n ∉ regs pairsX.tail := by
  intro n hn
  cases hn
  decide

/-- **Without interrupts** the registers of the virtual CPU arrive. -/
theorem restoreVmRegs_x {s : Core} (hroom : 16 ≤ s.sp)
    (hstack : s.tpidr.toNat + 264 ≤ s.sp - 16 ∨ s.sp ≤ s.tpidr.toNat) :
    (execs s restoreVmRegs).x = (regsAt s.mem s.tpidr.toNat).x ∧
      (execs s restoreVmRegs).sp = s.sp := by
  obtain ⟨h0, h30, hsp, hmem⟩ := restoreHead_spec s
  obtain ⟨pc, hpc⟩ := execs_ldps adjacent_restored zero_notMem_restored (execs s restoreHead)
  rw [restoreVmRegs_eq, execs_append, execs_append, restoreX2X29_eq, hpc]
  generalize execs s restoreHead = t at h0 h30 hsp hmem
  have hbase : t.base (.x 0) = s.tpidr.toNat := by rw [Core.base, h0]
  -- the words of the virtual CPU are not where the first two were pushed
  have hword : ∀ j : Fin 31, read64 t.mem (s.tpidr.toNat + 8 * j) =
      read64 s.mem (s.tpidr.toNat + 8 * j) := by
    intro j
    have hj := j.isLt
    rw [hmem, read64_write64_of_disjoint _ (by omega), read64_write64_of_disjoint _ (by omega)]
  have hfst : read64 t.mem t.sp = ((regsAt s.mem s.tpidr.toNat).x 0).toNat := by
    rw [hmem, hsp, read64_write64_of_disjoint _ (by omega), read64_write64 _ _ (BitVec.isLt _)]
  have hsnd : read64 t.mem (t.sp + 8) = ((regsAt s.mem s.tpidr.toNat).x 1).toNat := by
    rw [hmem, hsp, read64_write64 _ _ (BitVec.isLt _)]
  constructor
  · funext j
    simp only [execs_cons, execs_nil, exec, Core.load, Core.setX, Core.next, hfst, hsnd,
      BitVec.ofNat_toNat, BitVec.setWidth_eq]
    by_cases h1 : j = 1
    · rw [h1, Function.update_self]
    rw [Function.update_of_ne h1]
    by_cases h0 : j = 0
    · rw [h0, Function.update_self]
    rw [Function.update_of_ne h0, fetch_apply, hbase, hword]
    split
    · rfl
    · rename_i hout
      have hlast := (((mem_restored j).resolve_left h0).resolve_left h1).resolve_right hout
      rw [hlast, h30]
  · simp only [execs_cons, execs_nil, exec]
    omega

/-- The virtual CPU is not on the stack. -/
theorem Leaving.apart {s : Core} (h : Leaving R low top s) :
    s.tpidr.toNat + 264 ≤ s.sp - 16 ∨ s.sp ≤ s.tpidr.toNat := by
  by_contra hover
  have hroom := h.room
  have htop := h.sp
  have hmem : max s.tpidr.toNat (s.sp - 16) ∈ block s.tpidr.toNat 264 := by
    simp only [mem_block]
    omega
  exact h.stack _ (by omega) (by omega) (h.regs hmem)

/-- `restore_vm_regs` reads the virtual CPU and its own part of the stack. -/
theorem safe_restoreVmRegs {s : Core} (h : Leaving R low top s) :
    Safe R top (stack low top) s restoreVmRegs := by
  obtain ⟨h0, -, hsp, -⟩ := restoreHead_spec s
  obtain ⟨-, hregs, hroom, htop, -⟩ := h
  have hin : s.sp ∈ stack low top := ⟨by omega, htop⟩
  have hin' : (execs s restoreHead).sp ∈ stack low top := by
    rw [hsp]
    exact ⟨by omega, by omega⟩
  obtain ⟨pc, hpc⟩ := execs_ldps adjacent_restored zero_notMem_restored (execs s restoreHead)
  rw [restoreVmRegs_eq, safe_append, safe_append, restoreX2X29_eq, hpc]
  refine ⟨?_, safe_ldps zero_notMem_restored hin' fun p hp => ?_, ?_⟩
  · exact ⟨hin, trivial, Set.empty_subset _, hin, trivial, block_regs hregs (by decide),
      hin, trivial, block_regs (n := 8) hregs (by decide), hin, trivial, Set.empty_subset _,
      hin, trivial, Set.empty_subset _, hin, trivial, block_regs hregs (by decide),
      hin, trivial, Set.empty_subset _, trivial⟩
  · intro y hy
    refine hregs ?_
    have hp' := p.2.isLt
    have hadj := adjacent_restored p hp
    simp only [Core.base, h0, mem_block] at hy ⊢
    omega
  · refine ⟨hin', trivial, fun y hy => Or.inr ?_, trivial⟩
    simp only [Instr.loads, hsp, mem_block] at hy
    exact ⟨by simp only [hsp]; omega, by omega⟩

/-- `restore_vm_regs` up to the write of `spsr_el2`. -/
def restoreSpsr : List Instr := restoreVmRegs.take 4

/-- `restore_vm_regs` after the write of `elr_el2`. -/
def restoreX : List Instr := restoreVmRegs.drop 5

theorem restoreVmRegs_split : restoreVmRegs = restoreSpsr ++ (.msr .elr 2 :: restoreX) := by
  have hrest : restoreVmRegs.drop 4 = .msr .elr 2 :: restoreVmRegs.drop 5 := by
    rw [restoreVmRegs, List.append_assoc]
    rfl
  rw [restoreSpsr, restoreX, ← hrest, List.take_append_drop]

theorem leaves_msr_elr : Instr.Leaves .spsr (.msr .elr 2) := by
  simp [Instr.Leaves]

theorem leaves_restoreX (r : Sysreg) : ∀ i ∈ restoreX, i.Leaves r := by
  simp [restoreX, restoreVmRegs, restoreX2X29, Instr.Leaves]

/-! ## With interrupts -/

section

variable (proc : IrqProc R top) (vector : BitVec 64)

/-- The words for `spsr_el2` and `elr_el2` are in the registers whatever came before. -/
theorem runWith_restoreSpsr {s t : Core} (h : Like R top s t) (ht : Leaving R low top t)
    (n : ℕ → ℕ) (k : ℕ) :
    let u := runWith (irqEl2 proc vector) n k s restoreSpsr
    u.pstate = t.pstate ∧ u.spsr = (regsAt t.mem t.tpidr.toNat).spsr ∧
      u.x 2 = (regsAt t.mem t.tpidr.toNat).elr := by
  have hsafe := safe_restoreVmRegs ht
  rw [restoreVmRegs_split, safe_append] at hsafe
  have hlike := Like.runWith (fun _ _ => like_irqEl2 proc vector ht.stack) n (k := k) h hsafe.1
  refine ⟨hlike.pstate, ?_, ?_⟩
  · -- the last instruction wrote it from a register
    have hlast : (runWith (irqEl2 proc vector) n k s restoreSpsr).spsr =
        (runWith (irqEl2 proc vector) n k s restoreSpsr).x 1 := rfl
    rw [hlast, hlike.x]
    rfl
  · rw [hlike.x]
    rfl

/-- What the `eret` finds when no interrupt is taken after the write of `spsr_el2`. -/
theorem runWith_restoreVmRegs {s t : Core} (h : Like R top s t) (ht : Leaving R low top t)
    {n : ℕ → ℕ} {k : ℕ} (hq : Masked t.pstate ∨ ∀ j < 18, n (k + 4 + j) = 0) :
    let w := runWith (irqEl2 proc vector) n k s restoreVmRegs
    w.spsr = (regsAt t.mem t.tpidr.toNat).spsr ∧ w.elr = (regsAt t.mem t.tpidr.toNat).elr := by
  obtain ⟨hpstate, hspsr, helr⟩ := runWith_restoreSpsr proc vector h ht n k
  rw [restoreVmRegs_split, runWith_append]
  generalize runWith (irqEl2 proc vector) n k s restoreSpsr = u at hpstate hspsr helr
  have hleaves : ∀ i ∈ Instr.msr .elr 2 :: restoreX, i.Leaves .spsr :=
    List.forall_mem_cons.mpr ⟨leaves_msr_elr, leaves_restoreX .spsr⟩
  have hquiet := (returning_irqEl2 proc vector).runWith_quiet (n := n) (k := k + 4) (s := u)
    hleaves (by rwa [hpstate])
  have hkept := fun r => (execs_leaves (leaves_restoreX r) (exec u (.msr .elr 2))).1
  refine ⟨?_, ?_⟩
  · rw [← hspsr]
    exact (congrArg Core.spsr hquiet).trans (hkept .spsr)
  · rw [← helr]
    exact (congrArg Core.elr hquiet).trans (hkept .elr)

/-- What the `eret` finds when one is. -/
theorem runWith_restoreVmRegs_taken {s t : Core} (h : Like R top s t) (ht : Leaving R low top t)
    {n : ℕ → ℕ} {k j : ℕ} (hm : ¬ Masked t.pstate) (hj : j < 18) (hn : n (k + 4 + j) ≠ 0) :
    (runWith (irqEl2 proc vector) n k s restoreVmRegs).spsr = t.pstate := by
  obtain ⟨hpstate, -, -⟩ := runWith_restoreSpsr proc vector h ht n k
  rw [restoreVmRegs_split, runWith_append]
  generalize runWith (irqEl2 proc vector) n k s restoreSpsr = u at hpstate
  rw [← hpstate] at hm ⊢
  exact (returning_irqEl2 proc vector).runWith_spsr
    (List.forall_mem_cons.mpr ⟨leaves_msr_elr, leaves_restoreX .spsr⟩) hm (Or.inr ⟨j, hj, hn⟩)

/-- **The way into the guest**, from a core that earlier interrupts left alike. -/
theorem entersGuest_iff {s t : Core} (h : Like R top s t) (ht : Leaving R low top t) (n : ℕ → ℕ)
    (k : ℕ) :
    EntersGuest (regsAt t.mem t.tpidr.toNat) (runWith (irqEl2 proc vector) n k s switchOut) ↔
      level (regsAt t.mem t.tpidr.toNat).spsr = 1 ∧
        (Masked t.pstate ∨ ∀ j, 4 ≤ j → j ≤ 22 → n (k + j) = 0) := by
  have hirq := returning_irqEl2 proc vector
  have hsame : ∀ s t, Like R top s t → t.sp ∈ stack low top → Like R top (irqEl2 proc vector s) t :=
    fun _ _ => like_irqEl2 proc vector ht.stack
  have hroom := ht.room
  obtain ⟨hx, hsp⟩ := restoreVmRegs_x (s := t) (by omega) ht.apart
  have hin : (execs t restoreVmRegs).sp ∈ stack low top := by
    rw [hsp]
    exact ⟨by omega, ht.sp⟩
  have hlike := Like.runWith hsame n (k := k) h (safe_restoreVmRegs ht)
  have hpstate : (runWith (irqEl2 proc vector) n k s restoreVmRegs).pstate = t.pstate := by
    rw [hlike.pstate]
    rfl
  have hlast := hlike.iterate hsame hin (n (k + 22))
  have hend : runWith (irqEl2 proc vector) n k s switchOut = exec ((irqEl2 proc vector)^[n (k + 22)]
      (runWith (irqEl2 proc vector) n k s restoreVmRegs)) .eret := by
    rw [switchOut, runWith_append]
    rfl
  rw [hend, exec_eret]
  by_cases hq : Masked t.pstate ∨ ∀ j, 4 ≤ j → j ≤ 22 → n (k + j) = 0
  · obtain ⟨hspsr, helr⟩ := runWith_restoreVmRegs proc vector h ht (n := n) (k := k)
      (hq.imp_right fun hn j hj => by rw [Nat.add_assoc]; exact hn _ (by omega) (by omega))
    have hnone : (irqEl2 proc vector)^[n (k + 22)]
        (runWith (irqEl2 proc vector) n k s restoreVmRegs) =
          runWith (irqEl2 proc vector) n k s restoreVmRegs := by
      rcases hq with hm | hn
      · exact hirq.iterate_masked (hpstate ▸ hm) _
      · rw [hn 22 (by decide) le_rfl]
        rfl
    rw [hnone] at hlast ⊢
    constructor
    · intro henters
      exact ⟨hspsr ▸ henters.level, hq⟩
    · intro hlevel
      exact ⟨hspsr ▸ hlevel.1, helr, hspsr, hlast.x.trans hx⟩
  · -- an interrupt left the state of EL2 for the `eret`
    obtain ⟨hm, hn⟩ := not_or.mp hq
    push Not at hn
    obtain ⟨j, hlow, hhigh, hj⟩ := hn
    have hspsr : ((irqEl2 proc vector)^[n (k + 22)]
        (runWith (irqEl2 proc vector) n k s restoreVmRegs)).spsr = t.pstate := by
      by_cases h22 : n (k + 22) = 0
      · rw [h22]
        have hne : j ≠ 22 := fun heq => hj (heq ▸ h22)
        refine runWith_restoreVmRegs_taken proc vector h ht hm (j := j - 4) (by omega) ?_
        rwa [Nat.add_assoc, Nat.add_sub_cancel' hlow]
      · rw [hirq.iterate_spsr (hpstate ▸ hm) h22, hpstate]
    constructor
    · intro henters
      have hlevel := henters.level
      rw [hspsr, ht.level] at hlevel
      exact absurd hlevel (by decide)
    · exact fun hlevel => absurd hlevel.2 hq

/-- **What the guest is entered with**: the registers of its virtual CPU if and only if no
interrupt comes between the write of `spsr_el2` and the `eret`, wherever others came, in
`switch_out` or in the code before it. -/
theorem guest_entry_survives {s : Core} {code : List Instr}
    (hcode : Safe R top (stack low top) s code) (hout : Leaving R low top (execs s code))
    (n : ℕ → ℕ) :
    let t := execs s code
    EntersGuest (regsAt t.mem t.tpidr.toNat)
        (runWith (irqEl2 proc vector) n 0 s (code ++ switchOut)) ↔
      level (regsAt t.mem t.tpidr.toNat).spsr = 1 ∧
        (Masked t.pstate ∨ ∀ j, 4 ≤ j → j ≤ 22 → n (code.length + j) = 0) := by
  intro t
  have hlike : Like R top (runWith (irqEl2 proc vector) n 0 s code) t :=
    Like.runWith (fun _ _ => like_irqEl2 proc vector hout.stack) n (Like.refl R top s) hcode
  rw [runWith_append, Nat.zero_add]
  exact entersGuest_iff proc vector hlike hout n code.length

end

/-- A core before `switch_out`, whose virtual CPU at `0x1000` is to start in EL1. -/
def leavingCore : Core where
  x _ := 0
  sp := 0x9000
  pc := 0x80400
  pstate := modeH
  tpidr := 0x1000
  spsr := 0
  elr := 0
  mem := write64 (fun _ => 0) (0x1000 + 8 * 31) 0x3c5

/-- A handler that leaves everything. -/
def idleProc (R : Set ℕ) (top : ℕ) : IrqProc R top where
  run := id
  sp _ := rfl
  tpidr _ := rfl
  spsr _ := rfl
  elr _ := rfl
  mem _ _ _ := rfl

theorem leaving_leavingCore : Leaving (block 0x1000 264) 0x8000 0x9000 leavingCore where
  level := by decide
  regs := fun _ hy => hy
  room := by decide
  sp := le_rfl
  stack y hlow _ hy := by
    have hhigh : y < 0x1000 + 264 := hy.2
    omega

theorem level_leavingCore :
    level (regsAt leavingCore.mem leavingCore.tpidr.toNat).spsr = 1 := by
  have hword : read64 leavingCore.mem (0x1000 + 8 * 31) = 0x3c5 :=
    read64_write64 _ _ (by decide)
  have htpidr : leavingCore.tpidr.toNat = 0x1000 := rfl
  rw [regsAt, htpidr, hword]
  decide

/-- Two interrupts before each of the first four instructions do no harm. -/
theorem guest_entry_survives_early :
    EntersGuest (regsAt leavingCore.mem leavingCore.tpidr.toNat)
      (runWith (irqEl2 (idleProc (block 0x1000 264) 0x9000) 0x80280)
        (fun k => if k < 4 then 2 else 0) 0 leavingCore ([] ++ switchOut)) := by
  have hcode : Safe (block 0x1000 264) 0x9000 (stack 0x8000 0x9000) leavingCore [] := trivial
  refine (guest_entry_survives _ _ hcode leaving_leavingCore _).mpr ⟨level_leavingCore, ?_⟩
  exact Or.inr fun j hj _ => if_neg (by simpa using hj)

/-- One interrupt before the `eret` keeps the core in EL2. -/
theorem guest_entry_lost :
    ¬ EntersGuest (regsAt leavingCore.mem leavingCore.tpidr.toNat)
      (runWith (irqEl2 (idleProc (block 0x1000 264) 0x9000) 0x80280)
        (fun k => if k = 22 then 1 else 0) 0 leavingCore switchOut) := by
  intro henters
  rw [entersGuest_iff _ _ (Like.refl _ _ _) leaving_leavingCore] at henters
  rcases henters.2 with hm | hn
  · exact absurd hm (by decide)
  · exact absurd (hn 22 (by decide) le_rfl) (by decide)

end Xhyper
