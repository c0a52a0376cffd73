import Xhyper.Vector

/-!
# The registers of a guest in an exception

An exception from the guest saves its registers in `vcpu->regs`, calls a function, and restores
them.  The scratch registers of the two halves are registers of the guest themselves, and `x0` and
`x1` go over the stack.

## Main definitions

* `saveVmRegs`, `vectorEl1` — an exception of the guest.
* `Saves`, `Restores`, `Resumes` — the registers are in `vcpu->regs`, and back.
* `guest_context_exact` — the guest goes on with what is in `vcpu->regs`.
-/

namespace Xhyper

open Memory A64

/-! ## The code -/

/-- The stores of `save_vm_regs` of the registers 2 to 29. -/
def saveX2X29 : List Instr :=
  [.stp 2 3 (.x 0) (8 * 2),
    .stp 4 5 (.x 0) (8 * 4),
    .stp 6 7 (.x 0) (8 * 6),
    .stp 8 9 (.x 0) (8 * 8),
    .stp 10 11 (.x 0) (8 * 10),
    .stp 12 13 (.x 0) (8 * 12),
    .stp 14 15 (.x 0) (8 * 14),
    .stp 16 17 (.x 0) (8 * 16),
    .stp 18 19 (.x 0) (8 * 18),
    .stp 20 21 (.x 0) (8 * 20),
    .stp 22 23 (.x 0) (8 * 22),
    .stp 24 25 (.x 0) (8 * 24),
    .stp 26 27 (.x 0) (8 * 26),
    .stp 28 29 (.x 0) (8 * 28)]

/-- The end of `save_vm_regs`. -/
def saveTail : List Instr :=
  [.mrs 1 .spsr,
    .mrs 2 .elr,
    .pop 3 4,
    .stp 30 1 (.x 0) (8 * 30),
    .str 2 (.x 0) (8 * 32),
    .stp 3 4 (.x 0) (8 * 0)]

/-- `save_vm_regs`. -/
def saveVmRegs : List Instr := [.push 0 1, .mrs 0 .tpidr] ++ saveX2X29 ++ saveTail

/-- `el1_sync_proc` or `el1_irq_proc`, called: what it leaves in the other registers and in memory
is not fixed. -/
structure El1Proc where
  run : Core → Core
  sp : ∀ s, (run s).sp = s.sp
  tpidr : ∀ s, (run s).tpidr = s.tpidr

/-- `vector_el1_sync` and `vector_el1_irq`. -/
def vectorEl1 (proc : El1Proc) (s : Core) : Core :=
  exec (execs (proc.run (execs s saveVmRegs)) restoreVmRegs) .eret

/-! ## What they are to do -/

/-- There is room for two words on the stack, apart from `vcpu->regs`. -/
structure StackApart (s : Core) : Prop where
  room : 16 ≤ s.sp
  apart : s.tpidr.toNat + 264 ≤ s.sp - 16 ∨ s.sp ≤ s.tpidr.toNat

/-- The registers are in `vcpu->regs`. -/
structure Saves (s t : Core) : Prop where
  regs : regsAt t.mem s.tpidr.toNat = ⟨s.x, s.spsr, s.elr⟩
  sp : t.sp = s.sp
  tpidr : t.tpidr = s.tpidr

/-- The registers are those in `vcpu->regs`, which is as it was. -/
structure Restores (s t : Core) : Prop where
  regs : ⟨t.x, t.spsr, t.elr⟩ = regsAt s.mem s.tpidr.toNat
  kept : regsAt t.mem s.tpidr.toNat = regsAt s.mem s.tpidr.toNat
  sp : t.sp = s.sp

/-- The guest goes on with the registers `r`. -/
structure Resumes (r : Regs) (t : Core) : Prop where
  x : t.x = r.x
  pc : t.pc = r.elr
  pstate : t.pstate = r.spsr

/-! ## Saving -/

section
variable {s : Core}

theorem saveX2X29_eq :
    saveX2X29 = pairsX.tail.map fun p => .stp p.1 p.2 (.x 0) (8 * p.1) :=
  rfl

/-- Where the words of `vcpu->regs` are. -/
theorem regsAt_eq {m : Mem} {a : ℕ} {r : Regs}
    (hx : ∀ j : Fin 31, read64 m (a + 8 * j) = (r.x j).toNat)
    (hspsr : read64 m (a + 8 * 31) = r.spsr.toNat) (helr : read64 m (a + 8 * 32) = r.elr.toNat) :
    regsAt m a = r := by
  have hall : (regsAt m a).x = r.x := by
    ext1 j
    simp [regsAt, hx]
  obtain ⟨x, spsr, elr⟩ := r
  obtain rfl : (regsAt m a).x = x := hall
  simp [regsAt, hspsr, helr]

/-- What the start of `save_vm_regs` leaves. -/
theorem saveHead_spec (s : Core) :
    let t := execs s [.push 0 1, .mrs 0 .tpidr]
    t.x = Function.update s.x 0 s.tpidr ∧ t.sp = s.sp - 16 ∧
      t.mem = write64 (write64 s.mem (s.sp - 16) (s.x 0).toNat) (s.sp - 16 + 8) (s.x 1).toNat :=
  ⟨rfl, rfl, rfl⟩

/-- What its end stores: the registers 30, 0 and 1, and the two system registers. -/
theorem saveTail_spec (t : Core) :
    let a := (t.x 0).toNat
    let m₁ := write64 t.mem (a + 8 * 30) (t.x 30).toNat
    let m₂ := write64 m₁ (a + 8 * 31) t.spsr.toNat
    let m₃ := write64 m₂ (a + 8 * 32) t.elr.toNat
    let m₄ := write64 m₃ (a + 8 * 0) (BitVec.ofNat 64 (read64 t.mem t.sp)).toNat
    (execs t saveTail).sp = t.sp + 16 ∧
      (execs t saveTail).mem =
        write64 m₄ (a + 8 * 1) (BitVec.ofNat 64 (read64 t.mem (t.sp + 8))).toNat :=
  ⟨rfl, rfl⟩

/-- The stores to `vcpu->regs` leave the two words on the stack alone. -/
theorem stackWord_kept (h : StackApart s) {x : Fin 31 → BitVec 64} {l : List (Fin 31)} {m : Mem}
    {i : ℕ} (hi : i + 8 ≤ 16) :
    read64 (spill s.tpidr.toNat x l m) (s.sp - 16 + i) = read64 m (s.sp - 16 + i) := by
  refine readLe_congr fun y hy => eqOn_spill _ _ _ _ fun hin => ?_
  have hroom := h.room
  have hapart := h.apart
  simp only [mem_block] at hy hin
  omega

/-- A word of an array. -/
theorem read64_word {m : Mem} {a i k : ℕ} {v : BitVec 64} :
    read64 (write64 m (a + 8 * i) v.toNat) (a + 8 * k) =
      if k = i then v.toNat else read64 m (a + 8 * k) := by
  by_cases hk : k = i
  · subst hk
    rw [if_pos rfl, read64_write64 _ _ v.isLt]
  · rw [if_neg hk, read64_write64_of_disjoint _ (by omega)]

theorem restored_lt : ∀ j ∈ regs pairsX.tail, 1 < j.val ∧ j.val < 30 := by decide

/-- The registers 2 to 29 are in `vcpu->regs`, and `x0` and `x1` on the stack. -/
structure HalfSaved (s u : Core) : Prop where
  x : u.x = Function.update s.x 0 s.tpidr
  sp : u.sp = s.sp - 16
  spsr : u.spsr = s.spsr
  elr : u.elr = s.elr
  tpidr : u.tpidr = s.tpidr
  fst : read64 u.mem u.sp = (s.x 0).toNat
  snd : read64 u.mem (u.sp + 8) = (s.x 1).toNat
  words : ∀ j ∈ regs pairsX.tail, read64 u.mem (s.tpidr.toNat + 8 * j) = (s.x j).toNat

/-- `save_vm_regs` up to its end. -/
theorem saveX2X29_saves (h : StackApart s) :
    HalfSaved s (execs s ([.push 0 1, .mrs 0 .tpidr] ++ saveX2X29)) := by
  obtain ⟨hx, hsp, hmem⟩ := saveHead_spec s
  obtain ⟨pc, hpc⟩ := execs_stps adjacent_restored (.x 0) (execs s [.push 0 1, .mrs 0 .tpidr])
  have hsysreg : ∀ r, (execs s [.push 0 1, .mrs 0 .tpidr]).sysreg r = s.sysreg r :=
    fun r => (execs_leaves (by simp [Instr.Leaves]) s).1
  rw [execs_append, saveX2X29_eq, hpc]
  generalize execs s [.push 0 1, .mrs 0 .tpidr] = t at *
  have hbase : t.base (.x 0) = s.tpidr.toNat := by rw [Core.base, hx, Function.update_self]
  rw [hbase]
  have hstack : ∀ i, i + 8 ≤ 16 →
      read64 (spill s.tpidr.toNat t.x (regs pairsX.tail) t.mem) (s.sp - 16 + i) =
        read64 t.mem (s.sp - 16 + i) := fun i hi => stackWord_kept h hi
  constructor
  · exact hx
  · exact hsp
  · exact hsysreg .spsr
  · exact hsysreg .elr
  · exact hsysreg .tpidr
  · change read64 _ t.sp = _
    rw [hsp]
    refine (hstack 0 (by decide)).trans ?_
    rw [hmem, read64_write64_of_disjoint _ (by omega)]
    exact read64_write64 _ _ (s.x 0).isLt
  · change read64 _ (t.sp + 8) = _
    rw [hsp, hstack 8 (by decide), hmem, read64_write64 _ _ (s.x 1).isLt]
  · intro j hj
    have hne : j ≠ 0 := fun h0 => zero_notMem_restored 0 rfl (h0 ▸ hj)
    rw [read64_spill, if_pos hj, hx, Function.update_of_ne hne]

/-- **`save_vm_regs`** saves the registers. -/
theorem saveVmRegs_saves (h : StackApart s) : Saves s (execs s saveVmRegs) := by
  have H := saveX2X29_saves h
  rw [saveVmRegs, execs_append]
  generalize execs s ([.push 0 1, .mrs 0 .tpidr] ++ saveX2X29) = u at H
  obtain ⟨hsp, hmem⟩ := saveTail_spec u
  have htpidr : (execs u saveTail).tpidr = u.tpidr := rfl
  have h0 : u.x 0 = s.tpidr := by rw [H.x, Function.update_self]
  have h30 : u.x 30 = s.x 30 := by rw [H.x, Function.update_of_ne (by decide)]
  rw [h0, h30, H.spsr, H.elr, H.fst, H.snd] at hmem
  simp only [BitVec.ofNat_toNat, BitVec.setWidth_eq] at hmem
  have hroom := h.room
  refine ⟨?_, ?_, htpidr.trans H.tpidr⟩
  · rw [hmem]
    have hwords := H.words
    generalize s.tpidr.toNat = a at hwords
    -- the words are stored after each other, none over another
    refine regsAt_eq (fun j => ?_) ?_ ?_ <;>
      rw [read64_word, read64_word, read64_word, read64_word, read64_word]
    · rcases mem_restored j with rfl | rfl | rfl | hj
      · simp
      · simp
      · simp
      · obtain ⟨hlo, hhi⟩ := restored_lt j hj
        have hne : j.val ≠ 0 ∧ j.val ≠ 1 ∧ j.val ≠ 30 ∧ j.val ≠ 31 ∧ j.val ≠ 32 := by omega
        simp [hne, hwords j hj]
    · simp
    · simp
  · rw [hsp, H.sp]
    omega

/-! ## Restoring -/

/-- Bytes outside of `vcpu->regs` do not matter for its words. -/
theorem regsAt_congr {m m' : Mem} {a : ℕ} (h : Set.EqOn m' m (block a 264)) :
    regsAt m' a = regsAt m a := by
  have hword : ∀ k, k < 33 → read64 m' (a + 8 * k) = read64 m (a + 8 * k) := by
    intro k hk
    exact readLe_congr (h.mono (block_subset (Nat.le_add_right a _) (by omega)))
  simp only [regsAt, hword 31 (by decide), hword 32 (by decide), Regs.mk.injEq, and_self, and_true]
  ext1 j
  rw [hword j (by omega)]

/-- `restore_vm_regs` writes two words on the stack. -/
theorem restoreVmRegs_mem (s : Core) : Set.EqOn (execs s restoreVmRegs).mem s.mem
    (block (s.sp - 16) 16)ᶜ := by
  obtain ⟨-, -, -, hmem⟩ := restoreHead_spec s
  obtain ⟨pc, hpc⟩ := execs_ldps adjacent_restored zero_notMem_restored (execs s restoreHead)
  have hlast : (execs s restoreVmRegs).mem = (execs s restoreHead).mem := by
    rw [restoreVmRegs_eq, execs_append, execs_append, restoreX2X29_eq, hpc]
    rfl
  intro y hy
  rw [hlast, hmem]
  simp only [Set.mem_compl_iff, mem_block] at hy
  rw [write64, writeLe_of_notMem, write64, writeLe_of_notMem] <;>
  · simp only [mem_block]
    omega

/-- It loads the two system registers. -/
theorem restoreVmRegs_sysregs (s : Core) :
    (execs s restoreVmRegs).spsr = (regsAt s.mem s.tpidr.toNat).spsr ∧
      (execs s restoreVmRegs).elr = (regsAt s.mem s.tpidr.toNat).elr := by
  have hkept := fun r u => (execs_leaves (leaves_restoreX r) (exec u (.msr .elr 2))).1
  rw [restoreVmRegs_split, execs_append, execs_cons]
  constructor
  · exact (hkept .spsr _).trans rfl
  · exact (hkept .elr _).trans rfl

/-- **`restore_vm_regs`** restores the registers. -/
theorem restoreVmRegs_restores (h : StackApart s) : Restores s (execs s restoreVmRegs) := by
  obtain ⟨hx, hsp⟩ := restoreVmRegs_x h.room h.apart
  obtain ⟨hspsr, helr⟩ := restoreVmRegs_sysregs s
  refine ⟨?_, regsAt_congr fun y hy => restoreVmRegs_mem s ?_, hsp⟩
  · rw [hx, hspsr, helr]
  · have hapart := h.apart
    have hroom := h.room
    simp only [Set.mem_compl_iff, mem_block] at hy ⊢
    omega

/-! ## An exception -/

/-- **The guest's registers in an exception** are saved and restored exactly, for every content of
the registers and of `vcpu->regs`.  So the guest goes on with what the function has made of
`vcpu->regs`, and as it was when that is nothing. -/
theorem guest_context_exact (h : StackApart s) :
    Saves s (execs s saveVmRegs) ∧ Restores s (execs s restoreVmRegs) ∧
    ∀ (proc : El1Proc) (f : Regs → Regs),
      regsAt (proc.run (execs s saveVmRegs)).mem s.tpidr.toNat =
        f (regsAt (execs s saveVmRegs).mem s.tpidr.toNat) →
      Resumes (f ⟨s.x, s.spsr, s.elr⟩) (vectorEl1 proc s) ∧ (vectorEl1 proc s).sp = s.sp := by
  have S := saveVmRegs_saves h
  refine ⟨S, restoreVmRegs_restores h, fun proc f hf => ?_⟩
  have hsp : (proc.run (execs s saveVmRegs)).sp = s.sp := (proc.sp _).trans S.sp
  have htpidr : (proc.run (execs s saveVmRegs)).tpidr = s.tpidr := (proc.tpidr _).trans S.tpidr
  have happart : StackApart (proc.run (execs s saveVmRegs)) :=
    ⟨hsp ▸ h.room, by rw [hsp, htpidr]; exact h.apart⟩
  have R := restoreVmRegs_restores happart
  have hregs := R.regs
  rw [htpidr, hf, S.regs] at hregs
  rw [vectorEl1, exec_eret, ← hregs]
  exact ⟨⟨rfl, rfl, rfl⟩, R.sp.trans hsp⟩

end

/-- A function that does nothing. -/
def idleEl1Proc : El1Proc where
  run core := core
  sp _ := rfl
  tpidr _ := rfl

theorem idleEl1Proc_run (s : Core) : idleEl1Proc.run s = s := rfl

/-- A core that has taken an exception of a guest, whose virtual CPU is below the stack. -/
def trapCore : Core where
  x j := BitVec.ofNat 64 j.val
  sp := 0x2000
  pc := 0x400
  pstate := 0x3c9
  tpidr := 0x1000
  spsr := 0x3c5
  elr := 0x40000000
  mem := fun _ => 0

/-- Its guest goes on as it was. -/
theorem guest_context_exact_idle :
    Resumes ⟨trapCore.x, trapCore.spsr, trapCore.elr⟩ (vectorEl1 idleEl1Proc trapCore) := by
  have happart : StackApart trapCore := ⟨by decide, by decide⟩
  generalize trapCore = s at happart ⊢
  refine ((guest_context_exact happart).2.2 idleEl1Proc (fun r => r) ?_).1
  rw [idleEl1Proc_run]

end Xhyper
