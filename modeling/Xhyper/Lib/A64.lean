import Xhyper.Lib.Memory
import Mathlib.Data.Fin.Basic
import Mathlib.Data.List.FinRange
import Mathlib.Logic.Function.Iterate

/-!
# A few instructions of a 64-bit machine, with interrupts between them

The instructions that exception vectors are made of: moves from and to system registers,
loads and stores of one register or a pair, and the exception return.  A core at the higher
exception level may be interrupted before each of them; the interrupt writes the address and
the processor state over `elr` and `spsr`, and its handler returns through them.

`Like` compares two cores that differ in what an interrupt leaves behind: `elr`, `spsr` and the
memory that is neither of interest nor on the stack.  Code that does not read these runs alike
with interrupts and without (`Like.runWith`).

## Main definitions

* `Core`, `Instr`, `exec`, `execs` — the machine.
* `spill`, `fetch` — what runs of stores and loads do.
* `interrupt`, `runWith` — interrupts at the boundaries of instructions.
* `Returning` — what an interrupt leaves in `spsr`, and where it is seen.
* `Like`, `Plain`, `Safe` — code that interrupts do not disturb.
-/

namespace A64

open Memory

/-! ## The machine -/

/-- The system registers that the vectors move. -/
inductive Sysreg
  | tpidr
  | spsr
  | elr
  deriving DecidableEq, Repr

/-- What the instructions work on. -/
structure Core where
  x : Fin 31 → BitVec 64
  sp : ℕ
  pc : BitVec 64
  pstate : BitVec 64
  tpidr : BitVec 64
  spsr : BitVec 64
  elr : BitVec 64
  mem : Mem

/-- The register an address is counted from. -/
inductive Base
  | sp
  | x (n : Fin 31)
  deriving DecidableEq, Repr

/-- An instruction. -/
inductive Instr
  | mrs (t : Fin 31) (r : Sysreg)
  | msr (r : Sysreg) (t : Fin 31)
  /-- `ldr t, [b, #off]` -/
  | ldr (t : Fin 31) (b : Base) (off : ℕ)
  /-- `str t, [b, #off]` -/
  | str (t : Fin 31) (b : Base) (off : ℕ)
  /-- `ldp t, u, [b, #off]` -/
  | ldp (t u : Fin 31) (b : Base) (off : ℕ)
  /-- `stp t, u, [b, #off]` -/
  | stp (t u : Fin 31) (b : Base) (off : ℕ)
  /-- `stp t, u, [sp, #-16]!` -/
  | push (t u : Fin 31)
  /-- `ldp t, u, [sp], #16` -/
  | pop (t u : Fin 31)
  /-- `sub sp, sp, #n` -/
  | subSp (n : ℕ)
  /-- `add sp, sp, #n` -/
  | addSp (n : ℕ)
  | eret
  deriving DecidableEq, Repr

namespace Core

/-- The value of a base register. -/
def base (s : Core) : Base → ℕ
  | .sp => s.sp
  | .x n => (s.x n).toNat

/-- Set a register. -/
def setX (s : Core) (t : Fin 31) (v : BitVec 64) : Core :=
  { s with x := Function.update s.x t v }

/-- Load a register from the address `a`. -/
def load (s : Core) (t : Fin 31) (a : ℕ) : Core := s.setX t (BitVec.ofNat 64 (read64 s.mem a))

/-- Store a register at the address `a`. -/
def store (s : Core) (t : Fin 31) (a : ℕ) : Core :=
  { s with mem := write64 s.mem a (s.x t).toNat }

/-- Go to the next instruction. -/
def next (s : Core) : Core := { s with pc := s.pc + 4 }

/-- Read a system register. -/
def sysreg (s : Core) : Sysreg → BitVec 64
  | .tpidr => s.tpidr
  | .spsr => s.spsr
  | .elr => s.elr

/-- Write a system register. -/
def setSysreg (s : Core) (r : Sysreg) (v : BitVec 64) : Core :=
  match r with
  | .tpidr => { s with tpidr := v }
  | .spsr => { s with spsr := v }
  | .elr => { s with elr := v }

end Core

/-- **One instruction.** -/
def exec (s : Core) : Instr → Core
  | .mrs t r => (s.setX t (s.sysreg r)).next
  | .msr r t => (s.setSysreg r (s.x t)).next
  | .ldr t b off => (s.load t (s.base b + off)).next
  | .str t b off => (s.store t (s.base b + off)).next
  | .ldp t u b off => ((s.load t (s.base b + off)).load u (s.base b + off + 8)).next
  | .stp t u b off => ((s.store t (s.base b + off)).store u (s.base b + off + 8)).next
  | .push t u =>
      let a := s.sp - 16
      { ((s.store t a).store u (a + 8)).next with sp := a }
  | .pop t u => { ((s.load t s.sp).load u (s.sp + 8)).next with sp := s.sp + 16 }
  | .subSp n => { s.next with sp := s.sp - n }
  | .addSp n => { s.next with sp := s.sp + n }
  | .eret => { s with pc := s.elr, pstate := s.spsr }

theorem exec_eret (s : Core) : exec s .eret = { s with pc := s.elr, pstate := s.spsr } := rfl

theorem exec_eret_pstate (s : Core) : (exec s .eret).pstate = s.spsr := rfl

theorem exec_eret_spsr (s : Core) : (exec s .eret).spsr = s.spsr := rfl

/-- Some instructions, one after the other. -/
def execs (s : Core) (is : List Instr) : Core := is.foldl exec s

@[simp] theorem execs_nil (s : Core) : execs s [] = s := rfl

@[simp] theorem execs_cons (s : Core) (i : Instr) (is : List Instr) :
    execs s (i :: is) = execs (exec s i) is := rfl

namespace Core

variable (s : Core) (t : Fin 31) (v : BitVec 64) (a : ℕ) (r : Sysreg)

@[simp] theorem sysreg_setX : (s.setX t v).sysreg r = s.sysreg r := by cases r <;> rfl
@[simp] theorem sysreg_load : (s.load t a).sysreg r = s.sysreg r := sysreg_setX s t _ r
@[simp] theorem sysreg_store : (s.store t a).sysreg r = s.sysreg r := by cases r <;> rfl
@[simp] theorem sysreg_next : s.next.sysreg r = s.sysreg r := by cases r <;> rfl
@[simp] theorem sysreg_sp : { s with sp := a }.sysreg r = s.sysreg r := by cases r <;> rfl
@[simp] theorem pstate_setX : (s.setX t v).pstate = s.pstate := rfl
@[simp] theorem pstate_load : (s.load t a).pstate = s.pstate := rfl
@[simp] theorem pstate_store : (s.store t a).pstate = s.pstate := rfl
@[simp] theorem pstate_next : s.next.pstate = s.pstate := rfl
@[simp] theorem pstate_setSysreg : (s.setSysreg r v).pstate = s.pstate := by cases r <;> rfl

theorem sysreg_setSysreg {q : Sysreg} (h : q ≠ r) :
    (s.setSysreg q v).sysreg r = s.sysreg r := by
  cases q <;> cases r <;> first | exact absurd rfl h | rfl

end Core

/-- An instruction that leaves a system register and the processor state. -/
def Instr.Leaves (r : Sysreg) : Instr → Prop
  | .msr q _ => q ≠ r
  | .eret => False
  | _ => True

theorem exec_leaves {s : Core} {i : Instr} {r : Sysreg} (h : i.Leaves r) :
    (exec s i).sysreg r = s.sysreg r ∧ (exec s i).pstate = s.pstate := by
  cases i with
  | msr q t =>
      have hreg := s.sysreg_setSysreg (s.x t) r h
      simp [exec, hreg]
  | eret => exact h.elim
  | push t u => exact ⟨(Core.sysreg_sp _ _ _).trans (by simp), rfl⟩
  | pop t u => exact ⟨(Core.sysreg_sp _ _ _).trans (by simp), rfl⟩
  | subSp n => exact ⟨(Core.sysreg_sp _ _ _).trans (by simp), rfl⟩
  | addSp n => exact ⟨(Core.sysreg_sp _ _ _).trans (by simp), rfl⟩
  | _ => simp [exec]

theorem execs_leaves {is : List Instr} {r : Sysreg} (h : ∀ i ∈ is, i.Leaves r) (s : Core) :
    (execs s is).sysreg r = s.sysreg r ∧ (execs s is).pstate = s.pstate := by
  induction is generalizing s with
  | nil => exact ⟨rfl, rfl⟩
  | cons i is ih =>
      have hi := exec_leaves (s := s) (h i List.mem_cons_self)
      have hrest := ih (fun j hj => h j (List.mem_cons_of_mem i hj)) (exec s i)
      exact ⟨hrest.1.trans hi.1, hrest.2.trans hi.2⟩

theorem execs_append (s : Core) (is js : List Instr) :
    execs s (is ++ js) = execs (execs s is) js :=
  List.foldl_append

/-! ## Runs of stores and loads -/

/-- Store each register of `l` at its place in an array at `a`. -/
def spill (a : ℕ) (x : Fin 31 → BitVec 64) (l : List (Fin 31)) (m : Mem) : Mem :=
  l.foldl (fun m (j : Fin 31) => write64 m (a + 8 * j) (x j).toNat) m

/-- Load each register of `l` from its place in an array at `a`. -/
def fetch (a : ℕ) (m : Mem) (l : List (Fin 31)) (x : Fin 31 → BitVec 64) : Fin 31 → BitVec 64 :=
  l.foldl (fun x (j : Fin 31) => Function.update x j (BitVec.ofNat 64 (read64 m (a + 8 * j)))) x

theorem spill_append (a : ℕ) (x : Fin 31 → BitVec 64) (l l' : List (Fin 31)) (m : Mem) :
    spill a x (l ++ l') m = spill a x l' (spill a x l m) :=
  List.foldl_append

theorem fetch_append (a : ℕ) (m : Mem) (l l' : List (Fin 31)) (x : Fin 31 → BitVec 64) :
    fetch a m (l ++ l') x = fetch a m l' (fetch a m l x) :=
  List.foldl_append

/-- A register that was stored is at its place; the other places are as they were. -/
theorem read64_spill (a : ℕ) (x : Fin 31 → BitVec 64) (l : List (Fin 31)) (m : Mem) (j : Fin 31) :
    read64 (spill a x l m) (a + 8 * j) = if j ∈ l then (x j).toNat else read64 m (a + 8 * j) := by
  induction l generalizing m with
  | nil => rfl
  | cons i l ih =>
      rw [spill, List.foldl_cons, ← spill, ih]
      by_cases hl : j ∈ l
      · simp [hl]
      by_cases hij : j = i
      · subst hij
        simp only [hl, if_false, List.mem_cons_self, if_true]
        exact read64_write64 m _ (x j).isLt
      · simp only [hl, if_false, List.mem_cons, hij, or_self]
        have hne : (j : ℕ) ≠ i := fun h => hij (Fin.ext h)
        exact read64_write64_of_disjoint m (by omega)

/-- The stores stay inside the array. -/
theorem eqOn_spill (a : ℕ) (x : Fin 31 → BitVec 64) (l : List (Fin 31)) (m : Mem) :
    Set.EqOn (spill a x l m) m (block a 248)ᶜ := by
  induction l generalizing m with
  | nil => exact fun _ _ => rfl
  | cons i l ih =>
      intro y hy
      rw [spill, List.foldl_cons, ← spill, ih _ hy]
      apply writeLe_of_notMem
      have hi := i.isLt
      simp only [Set.mem_compl_iff, mem_block] at hy ⊢
      omega

/-- A register that was loaded has the word at its place; the others are as they were. -/
theorem fetch_apply (a : ℕ) (m : Mem) (l : List (Fin 31)) (x : Fin 31 → BitVec 64) (j : Fin 31) :
    fetch a m l x j = if j ∈ l then BitVec.ofNat 64 (read64 m (a + 8 * j)) else x j := by
  induction l generalizing x with
  | nil => rfl
  | cons i l ih =>
      rw [fetch, List.foldl_cons, ← fetch, ih]
      by_cases hl : j ∈ l
      · simp [hl]
      by_cases hij : j = i
      · subst hij
        simp [hl]
      · simp [hl, hij]

/-- The registers of some pairs, in order. -/
def regs (l : List (Fin 31 × Fin 31)) : List (Fin 31) := l.flatMap fun p => [p.1, p.2]

/-- Neighbouring registers. -/
def Adjacent (l : List (Fin 31 × Fin 31)) : Prop := ∀ p ∈ l, (p.2 : ℕ) = p.1 + 1

/-- **A run of `stp`** to an array. -/
theorem execs_stps {l : List (Fin 31 × Fin 31)} (hl : Adjacent l) (b : Base) (s : Core) :
    ∃ pc, execs s (l.map fun p => .stp p.1 p.2 b (8 * p.1)) =
      { s with mem := spill (s.base b) s.x (regs l) s.mem, pc := pc } := by
  induction l generalizing s with
  | nil => exact ⟨s.pc, rfl⟩
  | cons p l ih =>
      obtain ⟨pc, hpc⟩ := ih (fun q hq => hl q (List.mem_cons_of_mem p hq))
        (exec s (.stp p.1 p.2 b (8 * p.1)))
      have hsnd : s.base b + 8 * (p.1 : ℕ) + 8 = s.base b + 8 * (p.2 : ℕ) := by
        have hp := hl p List.mem_cons_self
        omega
      have hbase : (exec s (.stp p.1 p.2 b (8 * p.1))).base b = s.base b := by cases b <;> rfl
      refine ⟨pc, ?_⟩
      rw [List.map_cons, execs_cons, hpc, hbase]
      simp only [exec, hsnd]
      rfl

/-- A pair of loads keeps a base that is not among the registers loaded. -/
theorem base_exec_ldp {p : Fin 31 × Fin 31} {l : List (Fin 31 × Fin 31)} {b : Base}
    (hb : ∀ n, b = .x n → n ∉ regs (p :: l)) (s : Core) :
    (exec s (.ldp p.1 p.2 b (8 * p.1))).base b = s.base b := by
  cases b with
  | sp => rfl
  | x n =>
      have hn := hb n rfl
      simp only [regs, List.flatMap_cons, List.mem_append, List.mem_cons, List.not_mem_nil,
        or_false, not_or] at hn
      simp [exec, Core.load, Core.setX, Core.next, Core.base, hn.1.1, hn.1.2]

/-- **A run of `ldp`** from an array, whose base is not among the registers loaded. -/
theorem execs_ldps {l : List (Fin 31 × Fin 31)} (hl : Adjacent l) {b : Base}
    (hb : ∀ n, b = .x n → n ∉ regs l) (s : Core) :
    ∃ pc, execs s (l.map fun p => .ldp p.1 p.2 b (8 * p.1)) =
      { s with x := fetch (s.base b) s.mem (regs l) s.x, pc := pc } := by
  induction l generalizing s with
  | nil => exact ⟨s.pc, rfl⟩
  | cons p l ih =>
      have hrest : ∀ n, b = .x n → n ∉ regs l := fun n hn hmem =>
        hb n hn (by simpa [regs] using Or.inr (Or.inr hmem))
      obtain ⟨pc, hpc⟩ := ih (fun q hq => hl q (List.mem_cons_of_mem p hq)) hrest
        (exec s (.ldp p.1 p.2 b (8 * p.1)))
      have hsnd : s.base b + 8 * (p.1 : ℕ) + 8 = s.base b + 8 * (p.2 : ℕ) := by
        have hp := hl p List.mem_cons_self
        omega
      have hbase := base_exec_ldp hb s
      refine ⟨pc, ?_⟩
      rw [List.map_cons, execs_cons, hpc, hbase]
      simp only [exec, hsnd]
      rfl

/-! ## Interrupts -/

/-- `PSTATE.I`: interrupts wait. -/
def Masked (pstate : BitVec 64) : Prop := pstate.getLsbD 7 = true

instance (pstate : BitVec 64) : Decidable (Masked pstate) :=
  inferInstanceAs (Decidable (_ = _))

/-- `PSTATE.M[3:0]` of the level that takes the interrupts, with its own stack pointer. -/
def modeH : BitVec 64 := 9

/-- An interrupt is taken: address and state are kept in `elr` and `spsr`, and further ones
wait. -/
def takeInterrupt (vector : BitVec 64) (s : Core) : Core :=
  { s with elr := s.pc, spsr := s.pstate, pc := vector, pstate := 0x3c0 ||| modeH }

/-- An interrupt comes: its handler runs from `vector` and returns, when interrupts do not
wait. -/
def interrupt (vector : BitVec 64) (handler : Core → Core) (s : Core) : Core :=
  if Masked s.pstate then s else exec (handler (takeInterrupt vector s)) .eret

/-- Some instructions with `n k` interrupts before the `k`-th one. -/
def runWith (irq : Core → Core) (n : ℕ → ℕ) : ℕ → Core → List Instr → Core
  | _, s, [] => s
  | k, s, i :: is => runWith irq n (k + 1) (exec (irq^[n k] s) i) is

theorem runWith_append (irq : Core → Core) (n : ℕ → ℕ) (k : ℕ) (s : Core) (is js : List Instr) :
    runWith irq n k s (is ++ js) = runWith irq n (k + is.length) (runWith irq n k s is) js := by
  induction is generalizing k s with
  | nil => rfl
  | cons i is ih =>
      rw [List.cons_append, runWith, ih, List.length_cons, Nat.add_right_comm]
      rfl

/-- Interrupts that keep the processor state and, when they are taken, leave it in `spsr`. -/
structure Returning (irq : Core → Core) : Prop where
  masked : ∀ s, Masked s.pstate → irq s = s
  pstate : ∀ s, (irq s).pstate = s.pstate
  spsr : ∀ s, ¬ Masked s.pstate → (irq s).spsr = s.pstate

namespace Returning

variable {irq : Core → Core} {n : ℕ → ℕ} {k : ℕ} {is : List Instr} {s : Core}

theorem iterate_pstate (h : Returning irq) (m : ℕ) (s : Core) : (irq^[m] s).pstate = s.pstate := by
  induction m with
  | zero => rfl
  | succ m ih => rw [Function.iterate_succ_apply', h.pstate, ih]

theorem iterate_masked (h : Returning irq) (hs : Masked s.pstate) (m : ℕ) : irq^[m] s = s :=
  Function.iterate_fixed (h.masked s hs) m

theorem iterate_spsr (h : Returning irq) (hs : ¬ Masked s.pstate) {m : ℕ} (hm : m ≠ 0) :
    (irq^[m] s).spsr = s.pstate := by
  obtain ⟨m, rfl⟩ := Nat.exists_eq_succ_of_ne_zero hm
  have hkept := h.iterate_pstate m s
  rw [Function.iterate_succ_apply', h.spsr _ (hkept ▸ hs), hkept]

/-- Where no interrupt is taken, the instructions run as they are. -/
theorem runWith_quiet (h : Returning irq) (his : ∀ i ∈ is, i.Leaves .spsr)
    (hq : Masked s.pstate ∨ ∀ j < is.length, n (k + j) = 0) : runWith irq n k s is = execs s is := by
  induction is generalizing k s with
  | nil => rfl
  | cons i is ih =>
      have hfirst : irq^[n k] s = s := by
        rcases hq with hs | hn
        · exact h.iterate_masked hs (n k)
        · rw [← Nat.add_zero k, hn 0 (by simp)]
          rfl
      have hkept := (exec_leaves (s := s) (his i List.mem_cons_self)).2
      rw [runWith, hfirst, execs_cons]
      refine ih (fun j hj => his j (List.mem_cons_of_mem i hj)) (hq.imp (fun hs => ?_) fun hn j hj => ?_)
      · rwa [hkept]
      · rw [Nat.add_right_comm]
        exact hn (j + 1) (by simpa using hj)

/-- **The last interrupt taken** leaves the processor state in `spsr`. -/
theorem runWith_spsr (h : Returning irq) (his : ∀ i ∈ is, i.Leaves .spsr) (hs : ¬ Masked s.pstate)
    (htaken : s.spsr = s.pstate ∨ ∃ j < is.length, n (k + j) ≠ 0) :
    (runWith irq n k s is).spsr = s.pstate := by
  induction is generalizing k s with
  | nil => exact htaken.elim id fun ⟨j, hj, _⟩ => absurd hj (by simp)
  | cons i is ih =>
      have hi := exec_leaves (s := irq^[n k] s) (his i List.mem_cons_self)
      have hkept : (exec (irq^[n k] s) i).pstate = s.pstate := hi.2.trans (h.iterate_pstate _ s)
      rw [runWith, ih (fun j hj => his j (List.mem_cons_of_mem i hj)) (hkept ▸ hs), hkept]
      by_cases hk : n k = 0
      · rcases htaken with hstate | ⟨j, hj, hn⟩
        · left
          have hsame := hi.1
          rw [hk] at hsame
          rw [hkept, ← hstate, hk]
          exact hsame
        · right
          cases j with
          | zero => exact absurd hk hn
          | succ j =>
              refine ⟨j, by simpa using hj, ?_⟩
              rwa [Nat.add_right_comm]
      · left
        rw [hkept]
        exact hi.1.trans (h.iterate_spsr hs hk)

end Returning

/-! ## Code that interrupts do not disturb -/

/-- The bytes that count: those of interest, and the stack in use below `top`. -/
def live (R : Set ℕ) (top : ℕ) (s : Core) : Set ℕ := R ∪ {y | s.sp ≤ y ∧ y < top}

/-- The cores differ in `elr`, `spsr` and in bytes that do not count. -/
structure Like (R : Set ℕ) (top : ℕ) (s t : Core) : Prop where
  x : s.x = t.x
  sp : s.sp = t.sp
  pc : s.pc = t.pc
  pstate : s.pstate = t.pstate
  tpidr : s.tpidr = t.tpidr
  mem : Set.EqOn s.mem t.mem (live R top t)

/-- The bytes an instruction loads. -/
def Instr.loads (s : Core) : Instr → Set ℕ
  | .ldr _ b off => block (s.base b + off) 8
  | .ldp _ _ b off => block (s.base b + off) 16
  | .pop _ _ => block s.sp 16
  | _ => ∅

/-- An instruction that reads no register an interrupt writes, and makes no room on the stack
that it does not fill. -/
def Instr.Plain : Instr → Prop
  | .mrs _ .spsr | .mrs _ .elr | .eret | .subSp _ | .addSp _ => False
  | _ => True

namespace Like

variable {R : Set ℕ} {top : ℕ} {s t u : Core}

protected theorem refl (R : Set ℕ) (top : ℕ) (s : Core) : Like R top s s :=
  ⟨rfl, rfl, rfl, rfl, rfl, fun _ _ => rfl⟩

protected theorem trans (h : Like R top s t) (h' : Like R top t u) : Like R top s u where
  x := h.x.trans h'.x
  sp := h.sp.trans h'.sp
  pc := h.pc.trans h'.pc
  pstate := h.pstate.trans h'.pstate
  tpidr := h.tpidr.trans h'.tpidr
  mem y hy := by
    have hlive : y ∈ live R top t := by
      rw [live, h'.sp]
      exact hy
    exact (h.mem hlive).trans (h'.mem hy)

/-- A handler that keeps what counts returns to a core alike. -/
theorem eret (hx : t.x = s.x) (hsp : t.sp = s.sp) (helr : t.elr = s.pc)
    (hspsr : t.spsr = s.pstate) (htpidr : t.tpidr = s.tpidr)
    (hmem : Set.EqOn t.mem s.mem (live R top s)) : Like R top (exec t .eret) s :=
  ⟨hx, hsp, helr, hspsr, htpidr, hmem⟩

theorem base (h : Like R top s t) (b : Base) : s.base b = t.base b := by
  cases b with
  | sp => exact h.sp
  | x n => rw [Core.base, Core.base, h.x]

/-- The same word is loaded from bytes that count. -/
theorem load (h : Like R top s t) (r : Fin 31) {a : ℕ} (ha : block a 8 ⊆ live R top t) :
    Like R top (s.load r a) (t.load r a) where
  x := by
    have hword : read64 s.mem a = read64 t.mem a := readLe_congr (h.mem.mono ha)
    simp only [Core.load, Core.setX, h.x, hword]
  sp := h.sp
  pc := h.pc
  pstate := h.pstate
  tpidr := h.tpidr
  mem := h.mem

/-- The same word is stored. -/
theorem store (h : Like R top s t) (r : Fin 31) (a : ℕ) :
    Like R top (s.store r a) (t.store r a) where
  x := h.x
  sp := h.sp
  pc := h.pc
  pstate := h.pstate
  tpidr := h.tpidr
  mem y hy := by
    by_cases ha : y ∈ block a 8
    · rw [Core.store, Core.store, h.x]
      exact (writeLe_of_mem ha).trans (writeLe_of_mem ha).symm
    · have hsame : s.mem y = t.mem y := h.mem hy
      exact (writeLe_of_notMem ha).trans (hsame.trans (writeLe_of_notMem ha).symm)

theorem next (h : Like R top s t) : Like R top s.next t.next where
  x := h.x
  sp := h.sp
  pc := congrArg (· + 4) h.pc
  pstate := h.pstate
  tpidr := h.tpidr
  mem := h.mem

/-- Half of a block that counts. -/
theorem subset_half {a n k : ℕ} {S : Set ℕ} (h : block a n ⊆ S) (hk : k + 8 ≤ n) :
    block (a + k) 8 ⊆ S := by
  refine fun y hy => h ?_
  simp only [mem_block] at hy ⊢
  omega

/-- **One instruction** that loads what counts, and is no exception return. -/
theorem exec (h : Like R top s t) {i : Instr} (hp : i.Plain)
    (hl : i.loads t ⊆ live R top t) : Like R top (exec s i) (exec t i) := by
  cases i with
  | mrs r q =>
      cases q with
      | tpidr =>
          refine Like.next ⟨?_, h.sp, h.pc, h.pstate, h.tpidr, h.mem⟩
          rw [Core.setX, Core.setX, h.x, Core.sysreg, Core.sysreg, h.tpidr]
      | spsr => exact hp.elim
      | elr => exact hp.elim
  | msr q r =>
      cases q with
      | tpidr => exact Like.next ⟨h.x, h.sp, h.pc, h.pstate, congrFun h.x r, h.mem⟩
      | spsr => exact Like.next ⟨h.x, h.sp, h.pc, h.pstate, h.tpidr, h.mem⟩
      | elr => exact Like.next ⟨h.x, h.sp, h.pc, h.pstate, h.tpidr, h.mem⟩
  | ldr r b off =>
      simp only [A64.exec, h.base]
      exact (h.load r hl).next
  | str r b off =>
      simp only [A64.exec, h.base]
      exact (h.store r _).next
  | ldp r q b off =>
      simp only [A64.exec, h.base]
      have hfirst := h.load r (subset_half (k := 0) hl (by decide))
      exact (hfirst.load q (subset_half (k := 8) hl (by decide))).next
  | stp r q b off =>
      simp only [A64.exec, h.base]
      exact ((h.store r _).store q _).next
  | push r q =>
      have hboth := ((h.store r (t.sp - 16)).store q (t.sp - 16 + 8)).next
      refine ⟨by simpa only [A64.exec, h.sp] using hboth.x, by simp only [A64.exec, h.sp],
        by simpa only [A64.exec, h.sp] using hboth.pc, hboth.pstate, hboth.tpidr, fun y hy => ?_⟩
      simp only [A64.exec, h.sp]
      by_cases hlive : y ∈ live R top t
      · exact hboth.mem hlive
      · -- the byte is one of the two words stored
        have hroom : y ∈ block (t.sp - 16) 16 := by
          have hin : y ∈ R ∨ t.sp - 16 ≤ y ∧ y < top := hy
          have hout : ¬ (y ∈ R ∨ t.sp ≤ y ∧ y < top) := hlive
          have hR : y ∉ R := fun hR => hout (Or.inl hR)
          have hstack := hin.resolve_left hR
          have habove : ¬ t.sp ≤ y := fun hle => hout (Or.inr ⟨hle, hstack.2⟩)
          simp only [mem_block]
          omega
        by_cases hsnd : y ∈ block (t.sp - 16 + 8) 8
        · simp only [Core.next, Core.store, h.x]
          exact (writeLe_of_mem hsnd).trans (writeLe_of_mem hsnd).symm
        · have hfst : y ∈ block (t.sp - 16) 8 := by
            simp only [mem_block] at hroom hsnd ⊢
            omega
          simp only [Core.next, Core.store, h.x]
          rw [write64, writeLe_of_notMem hsnd, write64, writeLe_of_mem hfst, write64,
            writeLe_of_notMem hsnd, write64, writeLe_of_mem hfst]
  | pop r q =>
      have hword : block t.sp 8 ⊆ live R top t := subset_half (k := 0) hl (by decide)
      have hfirst := h.load r hword
      have hboth := (hfirst.load q (subset_half (k := 8) hl (by decide))).next
      refine ⟨by simpa only [A64.exec, h.sp] using hboth.x, by simp only [A64.exec, h.sp],
        by simpa only [A64.exec, h.sp] using hboth.pc, hboth.pstate, hboth.tpidr, fun y hy => ?_⟩
      refine h.mem ?_
      simp only [live, A64.exec, Set.mem_union, Set.mem_ofPred_eq] at hy ⊢
      exact hy.imp_right fun hy => ⟨by omega, hy.2⟩
  | subSp n => exact hp.elim
  | addSp n => exact hp.elim
  | eret => exact hp.elim

/-- Interrupts that leave a core alike leave it alike however many there are. -/
theorem iterate {irq : Core → Core} {sps : Set ℕ}
    (hirq : ∀ s t, Like R top s t → t.sp ∈ sps → Like R top (irq s) t)
    (h : Like R top s t) (hsp : t.sp ∈ sps) (n : ℕ) : Like R top (irq^[n] s) t := by
  induction n with
  | zero => exact h
  | succ n ih =>
      rw [Function.iterate_succ_apply']
      exact hirq _ _ ih hsp

end Like

/-- Code whose instructions load what counts and keep the stack pointer among `sps`, from a core
on. -/
def Safe (R : Set ℕ) (top : ℕ) (sps : Set ℕ) : Core → List Instr → Prop
  | _, [] => True
  | s, i :: is => s.sp ∈ sps ∧ i.Plain ∧ i.loads s ⊆ live R top s ∧ Safe R top sps (exec s i) is

theorem safe_append {R : Set ℕ} {top : ℕ} {sps : Set ℕ} {s : Core} {is js : List Instr} :
    Safe R top sps s (is ++ js) ↔ Safe R top sps s is ∧ Safe R top sps (execs s is) js := by
  induction is generalizing s with
  | nil => simp [Safe]
  | cons i is ih => simp [Safe, ih, and_assoc]

/-- A run of `ldp` from an array of interest. -/
theorem safe_ldps {R : Set ℕ} {top : ℕ} {sps : Set ℕ} {l : List (Fin 31 × Fin 31)} {b : Base}
    (hb : ∀ n, b = .x n → n ∉ regs l) {s : Core} (hsp : s.sp ∈ sps)
    (hR : ∀ p ∈ l, block (s.base b + 8 * p.1) 16 ⊆ R) :
    Safe R top sps s (l.map fun p => .ldp p.1 p.2 b (8 * p.1)) := by
  induction l generalizing s with
  | nil => trivial
  | cons p l ih =>
      have hrest : ∀ n, b = .x n → n ∉ regs l := fun n hn hmem =>
        hb n hn (by simpa [regs] using Or.inr (Or.inr hmem))
      have hbase := base_exec_ldp hb s
      refine ⟨hsp, trivial, (hR p List.mem_cons_self).trans Set.subset_union_left,
        ih hrest hsp fun q hq => ?_⟩
      rw [hbase]
      exact hR q (List.mem_cons_of_mem p hq)

/-- **Interrupts do not disturb safe code**: with them it runs as without. -/
theorem Like.runWith {R : Set ℕ} {top : ℕ} {sps : Set ℕ} {irq : Core → Core}
    (hirq : ∀ s t, Like R top s t → t.sp ∈ sps → Like R top (irq s) t) (n : ℕ → ℕ)
    {is : List Instr} {k : ℕ} {s t : Core} (h : Like R top s t) (hs : Safe R top sps t is) :
    Like R top (runWith irq n k s is) (execs t is) := by
  induction is generalizing k s t with
  | nil => exact h
  | cons i is ih =>
      obtain ⟨hsp, hplain, hloads, hrest⟩ := hs
      exact ih ((h.iterate hirq hsp (n k)).exec hplain hloads) hrest

end A64
