import Mathlib.Data.Fintype.Option
import Mathlib.Data.List.Induction
import Xhyper.Base
import Xhyper.Lib.Serial

/-!
# The serial port from several cores

`pl011_irq_handler` sends back what the port received.  Between any two of its loads and stores
characters come in and leave, and the cores print: nothing keeps two callers of `pl011_putc`
apart, and each of them looks at the flag and writes afterwards.  A core that was interrupted
while it printed goes on only after the handler; here it may go on before, which are more runs
than there are.

At the end of the handler the store to `PL011ICR` withdraws the interrupt, whatever came in since
the handler looked last.

## Main definitions

* `Uart`, `Uart.step`, `Uart.run` — the port, the handler and the callers, access after access.
* `Uart.writes`, `Uart.arrivals` — what a run stores to `PL011DR`, and what comes in.
* `Uart.OneWriter` — the steps at which no two callers are between their look and their write.
* `uart_echoes` — what is sent.
* `uart_stalls` — when the interrupt is lost, and what follows.
-/

namespace Xhyper

open Memory Serial

/-- Where a caller of `pl011_putc` is. -/
inductive PutcPc
  | idle
  /-- In front of the load of `PL011FR`. -/
  | flag (c : Byte)
  /-- In front of the store to `PL011DR`. -/
  | data (c : Byte)
  deriving DecidableEq

/-- The character that a caller has not written yet. -/
def PutcPc.held : PutcPc → List Byte
  | idle => []
  | flag c | data c => [c]

/-- The caller is in front of its store to `PL011DR`. -/
def PutcPc.looked : PutcPc → Bool
  | data _ => true
  | _ => false

/-- Where `pl011_irq_handler` is. -/
inductive UartPc
  | idle
  /-- In front of the load of `PL011MIS`. -/
  | status
  /-- In `pl011_getc`, in front of the load of `PL011FR`. -/
  | getcFlag
  /-- In `pl011_getc`, in front of the load of `PL011DR`. -/
  | getcData
  /-- In `pl011_putc`, in front of the load of `PL011FR`. -/
  | putcFlag (c : Byte)
  /-- In `pl011_putc`, in front of the store to `PL011DR`. -/
  | putcData (c : Byte)
  /-- In front of the store to `PL011ICR`. -/
  | clear
  deriving DecidableEq

/-- Where the handler is in `pl011_putc`. -/
def UartPc.putcPc : UartPc → PutcPc
  | putcFlag c => .flag c
  | putcData c => .data c
  | _ => .idle

/-- The port, the handler, and the callers of `pl011_putc` besides it.  A received character is
the 12 bits of `PL011DR`; those on the way out carry their caller, `none` for the handler. -/
structure Uart (ι : Type) where
  port : Port (BitVec 12) (Option ι × Byte)
  irq : UartPc
  putc : ι → PutcPc
  /-- The characters that a caller gave to `pl011_putc`, oldest first. -/
  passed : ι → List Byte

/-- What happens next. -/
inductive UartEvent (ι : Type)
  | receive (c : BitVec 12)
  | transmit
  /-- The next access of `pl011_irq_handler`, or its call. -/
  | turn
  /-- A caller calls `pl011_putc`. -/
  | call (i : ι) (c : Byte)
  /-- The next access of a caller. -/
  | put (i : ι)

namespace Uart

variable {ι : Type} [DecidableEq ι]

/-- A port that nothing has happened to, and no caller. -/
def start : Uart ι := ⟨.empty, .idle, fun _ => .idle, fun _ => []⟩

/-- Where a caller is. -/
def pc (u : Uart ι) : Option ι → PutcPc
  | none => u.irq.putcPc
  | some i => u.putc i

/-- The characters of one caller. -/
def ofCaller (i : Option ι) (l : List (Option ι × Byte)) : List Byte :=
  (l.filter fun x => x.1 = i).map Prod.snd

/-- The characters that are to be sent back, for those received. -/
def echo (l : List (BitVec 12)) : List Byte := l.map fun c => c.setWidth 8

theorem echo_append (l l' : List (BitVec 12)) : echo (l ++ l') = echo l ++ echo l' :=
  List.map_append

/-- What a caller gave to `pl011_putc`. -/
def given (u : Uart ι) : Option ι → List Byte
  | none => echo u.port.taken
  | some i => u.passed i

section step
variable (g : Config)

/-- The next access of the handler.  The character that `pl011_getc` returns has no sign, so that
it is never negative. -/
def turn (u : Uart ι) : Uart ι :=
  match u.irq with
  | .idle => { u with irq := .status }
  | .status => { u with irq := if u.port.ris then .getcFlag else .clear }
  | .getcFlag => { u with irq := if u.port.rx = [] then .clear else .getcData }
  | .getcData => { u with
      port := u.port.readData g
      irq := .putcFlag ((u.port.rx.headD 0).setWidth 8) }
  | .putcFlag c => { u with irq := if u.port.full g then .putcFlag c else .putcData c }
  | .putcData c => { u with port := u.port.write g (none, c), irq := .getcFlag }
  | .clear => { u with port := u.port.clear, irq := .idle }

/-- The next access of a caller. -/
def put (u : Uart ι) (i : ι) : Uart ι :=
  match u.putc i with
  | .idle => u
  | .flag c => if u.port.full g then u else { u with putc := Function.update u.putc i (.data c) }
  | .data c => { u with
      port := u.port.write g (some i, c)
      putc := Function.update u.putc i .idle }

/-- A caller calls `pl011_putc`, when it is not in a call. -/
def call (u : Uart ι) (i : ι) (c : Byte) : Uart ι :=
  if u.putc i = .idle then { u with
    putc := Function.update u.putc i (.flag c)
    passed := Function.update u.passed i (u.passed i ++ [c]) }
  else u

/-- One step. -/
def step (u : Uart ι) : UartEvent ι → Uart ι
  | .receive c => { u with port := u.port.receive g c }
  | .transmit => { u with port := u.port.transmit }
  | .turn => u.turn g
  | .call i c => u.call i c
  | .put i => u.put g i

/-- Steps one after another. -/
def run (u : Uart ι) (l : List (UartEvent ι)) : Uart ι := l.foldl (step g) u

/-- The character that a step at `u` stores to `PL011DR`, with its caller. -/
def stored (u : Uart ι) : UartEvent ι → Option (Option ι × Byte)
  | .turn => match u.irq with
      | .putcData c => some (none, c)
      | _ => none
  | .put i => match u.putc i with
      | .data c => some (some i, c)
      | _ => none
  | _ => none

/-- The caller whose access is a write at `u`. -/
def writer (u : Uart ι) (e : UartEvent ι) : Option (Option ι) := (u.stored e).map Prod.fst

/-- The store to `PL011DR` of a step, if it is one, and whether it finds the FIFO full. -/
def wrote (u : Uart ι) (e : UartEvent ι) : List ((Option ι × Byte) × Bool) :=
  ((u.stored e).map fun x => (x, u.port.full g)).toList

/-- The stores to `PL011DR` of a run, oldest first. -/
def writes (u : Uart ι) : List (UartEvent ι) → List ((Option ι × Byte) × Bool)
  | [] => []
  | e :: l => u.wrote g e ++ writes (u.step g e) l

/-- The character that comes in with a step and finds room. -/
def arrived (u : Uart ι) : UartEvent ι → List (BitVec 12)
  | .receive c => if u.port.rx.length < g.depth then [c] else []
  | _ => []

/-- The characters that come in and find room in a run, oldest first. -/
def arrivals (u : Uart ι) : List (UartEvent ι) → List (BitVec 12)
  | [] => []
  | e :: l => u.arrived g e ++ arrivals (u.step g e) l

/-- If the step is a write, then no other caller has looked at the flag and not written yet. -/
def OneWriter (u : Uart ι) (e : UartEvent ι) : Prop :=
  ∀ i, u.writer e = some i → ∀ j ≠ i, ∀ c, u.pc j ≠ .data c

/-- The steps of a run, each with the state in front of it, have one writer at a time. -/
def Orderly (u : Uart ι) (l : List (UartEvent ι)) : Prop :=
  ∀ l₁ e l₂, l = l₁ ++ e :: l₂ → (u.run g l₁).OneWriter e

end step

/-! ## Runs -/

section runs
variable {g : Config}

theorem run_append (u : Uart ι) (l l' : List (UartEvent ι)) :
    u.run g (l ++ l') = (u.run g l).run g l' := List.foldl_append

theorem run_singleton (u : Uart ι) (e : UartEvent ι) : u.run g [e] = u.step g e := rfl

theorem run_concat (u : Uart ι) (l : List (UartEvent ι)) (e : UartEvent ι) :
    u.run g (l ++ [e]) = (u.run g l).step g e := by
  rw [run_append, run_singleton]

theorem writes_concat (u : Uart ι) (l : List (UartEvent ι)) (e : UartEvent ι) :
    u.writes g (l ++ [e]) = u.writes g l ++ (u.run g l).wrote g e := by
  induction l generalizing u with
  | nil => exact List.append_nil _
  | cons e' l ih =>
      rw [List.cons_append, writes, writes, ih, List.append_assoc]
      rfl

theorem arrivals_concat (u : Uart ι) (l : List (UartEvent ι)) (e : UartEvent ι) :
    u.arrivals g (l ++ [e]) = u.arrivals g l ++ (u.run g l).arrived g e := by
  induction l generalizing u with
  | nil => exact List.append_nil _
  | cons e' l ih =>
      rw [List.cons_append, arrivals, arrivals, ih, List.append_assoc]
      rfl

theorem orderly_nil (u : Uart ι) : u.Orderly g [] := by
  intro l₁ e l₂ hl
  simp at hl

theorem orderly_cons {u : Uart ι} {e : UartEvent ι} {l : List (UartEvent ι)} :
    u.Orderly g (e :: l) ↔ u.OneWriter e ∧ (u.step g e).Orderly g l := by
  refine ⟨fun h => ⟨h [] e l rfl, fun l₁ e' l₂ hl => h (e :: l₁) e' l₂ (by rw [hl]; rfl)⟩, ?_⟩
  rintro ⟨hone, hrest⟩ l₁ e' l₂ hl
  cases l₁ with
  | nil =>
      obtain ⟨rfl, _⟩ := List.cons.inj hl
      exact hone
  | cons e'' l₁ =>
      obtain ⟨rfl, hl'⟩ := List.cons.inj hl
      exact hrest l₁ e' l₂ hl'

omit [DecidableEq ι] in
theorem oneWriter_iff {u : Uart ι} {e : UartEvent ι} : u.OneWriter e ↔
    ∀ i, u.writer e = some i → ∀ j, j ≠ i → (u.pc j).looked = false := by
  refine forall_congr' fun i => imp_congr_right fun _ => forall_congr' fun j =>
    imp_congr_right fun _ => ?_
  cases u.pc j <;> simp [PutcPc.looked]

instance [Fintype ι] (u : Uart ι) (e : UartEvent ι) : Decidable (u.OneWriter e) :=
  decidable_of_iff _ oneWriter_iff.symm

instance decidableOrderly [Fintype ι] (u : Uart ι) : ∀ l, Decidable (u.Orderly g l)
  | [] => .isTrue (orderly_nil u)
  | e :: l =>
      have := decidableOrderly (u.step g e) l
      decidable_of_iff _ orderly_cons.symm

end runs

/-! ## What a step does -/

section moves
variable (g : Config)

/-- What a step does to what was given, sent and lost: nothing, or it moves one character of one
caller on. -/
inductive Moves (u : Uart ι) (e : UartEvent ι) (u' : Uart ι) : Prop
  | quiet : u.stored e = none → u'.pc = u.pc → u'.given = u.given →
      u'.port.sent = u.port.sent → u'.port.lost = u.port.lost →
      u'.port.tx.length ≤ u.port.tx.length → Moves u e u'
  | give (i : Option ι) (c : Byte) : u.stored e = none → u.pc i = .idle →
      u'.pc = Function.update u.pc i (.flag c) →
      u'.given = Function.update u.given i (u.given i ++ [c]) → u'.port.sent = u.port.sent →
      u'.port.lost = u.port.lost → u'.port.tx = u.port.tx → Moves u e u'
  | look (i : Option ι) (c : Byte) : u.stored e = none → u.pc i = .flag c →
      u.port.full g = false → u'.pc = Function.update u.pc i (.data c) → u'.given = u.given →
      u'.port = u.port → Moves u e u'
  | write (i : Option ι) (c : Byte) : u.stored e = some (i, c) → u.pc i = .data c →
      u'.pc = Function.update u.pc i .idle → u'.given = u.given →
      u'.port = u.port.write g (i, c) → Moves u e u'

variable {g} {u : Uart ι}

/-- The places, when only the handler moves. -/
theorem pc_irq (q : Port (BitVec 12) (Option ι × Byte)) (irq : UartPc) :
    ({ u with port := q, irq := irq } : Uart ι).pc = Function.update u.pc none irq.putcPc := by
  funext j
  cases j with
  | none => rw [Function.update_self]; rfl
  | some j => rw [Function.update_of_ne (by simp)]; rfl

/-- The places, when only one other caller moves. -/
theorem pc_putc (q : Port (BitVec 12) (Option ι × Byte)) (passed : ι → List Byte) (i : ι)
    (p : PutcPc) :
    ({ u with port := q, putc := Function.update u.putc i p, passed := passed } : Uart ι).pc =
      Function.update u.pc (some i) p := by
  funext j
  cases j with
  | none => rw [Function.update_of_ne (by simp)]; rfl
  | some j =>
      by_cases hj : j = i
      · subst hj
        rw [Function.update_self]
        exact Function.update_self ..
      · rw [Function.update_of_ne (by simpa using hj)]
        exact Function.update_of_ne hj ..

omit [DecidableEq ι] in
/-- What was given, when nothing was read. -/
theorem given_of_taken {q : Port (BitVec 12) (Option ι × Byte)} (h : q.taken = u.port.taken)
    (irq : UartPc) (putc : ι → PutcPc) :
    ({ u with port := q, irq := irq, putc := putc } : Uart ι).given = u.given := by
  funext j
  cases j with
  | none => exact congrArg echo h
  | some j => rfl

/-- `pl011_getc` finds a character where it reads. -/
def Ready (u : Uart ι) : Prop := u.irq = .getcData → u.port.rx ≠ []

/-- **The handler's steps.** -/
theorem turn_moves (h : u.Ready) : Moves g u .turn (u.turn g) := by
  have hidle : ∀ (irq : UartPc) (q : Port (BitVec 12) (Option ι × Byte)),
      u.stored .turn = none → u.irq.putcPc = irq.putcPc → q.taken = u.port.taken →
      q.sent = u.port.sent → q.lost = u.port.lost → q.tx = u.port.tx →
      Moves g u .turn { u with port := q, irq := irq } := by
    intro irq q hstored hpc htaken hsent hlost htx
    refine .quiet hstored ?_ (given_of_taken htaken _ _) hsent hlost (by rw [htx])
    rw [pc_irq, ← hpc]
    exact Function.update_eq_self none u.pc
  rw [turn]
  cases hirq : u.irq with
  | idle => exact hidle _ _ (by rw [stored, hirq]) (by rw [hirq]; rfl) rfl rfl rfl rfl
  | status =>
      exact hidle _ _ (by rw [stored, hirq]) (by rw [hirq]; split <;> rfl) rfl rfl rfl rfl
  | getcFlag =>
      exact hidle _ _ (by rw [stored, hirq]) (by rw [hirq]; split <;> rfl) rfl rfl rfl rfl
  | clear => exact hidle _ _ (by rw [stored, hirq]) (by rw [hirq]; rfl) rfl rfl rfl rfl
  | getcData =>
      obtain ⟨c, rx, hrx⟩ := List.exists_cons_of_ne_nil (h hirq)
      refine .give none (c.setWidth 8) (by rw [stored, hirq]) (by rw [pc, hirq]; rfl) ?_ ?_ ?_ ?_ ?_
      · rw [hrx]
        exact pc_irq _ _
      · funext j
        cases j with
        | none =>
            rw [Function.update_self]
            simp only [given, Port.readData_taken hrx, echo_append]
            rfl
        | some j => rw [Function.update_of_ne (by simp)]; rfl
      · exact Port.readData_sent
      · exact Port.readData_lost
      · exact Port.readData_tx
  | putcFlag c =>
      dsimp only
      by_cases hfull : u.port.full g = true
      · rw [if_pos hfull]
        exact hidle _ _ (by rw [stored, hirq]) (by rw [hirq]) rfl rfl rfl rfl
      · rw [if_neg hfull]
        exact .look none c (by rw [stored, hirq]) (by rw [pc, hirq]; rfl) (by simpa using hfull)
          (pc_irq _ _) (given_of_taken rfl _ _) rfl
  | putcData c =>
      exact .write none c (by rw [stored, hirq]) (by rw [pc, hirq]; rfl) (pc_irq _ _)
        (given_of_taken (Port.write_taken _) _ _) rfl

/-- **The steps of the other callers.** -/
theorem put_moves (u : Uart ι) (i : ι) : Moves g u (.put i) (u.put g i) := by
  rw [put]
  cases hpc : u.putc i with
  | idle => exact .quiet (by rw [stored, hpc]) rfl rfl rfl rfl (Nat.le_refl _)
  | flag c =>
      dsimp only
      by_cases hfull : u.port.full g = true
      · rw [if_pos hfull]
        exact .quiet (by rw [stored, hpc]) rfl rfl rfl rfl (Nat.le_refl _)
      · rw [if_neg hfull]
        exact .look (some i) c (by rw [stored, hpc]) hpc (by simpa using hfull) (pc_putc _ _ i _)
          (given_of_taken rfl _ _) rfl
  | data c =>
      exact .write (some i) c (by rw [stored, hpc]) hpc (pc_putc _ _ i _)
        (given_of_taken (Port.write_taken _) _ _) rfl

/-- **What every step does.** -/
theorem step_moves (h : u.Ready) (e : UartEvent ι) : Moves g u e (u.step g e) := by
  cases e with
  | receive c =>
      exact .quiet rfl rfl (given_of_taken (Port.receive_taken c) _ _) (Port.receive_sent c)
        (Port.receive_lost c) (Nat.le_of_eq (congrArg List.length (Port.receive_tx c)))
  | transmit =>
      exact .quiet rfl rfl (given_of_taken Port.transmit_taken _ _) Port.transmit_sent
        Port.transmit_lost Port.transmit_tx_length
  | turn => exact turn_moves h
  | put i => exact put_moves u i
  | call i c =>
      change Moves g u _ (u.call i c)
      rw [call]
      by_cases hidle : u.putc i = .idle
      · rw [if_pos hidle]
        refine .give (some i) c rfl hidle (pc_putc _ _ i _) ?_ rfl rfl rfl
        funext j
        cases j with
        | none => rw [Function.update_of_ne (by simp)]; rfl
        | some j =>
            by_cases hj : j = i
            · subst hj
              rw [Function.update_self]
              exact Function.update_self ..
            · rw [Function.update_of_ne (by simpa using hj)]
              exact Function.update_of_ne hj ..
      · rw [if_neg hidle]
        exact .quiet rfl rfl rfl rfl rfl (Nat.le_refl _)

/-- The handler reads after it has seen a character, and no one else takes it. -/
theorem Ready.step (h : u.Ready) (e : UartEvent ι) : (u.step g e).Ready := by
  cases e with
  | receive c =>
      intro hirq hnil
      have hrx : u.port.rx ≠ [] := h hirq
      change (u.port.receive g c).rx = [] at hnil
      rw [Port.receive] at hnil
      split at hnil
      · simp at hnil
      · exact hrx hnil
  | transmit =>
      intro hirq hnil
      exact h hirq (Port.transmit_rx.symm.trans hnil)
  | turn =>
      change (u.turn g).Ready
      intro hirq
      rw [turn] at hirq ⊢
      cases hpc : u.irq with
      | getcFlag =>
          simp only [hpc] at hirq ⊢
          split at hirq
          · cases hirq
          · assumption
      | status =>
          simp only [hpc] at hirq
          split at hirq <;> cases hirq
      | putcFlag c =>
          simp only [hpc] at hirq
          split at hirq <;> cases hirq
      | idle => simp [hpc] at hirq
      | getcData => simp [hpc] at hirq
      | putcData c => simp [hpc] at hirq
      | clear => simp [hpc] at hirq
  | put i =>
      change (u.put g i).Ready
      intro hirq
      rw [put] at hirq ⊢
      cases hpc : u.putc i with
      | idle =>
          simp only [hpc] at hirq ⊢
          exact h hirq
      | flag c =>
          simp only [hpc] at hirq ⊢
          split at hirq <;> split <;> exact h hirq
      | data c =>
          simp only [hpc] at hirq ⊢
          rw [Port.write_rx]
          exact h hirq
  | call i c =>
      change (u.call i c).Ready
      intro hirq
      rw [call] at hirq ⊢
      split at hirq <;> split <;> exact h hirq

/-- The callers besides the handler leave the receiving side alone. -/
theorem put_port (u : Uart ι) (i : ι) : (u.put g i).irq = u.irq ∧
    (u.put g i).port.rx = u.port.rx ∧ (u.put g i).port.ris = u.port.ris ∧
    (u.put g i).port.taken = u.port.taken := by
  rw [put]
  cases u.putc i with
  | idle => exact ⟨rfl, rfl, rfl, rfl⟩
  | flag c =>
      dsimp only
      split <;> exact ⟨rfl, rfl, rfl, rfl⟩
  | data c => exact ⟨rfl, Port.write_rx _, Port.write_ris _, Port.write_taken _⟩

theorem call_port (u : Uart ι) (i : ι) (c : Byte) :
    (u.call i c).irq = u.irq ∧ (u.call i c).port = u.port := by
  rw [call]
  split <;> exact ⟨rfl, rfl⟩

end moves

/-! ## What is sent -/

section sent
variable {g : Config} {u : Uart ι}

theorem ofCaller_append (i : Option ι) (l l' : List (Option ι × Byte)) :
    ofCaller i (l ++ l') = ofCaller i l ++ ofCaller i l' := by
  simp [ofCaller]

theorem ofCaller_singleton (i j : Option ι) (c : Byte) :
    ofCaller i [(j, c)] = if j = i then [c] else [] := by
  by_cases hj : j = i <;> simp [ofCaller, hj]

/-- The stores to `PL011DR` of `w` that found the FIFO full, or those that did not. -/
def found (full : Bool) (w : List ((Option ι × Byte) × Bool)) : List (Option ι × Byte) :=
  (w.filter fun x => x.2 = full).map Prod.fst

omit [DecidableEq ι] in
theorem found_append (full : Bool) (w w' : List ((Option ι × Byte) × Bool)) :
    found full (w ++ w') = found full w ++ found full w' := by
  simp [found]

omit [DecidableEq ι] in
/-- Where none found the FIFO full, all are those that did not. -/
theorem found_of_none {w : List ((Option ι × Byte) × Bool)} (h : found true w = []) :
    (∀ x ∈ w, x.2 = false) ∧ found false w = w.map Prod.fst := by
  have hall : ∀ x ∈ w, x.2 = false := by
    simpa [found, List.filter_eq_nil_iff] using h
  refine ⟨hall, ?_⟩
  rw [found, List.filter_eq_self.mpr (by simpa using hall)]

omit [DecidableEq ι] in
theorem wrote_of_none {e : UartEvent ι} (h : u.stored e = none) : u.wrote g e = [] := by
  rw [wrote, h]
  rfl

omit [DecidableEq ι] in
theorem wrote_of_some {e : UartEvent ι} {x : Option ι × Byte} (h : u.stored e = some x) :
    u.wrote g e = [(x, u.port.full g)] := by
  rw [wrote, h]
  rfl

/-- The stores `w` to `PL011DR` account for what was sent, lost and given: one with room is sent,
one without is lost, and of what was given only what is held was not stored yet. -/
structure Accounts (u : Uart ι) (w : List ((Option ι × Byte) × Bool)) : Prop where
  ready : u.Ready
  sent : u.port.sent = found false w
  lost : u.port.lost = found true w
  given : ∀ i, u.given i = ofCaller i (w.map Prod.fst) ++ (u.pc i).held

theorem accounts_start : Accounts (start : Uart ι) [] where
  ready h := by cases h
  sent := rfl
  lost := rfl
  given i := by cases i <;> rfl

/-- **A step keeps the accounts.** -/
theorem Accounts.step {w : List ((Option ι × Byte) × Bool)} (A : u.Accounts w)
    (e : UartEvent ι) : Accounts (u.step g e) (w ++ u.wrote g e) := by
  have hready := A.ready.step (g := g) e
  cases step_moves (g := g) A.ready e with
  | quiet hstored hpc hgiven hsent hlost _ =>
      rw [wrote_of_none hstored, List.append_nil]
      refine ⟨hready, hsent.trans A.sent, hlost.trans A.lost, fun j => ?_⟩
      rw [hgiven, hpc]
      exact A.given j
  | give i c hstored hidle hpc hgiven hsent hlost _ =>
      rw [wrote_of_none hstored, List.append_nil]
      refine ⟨hready, hsent.trans A.sent, hlost.trans A.lost, fun j => ?_⟩
      rw [hgiven, hpc]
      by_cases hj : j = i
      · subst hj
        rw [Function.update_self, Function.update_self, A.given j, hidle, List.append_assoc]
        rfl
      · rw [Function.update_of_ne hj, Function.update_of_ne hj]
        exact A.given j
  | look i c hstored hflag _ hpc hgiven hport =>
      rw [wrote_of_none hstored, List.append_nil]
      refine ⟨hready, by rw [hport]; exact A.sent, by rw [hport]; exact A.lost, fun j => ?_⟩
      rw [hgiven, hpc]
      by_cases hj : j = i
      · subst hj
        rw [Function.update_self, A.given j, hflag]
        rfl
      · rw [Function.update_of_ne hj]
        exact A.given j
  | write i c hstored hdata hpc hgiven hport =>
      rw [wrote_of_some hstored]
      -- the character that was held is stored: it goes to one side or the other
      refine ⟨hready, ?_, ?_, fun j => ?_⟩
      · rw [hport, found_append, ← A.sent]
        cases hfull : u.port.full g with
        | true => rw [Port.write_of_full hfull]; simp [Port.sent, found]
        | false => rw [Port.write_of_room hfull]; simp [Port.sent, found]
      · rw [hport, found_append, ← A.lost]
        cases hfull : u.port.full g with
        | true => rw [Port.write_of_full hfull]; simp [found]
        | false => rw [Port.write_of_room hfull]; simp [found]
      · rw [hgiven, hpc, A.given j, List.map_append, ofCaller_append]
        by_cases hj : j = i
        · subst hj
          rw [Function.update_self, hdata, List.map_singleton, ofCaller_singleton, if_pos rfl]
          exact (List.append_nil _).symm
        · rw [Function.update_of_ne hj, List.map_singleton, ofCaller_singleton,
            if_neg (Ne.symm hj), List.append_nil]

/-- The other callers take nothing from the receiving side, and put nothing there. -/
theorem put_accepted (u : Uart ι) (i : ι) :
    (u.put g i).port.accepted = u.port.accepted := by
  obtain ⟨_, hrx, _, htaken⟩ := put_port (g := g) u i
  rw [Port.accepted, Port.accepted, hrx, htaken]

/-- **A step keeps what came in**, and what comes in with it is last. -/
theorem step_accepted (u : Uart ι) (e : UartEvent ι) :
    (u.step g e).port.accepted = u.port.accepted ++ u.arrived g e := by
  cases e with
  | receive c => exact Port.receive_accepted c
  | transmit =>
      refine Eq.trans ?_ (List.append_nil _).symm
      change u.port.transmit.accepted = u.port.accepted
      rw [Port.accepted, Port.accepted, Port.transmit_rx, Port.transmit_taken]
  | put i =>
      refine Eq.trans ?_ (List.append_nil _).symm
      exact put_accepted u i
  | call i c =>
      refine Eq.trans ?_ (List.append_nil _).symm
      exact congrArg Port.accepted (call_port u i c).2
  | turn =>
      refine Eq.trans ?_ (List.append_nil _).symm
      change (u.turn g).port.accepted = u.port.accepted
      rw [turn]
      cases u.irq with
      | getcData => exact Port.readData_accepted
      | putcData c =>
          change (u.port.write g _).accepted = u.port.accepted
          rw [Port.accepted, Port.accepted, Port.write_rx, Port.write_taken]
      | idle => rfl
      | status => rfl
      | getcFlag => rfl
      | putcFlag c => rfl
      | clear => rfl

/-- Nothing is lost so far, and who has looked at the flag has room. -/
structure Spacious (g : Config) (u : Uart ι) : Prop where
  lost : u.port.lost = []
  room : ∀ i c, u.pc i = .data c → u.port.tx.length < g.depth

/-- **A step with one writer** loses nothing. -/
theorem Spacious.step (S : Spacious g u) (h : u.Ready) {e : UartEvent ι} (hone : u.OneWriter e) :
    Spacious g (u.step g e) := by
  cases step_moves (g := g) h e with
  | quiet _ hpc _ _ hlost htx =>
      refine ⟨hlost.trans S.lost, fun i c hi => ?_⟩
      rw [hpc] at hi
      have hroom := S.room i c hi
      omega
  | give i c _ _ hpc _ _ hlost htx =>
      refine ⟨hlost.trans S.lost, fun j d hj => ?_⟩
      rw [hpc] at hj
      rw [htx]
      by_cases hji : j = i
      · subst hji
        rw [Function.update_self] at hj
        cases hj
      · rw [Function.update_of_ne hji] at hj
        exact S.room j d hj
  | look i c _ _ hroom _ _ hport =>
      refine ⟨by rw [hport]; exact S.lost, fun j d _ => ?_⟩
      rw [hport]
      simpa [Port.full] using hroom
  | write i c hstored hdata hpc _ hport =>
      have hwriter : u.writer e = some i := by rw [writer, hstored]; rfl
      have hroom := S.room i c hdata
      have hfull : u.port.full g = false := by
        rw [Port.full]
        simpa using hroom
      rw [Port.write_of_room hfull] at hport
      refine ⟨by rw [hport]; exact S.lost, fun j d hj => ?_⟩
      rw [hpc] at hj
      by_cases hji : j = i
      · subst hji
        rw [Function.update_self] at hj
        cases hj
      · rw [Function.update_of_ne hji] at hj
        exact absurd hj (hone i hwriter j hji d)

theorem accounts_run (l : List (UartEvent ι)) :
    Accounts ((start : Uart ι).run g l) ((start : Uart ι).writes g l) := by
  induction l using List.reverseRecOn with
  | nil => exact accounts_start
  | append_singleton l e ih =>
      rw [run_concat, writes_concat]
      exact ih.step e

theorem accepted_run (l : List (UartEvent ι)) :
    ((start : Uart ι).run g l).port.accepted = (start : Uart ι).arrivals g l := by
  induction l using List.reverseRecOn with
  | nil => rfl
  | append_singleton l e ih => rw [run_concat, arrivals_concat, step_accepted, ih]

theorem spacious_run {l : List (UartEvent ι)} (h : (start : Uart ι).Orderly g l) :
    Spacious g ((start : Uart ι).run g l) := by
  induction l using List.reverseRecOn with
  | nil => exact ⟨rfl, fun i c hi => by cases i <;> cases hi⟩
  | append_singleton l e ih =>
      rw [run_concat]
      refine (ih fun l₁ e' l₂ hl => ?_).step (accounts_run l).ready (h l e [] rfl)
      exact h l₁ e' (l₂ ++ [e]) (by rw [hl]; simp)

end sent

/-! ## The interrupt -/

section interrupt
variable {g : Config} {u : Uart ι}

/-- The step is the store to `PL011ICR`. -/
def Clears (u : Uart ι) (e : UartEvent ι) : Prop := e = .turn ∧ u.irq = .clear

omit [DecidableEq ι] in
theorem Clears.irq {e : UartEvent ι} (h : u.Clears e) : u.irq = .clear := h.2

theorem Clears.step {e : UartEvent ι} (h : u.Clears e) :
    u.step g e = { u with port := u.port.clear, irq := .idle } := by
  obtain ⟨rfl, hirq⟩ := h
  simp only [Uart.step, turn, hirq]

/-- **Only the store to `PL011ICR`** can take the interrupt away while it is needed. -/
theorem step_awake (h : u.port.Awake g) {e : UartEvent ι} (hc : ¬ u.Clears e) :
    (u.step g e).port.Awake g := by
  cases e with
  | receive c => exact h.receive c
  | transmit => exact (Port.awake_congr Port.transmit_rx Port.transmit_ris).mpr h
  | put i =>
      obtain ⟨_, hrx, hris, _⟩ := put_port (g := g) u i
      exact (Port.awake_congr hrx hris).mpr h
  | call i c =>
      change (u.call i c).port.Awake g
      rw [(call_port u i c).2]
      exact h
  | turn =>
      change (u.turn g).port.Awake g
      rw [turn]
      cases hirq : u.irq with
      | clear => exact absurd ⟨rfl, hirq⟩ hc
      | getcData => exact h.readData
      | putcData c => exact (Port.awake_congr (Port.write_rx _) (Port.write_ris _)).mpr h
      | idle => exact h
      | status => exact h
      | getcFlag => exact h
      | putcFlag c => exact h

/-- The interrupt is lost, and the handler does not look at what came in. -/
structure Lost (g : Config) (u : Uart ι) : Prop where
  stalled : u.port.Stalled g
  away : u.irq = .idle ∨ u.irq = .status ∨ u.irq = .clear

/-- **A lost interrupt stays lost**, and nothing is read. -/
theorem Lost.step (h : Lost g u) (e : UartEvent ι) :
    Lost g (u.step g e) ∧ (u.step g e).port.taken = u.port.taken := by
  obtain ⟨hst, haway⟩ := h
  cases e with
  | receive c => exact ⟨⟨hst.receive c, haway⟩, Port.receive_taken c⟩
  | transmit =>
      exact ⟨⟨(Port.stalled_congr Port.transmit_rx Port.transmit_ris).mpr hst, haway⟩,
        Port.transmit_taken⟩
  | put i =>
      obtain ⟨hirq, hrx, hris, htaken⟩ := put_port (g := g) u i
      exact ⟨⟨(Port.stalled_congr hrx hris).mpr hst, hirq ▸ haway⟩, htaken⟩
  | call i c =>
      obtain ⟨hirq, hport⟩ := call_port u i c
      exact ⟨⟨hport ▸ hst, hirq ▸ haway⟩, congrArg Port.taken hport⟩
  | turn =>
      change Lost g (u.turn g) ∧ (u.turn g).port.taken = u.port.taken
      rw [turn]
      rcases haway with hirq | hirq | hirq <;> simp only [hirq]
      · exact ⟨⟨hst, Or.inr (Or.inl rfl)⟩, trivial⟩
      · rw [if_neg (by simp [hst.2])]
        exact ⟨⟨hst, Or.inr (Or.inr rfl)⟩, trivial⟩
      · exact ⟨⟨hst.clear, Or.inl rfl⟩, rfl⟩

theorem Lost.run (h : Lost g u) (l : List (UartEvent ι)) :
    Lost g (u.run g l) ∧ (u.run g l).port.taken = u.port.taken := by
  induction l using List.reverseRecOn with
  | nil => exact ⟨h, rfl⟩
  | append_singleton l e ih =>
      obtain ⟨hlost, htaken⟩ := ih
      rw [run_concat]
      exact ⟨(hlost.step e).1, (hlost.step e).2.trans htaken⟩

/-- A run has a store to `PL011ICR` with so many characters in the FIFO that they are to raise the
interrupt. -/
def ClearedFull (g : Config) (u : Uart ι) (l : List (UartEvent ι)) : Prop :=
  ∃ l₁ e l₂, l = l₁ ++ e :: l₂ ∧ (u.run g l₁).Clears e ∧
    g.trigger ≤ (u.run g l₁).port.rx.length

/-- **The interrupt is as it should be, or lost** by such a store. -/
theorem awake_or_lost (l : List (UartEvent ι)) :
    ((start : Uart ι).run g l).port.Awake g ∧ ¬ ClearedFull g (start : Uart ι) l ∨
      Lost g ((start : Uart ι).run g l) ∧ ClearedFull g (start : Uart ι) l := by
  induction l using List.reverseRecOn with
  | nil =>
      refine Or.inl ⟨Port.awake_empty, ?_⟩
      rintro ⟨l₁, e, l₂, hl, _⟩
      simp at hl
  | append_singleton l e ih =>
      rw [run_concat]
      -- a store to `PL011ICR` is one of those before, or the last step
      have hcases : ClearedFull g (start : Uart ι) (l ++ [e]) ↔ ClearedFull g (start : Uart ι) l ∨
          ((start : Uart ι).run g l).Clears e ∧
            g.trigger ≤ ((start : Uart ι).run g l).port.rx.length := by
        constructor
        · rintro ⟨l₁, e', l₂, hl, hc, hle⟩
          rcases List.eq_nil_or_concat l₂ with rfl | ⟨l₃, e'', rfl⟩
          · obtain ⟨rfl, he⟩ := List.append_inj' hl rfl
            obtain rfl : e = e' := by simpa using he
            exact Or.inr ⟨hc, hle⟩
          · rw [List.concat_eq_append, ← List.cons_append, ← List.append_assoc] at hl
            obtain ⟨rfl, _⟩ := List.append_inj' hl rfl
            exact Or.inl ⟨l₁, e', l₃, rfl, hc, hle⟩
        · rintro (⟨l₁, e', l₂, rfl, hc, hle⟩ | ⟨hc, hle⟩)
          · exact ⟨l₁, e', l₂ ++ [e], by simp, hc, hle⟩
          · exact ⟨l, e, [], rfl, hc, hle⟩
      rcases ih with ⟨hawake, hno⟩ | ⟨hlost, hyes⟩
      · by_cases hc : ((start : Uart ι).run g l).Clears e
        · by_cases hle : g.trigger ≤ ((start : Uart ι).run g l).port.rx.length
          · refine Or.inr ⟨⟨?_, ?_⟩, hcases.mpr (Or.inr ⟨hc, hle⟩)⟩
            · rw [hc.step]
              exact Port.stalled_clear_iff.mpr hle
            · rw [hc.step]
              exact Or.inl rfl
          · refine Or.inl ⟨?_, fun hex => (hcases.mp hex).elim hno fun h => hle h.2⟩
            rw [hc.step]
            exact Port.awake_clear_iff.mpr (by omega)
        · exact Or.inl ⟨step_awake hawake hc, fun hex => (hcases.mp hex).elim hno fun h => hc h.1⟩
      · exact Or.inr ⟨(hlost.step e).1, hcases.mpr (Or.inl hyes)⟩

/-! ## What the handler does when it is called -/

/-- The steps of the handler and of the sending side. -/
def Alone (l : List (UartEvent ι)) : Prop := ∀ e ∈ l, e = .turn ∨ e = .transmit

omit [DecidableEq ι] in
theorem Alone.append {l l' : List (UartEvent ι)} (h : Alone l) (h' : Alone l') : Alone (l ++ l') :=
  fun e he => (List.mem_append.mp he).elim (h e) (h' e)

/-- The sending side can empty its FIFO. -/
theorem exists_drained (u : Uart ι) : ∃ l, Alone l ∧ (u.run g l).irq = u.irq ∧
    (u.run g l).port.tx = [] ∧ (u.run g l).port.rx = u.port.rx ∧
    (u.run g l).port.accepted = u.port.accepted := by
  generalize htx : u.port.tx = tx
  induction tx generalizing u with
  | nil => exact ⟨[], nofun, rfl, htx, rfl, rfl⟩
  | cons c tx ih =>
      have htail : (u.step g .transmit).port.tx = tx := by
        change u.port.transmit.tx = tx
        rw [Port.transmit, htx]
      obtain ⟨l, hl, hirq, hnil, hrx, hacc⟩ := ih _ htail
      refine ⟨.transmit :: l, ?_, hirq, hnil, hrx.trans Port.transmit_rx, hacc.trans ?_⟩
      · exact fun e he => (List.mem_cons.mp he).elim Or.inr (hl e)
      · exact (step_accepted u .transmit).trans (List.append_nil _)

/-- **The loop of the handler** can take all that is there. -/
theorem exists_served (n : ℕ) : ∀ u : Uart ι, u.irq = .getcFlag → u.port.rx.length = n →
    ∃ l, Alone l ∧ (u.run g l).irq = .clear ∧ (u.run g l).port.rx = [] ∧
      (u.run g l).port.accepted = u.port.accepted := by
  induction n with
  | zero =>
      intro u hirq hlen
      have hnil := List.length_eq_zero_iff.mp hlen
      refine ⟨[.turn], by simp [Alone], ?_⟩
      simp only [run, List.foldl_cons, List.foldl_nil, step, turn, hirq, hnil, if_true]
      exact ⟨trivial, trivial, trivial⟩
  | succ n ih =>
      intro u hirq hlen
      obtain ⟨c, rx, hrx⟩ := List.exists_cons_of_length_eq_add_one hlen
      -- the character is read, and the sending side makes room for it
      have hread : u.run g [.turn, .turn] =
          { u with port := u.port.readData g, irq := .putcFlag (c.setWidth 8) } := by
        simp only [run, List.foldl_cons, List.foldl_nil, step, turn, hirq, hrx, if_neg,
          reduceCtorEq, not_false_eq_true, List.headD_cons]
      obtain ⟨l₁, h₁, hirq₁, htx₁, hrx₁, hacc₁⟩ := exists_drained (g := g) (u.run g [.turn, .turn])
      rw [hread] at hirq₁ htx₁ hrx₁ hacc₁
      generalize ht : ({ u with port := u.port.readData g, irq := .putcFlag (c.setWidth 8) } :
        Uart ι).run g l₁ = t at hirq₁ htx₁ hrx₁ hacc₁
      have hroom : t.port.full g = false := by
        have hpos := g.trigger_pos
        have hle := g.trigger_le
        simp only [Port.full, htx₁, List.length_nil, decide_eq_false_iff_not]
        omega
      have hwrite : t.run g [.turn, .turn] =
          { t with port := t.port.write g (none, c.setWidth 8), irq := .getcFlag } := by
        simp only [run, List.foldl_cons, List.foldl_nil, step, turn, hirq₁, hroom, Bool.false_eq_true,
          if_false]
      have hrest : (t.run g [.turn, .turn]).port.rx.length = n := by
        rw [hwrite]
        change (t.port.write g _).rx.length = n
        rw [Port.write_rx, hrx₁]
        rw [hrx, List.length_cons] at hlen
        change (u.port.readData g).rx.length = n
        rw [Port.readData_rx hrx]
        omega
      obtain ⟨l₂, h₂, hirq₂, hnil₂, hacc₂⟩ := ih (t.run g [.turn, .turn]) (by rw [hwrite]) hrest
      refine ⟨[.turn, .turn] ++ (l₁ ++ ([.turn, .turn] ++ l₂)), ?_, ?_⟩
      · exact Alone.append (by simp [Alone]) (h₁.append (Alone.append (by simp [Alone]) h₂))
      · rw [run_append, hread, run_append, ht, run_append]
        refine ⟨hirq₂, hnil₂, hacc₂.trans ?_⟩
        rw [hwrite]
        change (t.port.write g _).accepted = _
        rw [Port.accepted, Port.write_rx, Port.write_taken, ← Port.accepted, hacc₁]
        exact Port.readData_accepted

end interrupt

end Uart

/-! ## Main results -/

section main
variable {ι : Type} [DecidableEq ι]

open Uart

/-- **What is sent.**  In every run from a port that nothing has happened to, what was sent are the
stores to `PL011DR` that found room in the FIFO, and what was lost are those that found it full,
each in their order.  The handler has stored, holds, or has in the receive FIFO the characters
that came in while there was room, in the order in which they came; and any other caller of
`pl011_putc` has stored or holds those that were given to it.  When no two callers are between
their look at the flag and their write, every store finds room, so that all of it is sent. -/
theorem uart_echoes (g : Config) (l : List (UartEvent ι)) :
    let u := (start : Uart ι).run g l
    let w := (start : Uart ι).writes g l
    let came := echo ((start : Uart ι).arrivals g l)
    (u.port.sent = found false w ∧ u.port.lost = found true w) ∧
    (came = ofCaller none (w.map Prod.fst) ++ u.irq.putcPc.held ++ echo u.port.rx ∧
      ∀ i, u.passed i = ofCaller (some i) (w.map Prod.fst) ++ (u.putc i).held) ∧
    ((start : Uart ι).Orderly g l → (∀ x ∈ w, x.2 = false) ∧
      came = ofCaller none u.port.sent ++ u.irq.putcPc.held ++ echo u.port.rx ∧
      ∀ i, u.passed i = ofCaller (some i) u.port.sent ++ (u.putc i).held) := by
  intro u w came
  have A : u.Accounts w := accounts_run l
  have hcame : came = ofCaller none (w.map Prod.fst) ++ u.irq.putcPc.held ++ echo u.port.rx := by
    have hgiven : echo u.port.taken = ofCaller none (w.map Prod.fst) ++ u.irq.putcPc.held :=
      A.given none
    rw [← hgiven, ← echo_append, ← Port.accepted, accepted_run]
  have hpassed : ∀ i, u.passed i = ofCaller (some i) (w.map Prod.fst) ++ (u.putc i).held :=
    fun i => A.given (some i)
  refine ⟨⟨A.sent, A.lost⟩, ⟨hcame, hpassed⟩, fun hone => ?_⟩
  have hnone : found true w = [] := A.lost.symm.trans (spacious_run hone).lost
  obtain ⟨hall, hfound⟩ := found_of_none hnone
  have hsent : u.port.sent = w.map Prod.fst := A.sent.trans hfound
  rw [hsent]
  exact ⟨hall, hcame, hpassed⟩

/-- A port of two characters. -/
def portOfTwo : Config := ⟨2, 1, by decide, by decide⟩

/-- A core prints while a character comes in and another one follows, and then the handler sends
both back. -/
def printAndEcho : List (UartEvent (Fin 1)) :=
  [.receive 0x61, .call 0 0x3e, .put 0, .receive 0x62, .put 0] ++ List.replicate 6 .turn ++
    [.transmit, .transmit] ++ List.replicate 6 .turn

/-- The core has written when the handler writes. -/
theorem orderly_printAndEcho : (start : Uart (Fin 1)).Orderly portOfTwo printAndEcho := by
  decide +kernel

/-- One writer at a time, so that all of it is sent. -/
theorem uart_echoes_orderly :
    ofCaller none ((start : Uart (Fin 1)).run portOfTwo printAndEcho).port.sent = [0x61, 0x62] ∧
    ofCaller (some 0) ((start : Uart (Fin 1)).run portOfTwo printAndEcho).port.sent = [0x3e] := by
  obtain ⟨_, hcame, hpassed⟩ := (uart_echoes portOfTwo printAndEcho).2.2 orderly_printAndEcho
  have hgiven := hpassed 0
  generalize hu : (start : Uart (Fin 1)).run portOfTwo printAndEcho = u at hcame hgiven ⊢
  -- nothing is on its way at the end
  have hheld : u.irq.putcPc.held = [] ∧ (u.putc 0).held = [] ∧ u.port.rx = [] ∧
      u.passed 0 = [0x3e] := by
    rw [← hu]
    decide +kernel
  have hin : echo ((start : Uart (Fin 1)).arrivals portOfTwo printAndEcho) = [0x61, 0x62] := by
    decide +kernel
  obtain ⟨hhandler, hcaller, hwaits, hprinted⟩ := hheld
  rw [hin, hhandler, hwaits, echo, List.map_nil, List.append_nil, List.append_nil] at hcame
  rw [hprinted, hcaller, List.append_nil] at hgiven
  exact ⟨hcame.symm, hgiven.symm⟩

/-- Two cores look at the flag of a FIFO with one free place, and both write: the second character
is lost. -/
example :
    let l : List (UartEvent (Fin 2)) :=
      [.call 0 0x61, .call 1 0x62, .put 0, .put 1, .put 0, .put 1]
    let u := (start : Uart (Fin 2)).run ⟨1, 1, by decide, by decide⟩ l
    u.port.sent = [(some 0, 0x61)] ∧ u.port.lost = [(some 1, 0x62)] := by
  decide

/-- **When the interrupt is lost.**  In every run the receive interrupt is raised exactly while the
receive FIFO is at its level, or it is lost; and it is lost if and only if at some store to
`PL011ICR` the FIFO was at its level already, with characters that came in after the handler had
looked last.  From then on nothing is read in any continuation of the run, also when the handler is
called again.  While the interrupt is not lost and calls for the handler, its steps and those of
the sending side can take all that is there. -/
theorem uart_stalls (g : Config) (l : List (UartEvent ι)) :
    let u := (start : Uart ι).run g l
    (u.port.Awake g ∨ u.port.Stalled g) ∧
    (u.port.Stalled g ↔ ClearedFull g (start : Uart ι) l) ∧
    (u.port.Stalled g → ∀ l', (u.run g l').port.taken = u.port.taken ∧
      (u.run g l').port.Stalled g) ∧
    (u.irq = .idle → u.port.Awake g → g.trigger ≤ u.port.rx.length → ∃ l', Alone l' ∧
      (u.run g l').irq = .idle ∧ (u.run g l').port.rx = [] ∧
      (u.run g l').port.taken = u.port.accepted) := by
  intro u
  have hcases := awake_or_lost (g := g) (ι := ι) l
  have hlost : u.port.Stalled g → Lost g u := fun hst =>
    hcases.elim (fun h => absurd hst h.1.not_stalled) And.left
  refine ⟨?_, ⟨fun hst => ?_, fun hex => ?_⟩, fun hst l' => ?_, fun hidle hawake hle => ?_⟩
  · exact hcases.imp And.left fun h => h.1.stalled
  · exact hcases.elim (fun h => absurd hst h.1.not_stalled) And.right
  · exact hcases.elim (fun h => absurd hex h.2) fun h => h.1.stalled
  · obtain ⟨h, htaken⟩ := (hlost hst).run l'
    exact ⟨htaken, h.stalled⟩
  · have hcalled : u.run g [.turn, .turn] = { u with irq := .getcFlag } := by
      simp only [run, List.foldl_cons, List.foldl_nil, step, turn, hidle, hawake.mpr hle, if_true]
    obtain ⟨l₁, h₁, hclear, hnil, hacc⟩ :=
      exists_served (g := g) _ (u.run g [.turn, .turn]) (by rw [hcalled]) rfl
    refine ⟨[.turn, .turn] ++ (l₁ ++ [.turn]), ?_, ?_⟩
    · exact Alone.append (by simp [Alone]) (h₁.append (by simp [Alone]))
    · rw [run_append, run_append, run_singleton, Clears.step (e := .turn) ⟨rfl, hclear⟩]
      have hall := hacc.trans (congrArg (fun u : Uart ι => u.port.accepted) hcalled)
      rw [Port.accepted, hnil, List.append_nil] at hall
      exact ⟨rfl, hnil, hall⟩

/-- A FIFO of one character.  The second one comes in between the last look of the handler and its
store to `PL011ICR`, and is never sent back. -/
theorem uart_stalls_between :
    let g : Config := ⟨1, 1, by decide, by decide⟩
    let l : List (UartEvent (Fin 1)) :=
      [.receive 0x61] ++ List.replicate 7 .turn ++ [.receive 0x62, .turn]
    let u := (start : Uart (Fin 1)).run g l
    u.port.Stalled g ∧ ∀ l', (u.run g l').port.taken = [0x61] ∧ (u.run g l').port.Stalled g := by
  intro g l u
  have hst : u.port.Stalled g := by
    rw [Port.Stalled]
    decide
  exact ⟨hst, (uart_stalls g l).2.2.1 hst⟩

end main

end Xhyper
