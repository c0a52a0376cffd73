import Mathlib.Data.Nat.Notation
import Mathlib.Data.List.Basic

/-!
# A serial port

A port with a FIFO for each direction and an interrupt for what it received.  The interrupt is
raised when the receive FIFO reaches its trigger level, and withdrawn when it falls below the
level or when software clears it.  It is not raised again while the FIFO stays at the level or
above.

The characters on the sending side are of any type, so that they can carry a mark of their writer.

## Main definitions

* `Config`, `Port` — a port.
* `Port.receive`, `Port.transmit` — what happens on the wire.
* `Port.readData`, `Port.write`, `Port.clear` — what software does.
* `Port.Awake`, `Port.Stalled` — whether the interrupt tells of what is there.
-/

namespace Serial

/-- The sizes of a port. -/
structure Config where
  /-- The characters that a FIFO holds. -/
  depth : ℕ
  /-- How many received characters raise the interrupt. -/
  trigger : ℕ
  trigger_pos : 0 < trigger
  trigger_le : trigger ≤ depth

/-- A port that receives `ρ` and sends `τ`.  Lists are in the order of time, oldest first. -/
structure Port (ρ τ : Type) where
  /-- The receive FIFO. -/
  rx : List ρ
  /-- The transmit FIFO. -/
  tx : List τ
  /-- The receive interrupt. -/
  ris : Bool
  /-- What software has read. -/
  taken : List ρ
  /-- What has left on the wire. -/
  line : List τ
  /-- What was written while the transmit FIFO was full. -/
  lost : List τ

namespace Port

variable {ρ τ : Type}

/-- A port that nothing has happened to. -/
def empty : Port ρ τ := ⟨[], [], false, [], [], []⟩

/-- What came in and found room. -/
def accepted (p : Port ρ τ) : List ρ := p.taken ++ p.rx

/-- What was written and found room. -/
def sent (p : Port ρ τ) : List τ := p.line ++ p.tx

section operations
variable (g : Config) (p : Port ρ τ)

/-- The transmit FIFO is full. -/
def full : Bool := decide (g.depth ≤ p.tx.length)

/-- A character comes in.  Without room it is an overrun, and nothing changes. -/
def receive (c : ρ) : Port ρ τ :=
  if p.rx.length < g.depth then
    { p with rx := p.rx ++ [c], ris := p.ris || decide (p.rx.length + 1 = g.trigger) }
  else p

/-- The oldest character leaves. -/
def transmit : Port ρ τ :=
  match p.tx with
  | [] => p
  | c :: tx => { p with tx := tx, line := p.line ++ [c] }

/-- Software takes the oldest character. -/
def readData : Port ρ τ :=
  match p.rx with
  | [] => p
  | c :: rx =>
      { p with rx := rx, taken := p.taken ++ [c], ris := p.ris && decide (g.trigger ≤ rx.length) }

/-- Software writes a character. -/
def write (c : τ) : Port ρ τ :=
  if p.full g then { p with lost := p.lost ++ [c] } else { p with tx := p.tx ++ [c] }

/-- Software clears the interrupt. -/
def clear : Port ρ τ := { p with ris := false }

end operations

/-! ## What is kept -/

section kept
variable {g : Config} {p : Port ρ τ}

@[simp] theorem receive_taken (c : ρ) : (p.receive g c).taken = p.taken := by
  rw [receive]
  split <;> rfl

@[simp] theorem receive_sent (c : ρ) : (p.receive g c).sent = p.sent := by
  rw [receive]
  split <;> rfl

@[simp] theorem receive_tx (c : ρ) : (p.receive g c).tx = p.tx := by
  rw [receive]
  split <;> rfl

@[simp] theorem receive_lost (c : ρ) : (p.receive g c).lost = p.lost := by
  rw [receive]
  split <;> rfl

/-- What came in is kept, and a new character comes last. -/
theorem receive_accepted (c : ρ) : (p.receive g c).accepted =
    p.accepted ++ if p.rx.length < g.depth then [c] else [] := by
  rw [receive]
  split <;> simp [accepted]

@[simp] theorem transmit_rx : p.transmit.rx = p.rx := by
  rw [transmit]
  split <;> rfl

@[simp] theorem transmit_ris : p.transmit.ris = p.ris := by
  rw [transmit]
  split <;> rfl

@[simp] theorem transmit_taken : p.transmit.taken = p.taken := by
  rw [transmit]
  split <;> rfl

@[simp] theorem transmit_lost : p.transmit.lost = p.lost := by
  rw [transmit]
  split <;> rfl

/-- A character that leaves is neither new nor gone. -/
@[simp] theorem transmit_sent : p.transmit.sent = p.sent := by
  rw [transmit]
  split
  · rfl
  · next htx => simp [sent, htx]

theorem transmit_tx_length : p.transmit.tx.length ≤ p.tx.length := by
  rw [transmit]
  split
  · exact Nat.le_refl _
  · next htx => simp [htx]

@[simp] theorem readData_sent : (p.readData g).sent = p.sent := by
  rw [readData]
  split <;> rfl

@[simp] theorem readData_tx : (p.readData g).tx = p.tx := by
  rw [readData]
  split <;> rfl

@[simp] theorem readData_lost : (p.readData g).lost = p.lost := by
  rw [readData]
  split <;> rfl

/-- A character that is read is neither new nor gone. -/
@[simp] theorem readData_accepted : (p.readData g).accepted = p.accepted := by
  rw [readData]
  split
  · rfl
  · next hrx => simp [accepted, hrx]

theorem readData_rx {c : ρ} {rx : List ρ} (h : p.rx = c :: rx) : (p.readData g).rx = rx := by
  rw [readData, h]

/-- Reading takes the first character of the FIFO. -/
theorem readData_taken {c : ρ} {rx : List ρ} (h : p.rx = c :: rx) :
    (p.readData g).taken = p.taken ++ [c] := by
  rw [readData, h]

@[simp] theorem write_rx (c : τ) : (p.write g c).rx = p.rx := by
  rw [write]
  split <;> rfl

@[simp] theorem write_ris (c : τ) : (p.write g c).ris = p.ris := by
  rw [write]
  split <;> rfl

@[simp] theorem write_taken (c : τ) : (p.write g c).taken = p.taken := by
  rw [write]
  split <;> rfl

/-- With room, a character that is written comes last. -/
theorem write_of_room {c : τ} (h : p.full g = false) :
    p.write g c = { p with tx := p.tx ++ [c] } := by
  rw [write, if_neg (by simp [h])]

/-- Without room it is lost. -/
theorem write_of_full {c : τ} (h : p.full g = true) :
    p.write g c = { p with lost := p.lost ++ [c] } := by
  rw [write, if_pos h]

end kept

/-! ## The interrupt -/

section interrupt
variable (g : Config) (p : Port ρ τ)

/-- The interrupt is raised exactly while the receive FIFO is at its level. -/
def Awake : Prop := p.ris = true ↔ g.trigger ≤ p.rx.length

/-- The receive FIFO is at its level without an interrupt. -/
def Stalled : Prop := g.trigger ≤ p.rx.length ∧ p.ris = false

variable {g p}

theorem awake_empty : (empty : Port ρ τ).Awake g := by
  have hpos := g.trigger_pos
  simp [Awake, empty]
  omega

theorem Awake.not_stalled (h : p.Awake g) : ¬ p.Stalled g := by
  rintro ⟨hle, hris⟩
  rw [h.mpr hle] at hris
  cases hris

theorem Awake.receive (h : p.Awake g) (c : ρ) : (p.receive g c).Awake g := by
  rw [Port.receive]
  split
  · have hlevel : p.ris = true ↔ g.trigger ≤ p.rx.length := h
    simp only [Awake, Bool.or_eq_true, decide_eq_true_eq, List.length_append, List.length_singleton]
    rw [hlevel]
    omega
  · exact h

theorem Awake.readData (h : p.Awake g) : (p.readData g).Awake g := by
  rw [Port.readData]
  split
  · exact h
  · next c rx hrx =>
      have hlevel : p.ris = true ↔ g.trigger ≤ p.rx.length := h
      simp only [Awake, Bool.and_eq_true, decide_eq_true_eq]
      rw [hlevel, hrx, List.length_cons]
      omega

/-- Clearing the interrupt is right below the level only. -/
theorem awake_clear_iff : p.clear.Awake g ↔ p.rx.length < g.trigger := by
  simp [Awake, clear]

theorem stalled_clear_iff : p.clear.Stalled g ↔ g.trigger ≤ p.rx.length := by
  simp [Stalled, clear]

/-- Nothing that comes in ends a stall: the FIFO does not reach its level again. -/
theorem Stalled.receive (h : p.Stalled g) (c : ρ) : (p.receive g c).Stalled g := by
  obtain ⟨hle, hris⟩ := h
  rw [Port.receive]
  split
  · refine ⟨?_, ?_⟩
    · simp only [List.length_append, List.length_singleton]
      omega
    · have hne : p.rx.length + 1 ≠ g.trigger := by omega
      simp [hris, hne]
  · exact ⟨hle, hris⟩

theorem Stalled.clear (h : p.Stalled g) : p.clear.Stalled g := stalled_clear_iff.mpr h.1

theorem awake_congr {q : Port ρ τ} (hrx : q.rx = p.rx) (hris : q.ris = p.ris) :
    q.Awake g ↔ p.Awake g := by
  rw [Awake, Awake, hrx, hris]

theorem stalled_congr {q : Port ρ τ} (hrx : q.rx = p.rx) (hris : q.ris = p.ris) :
    q.Stalled g ↔ p.Stalled g := by
  rw [Stalled, Stalled, hrx, hris]

end interrupt

end Port

end Serial
