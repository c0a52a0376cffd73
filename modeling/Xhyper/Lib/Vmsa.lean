import Mathlib.Data.Nat.Bitwise
import Xhyper.Lib.Memory

/-!
# Stage-2 translation

What a 64-bit core does with an intermediate physical address: it reads descriptors from memory,
one for each level, as its control registers say.  The granule is 4 KiB, and a table is not
concatenated with its neighbours.  A walk ends at a page, at a block, or with a fault that says at
which level; the table lookaside buffer is empty.

Registers and descriptors are numbers.

## Main definitions

* `Access`, `WalkFault`, `Found` — what a walk is for and what comes out.
* `Regime` — the fields of the translation control register.
* `walkFrom`, `translate` — the walk from a descriptor, and from the registers.
* `walkFrom_table`, `walkFrom_page`, `walkFrom_invalid` — one level at a time.
-/

namespace Vmsa

open Memory

/-- What memory is accessed for. -/
inductive Access
  | read
  | write
  | fetch
  deriving DecidableEq, Repr

/-- Why a translation fails, and at which level. -/
inductive WalkFault
  | translation (level : ℕ)
  | addressSize (level : ℕ)
  | accessFlag (level : ℕ)
  | permission (level : ℕ)
  deriving DecidableEq, Repr

/-- The physical address, and the attributes of the descriptor it comes from. -/
structure Found where
  pa : ℕ
  attr : ℕ
  deriving DecidableEq, Repr

/-! ## Control registers -/

/-- What the translation control register says. -/
structure Regime where
  /-- Intermediate addresses are below `2 ^ inBits`. -/
  inBits : ℕ
  /-- The first level that is looked up. -/
  start : ℕ
  /-- Physical addresses are below `2 ^ outBits`. -/
  outBits : ℕ
  deriving DecidableEq, Repr

/-- The field `PS`. -/
def physicalSize (ps : ℕ) : ℕ :=
  match ps with
  | 0 => 32
  | 1 => 36
  | 2 => 40
  | 3 => 42
  | 4 => 44
  | _ => 48

/-- The fields of `VTCR_EL2`, for the granule of 4 KiB. -/
def Regime.ofVtcr (vtcr : ℕ) : Regime where
  inBits := 64 - vtcr % 2 ^ 6
  start := 2 - vtcr / 2 ^ 6 % 4
  outBits := physicalSize (vtcr / 2 ^ 16 % 8)

/-- `HCR_EL2.VM`: stage 2 is on. -/
def vmOn (hcr : ℕ) : Prop := hcr.testBit 0 = true

instance (hcr : ℕ) : Decidable (vmOn hcr) := inferInstanceAs (Decidable (_ = _))

/-! ## Descriptors -/

/-- The bits `[47:k]`. -/
def field47 (k d : ℕ) : ℕ := d % 2 ^ 48 / 2 ^ k * 2 ^ k

/-- The attributes: what is not of the address. -/
def attrOf (d : ℕ) : ℕ := d &&& 0xFFFF000000000FFF

/-- The access permission bits allow the access. -/
def permits (d : ℕ) : Access → Prop
  | .read => d.testBit 6 = true
  | .write => d.testBit 7 = true
  | .fetch => d.testBit 54 = false

instance (d : ℕ) (k : Access) : Decidable (permits d k) := by
  cases k <;> exact inferInstanceAs (Decidable (_ = _))

/-- The end of a walk at the descriptor `d`, which maps `2 ^ bits` bytes. -/
def finish (outBits level bits ipa d : ℕ) (k : Access) : Except WalkFault Found :=
  if 2 ^ outBits ≤ field47 bits d then .error (.addressSize level)
  else if d.testBit 10 = false then .error (.accessFlag level)
  else if permits d k then .ok ⟨field47 bits d + ipa % 2 ^ bits, attrOf d⟩
  else .error (.permission level)

/-! ## The walk -/

/-- From the descriptor at `a`, with `n` levels below its own. -/
def walkFrom (m : Mem) (outBits ipa : ℕ) (k : Access) : ℕ → ℕ → Except WalkFault Found
  | 0, a =>
      if read64 m a % 4 = 3 then finish outBits 3 12 ipa (read64 m a) k
      else .error (.translation 3)
  | n + 1, a =>
      let d := read64 m a
      let level := 2 - n
      if d % 2 = 0 then .error (.translation level)
      else if d % 4 = 3 then
        if 2 ^ outBits ≤ field47 12 d then .error (.addressSize level)
        else walkFrom m outBits ipa k n (field47 12 d + 8 * (ipa / 2 ^ (12 + 9 * n) % 512))
      else if level = 0 then .error (.translation level)
      else finish outBits level (12 + 9 * (n + 1)) ipa d k

/-- What a core makes of the intermediate address `ipa` with the values of `HCR_EL2`, `VTCR_EL2`
and `VTTBR_EL2`. -/
def translate (hcr vtcr vttbr : ℕ) (m : Mem) (ipa : ℕ) (k : Access) : Except WalkFault Found :=
  let R := Regime.ofVtcr vtcr
  let shift := 39 - 9 * R.start
  let base := field47 (R.inBits - shift + 3) vttbr
  if ¬ vmOn hcr then .ok ⟨ipa, 0⟩
  else if 2 ^ R.inBits ≤ ipa then .error (.translation R.start)
  else if 2 ^ R.outBits ≤ base then .error (.addressSize 0)
  else walkFrom m R.outBits ipa k (3 - R.start) (base + 8 * (ipa / 2 ^ shift))

section walk
variable {m : Mem} {outBits ipa n a : ℕ} {k : Access}

/-- A descriptor whose bit 0 is not set ends the walk. -/
theorem walkFrom_invalid (h : read64 m a % 2 = 0) :
    walkFrom m outBits ipa k n a = .error (.translation (3 - n)) := by
  cases n with
  | zero => simp only [walkFrom, if_neg (show ¬ read64 m a % 4 = 3 by omega), Nat.sub_zero]
  | succ n => simp only [walkFrom, if_pos h, Nat.add_sub_add_right 2 1 n]

/-- A table descriptor goes on at the next level. -/
theorem walkFrom_table (h : read64 m a % 4 = 3) (hout : field47 12 (read64 m a) < 2 ^ outBits) :
    walkFrom m outBits ipa k (n + 1) a = walkFrom m outBits ipa k n
      (field47 12 (read64 m a) + 8 * (ipa / 2 ^ (12 + 9 * n) % 512)) := by
  rw [walkFrom]
  simp only [if_neg (show ¬ read64 m a % 2 = 0 by omega), if_pos h,
    if_neg (show ¬ 2 ^ outBits ≤ field47 12 (read64 m a) by omega)]

/-- A page descriptor ends it. -/
theorem walkFrom_page (h : read64 m a % 4 = 3) :
    walkFrom m outBits ipa k 0 a = finish outBits 3 12 ipa (read64 m a) k := by
  rw [walkFrom, if_pos h]

end walk

end Vmsa
