import Mathlib.Data.Nat.Notation
import Mathlib.Data.Set.Function
import Mathlib.Tactic.Ring

/-!
# Byte-addressed memory

A memory gives a byte at every address.  Words are little-endian: `readLe m a n`
is the number the `n` bytes from `a` spell, `writeLe m a n v` stores the low `n`
bytes of `v` there.  `fill` and `copy` are the two bulk writes, the second one
byte at a time and in increasing order, so that an overlapping copy has the
meaning the byte loop gives it.

Two memories that agree on a set of addresses are compared with `Set.EqOn`; the
frame lemmas below say which addresses a read looks at and a write changes.

## Main definitions

* `Mem` — a memory.
* `readLe`, `writeLe` — little-endian words.
* `fill`, `copy` — bulk writes.
* `block` — the addresses of a run of bytes.
-/

namespace Memory

/-- A byte. -/
abbrev Byte := BitVec 8

/-- A byte at every address. -/
abbrev Mem := ℕ → Byte

/-- The `n` addresses from `a`. -/
def block (a n : ℕ) : Set ℕ := {x | a ≤ x ∧ x < a + n}

@[simp] theorem mem_block {a n x : ℕ} : x ∈ block a n ↔ a ≤ x ∧ x < a + n := Iff.rfl

/-- A block within another one. -/
theorem block_subset {a b n k : ℕ} (h : b ≤ a) (h' : a + n ≤ b + k) : block a n ⊆ block b k :=
  fun _ hx => ⟨h.trans hx.1, hx.2.trans_le h'⟩

/-! ## Words -/

/-- The number spelled by the `n` bytes from `a`, least significant first. -/
def readLe (m : Mem) (a : ℕ) : ℕ → ℕ
  | 0 => 0
  | n + 1 => (m a).toNat + 256 * readLe m (a + 1) n

/-- Store the low `n` bytes of `v` at `a`, least significant first. -/
def writeLe (m : Mem) (a n v : ℕ) : Mem := fun x =>
  if a ≤ x ∧ x < a + n then BitVec.ofNat 8 (v / 256 ^ (x - a)) else m x

theorem readLe_lt (m : Mem) (a n : ℕ) : readLe m a n < 256 ^ n := by
  induction n generalizing a with
  | zero => simp [readLe]
  | succ n ih =>
      have hb : (m a).toNat < 256 := (m a).isLt
      have hr := ih (a + 1)
      have hpow : 256 ^ (n + 1) = 256 * 256 ^ n := by ring
      simp only [readLe]
      omega

/-- A word is read from its own bytes only. -/
theorem readLe_congr {m m' : Mem} {a n : ℕ} (h : Set.EqOn m m' (block a n)) :
    readLe m a n = readLe m' a n := by
  induction n generalizing a with
  | zero => rfl
  | succ n ih =>
      have htail : Set.EqOn m m' (block (a + 1) n) := by
        intro x hx
        exact h (by simp only [mem_block] at hx ⊢; omega)
      simp only [readLe, ih htail, h (show a ∈ block a (n + 1) by simp)]

theorem writeLe_of_mem {m : Mem} {a n v x : ℕ} (h : x ∈ block a n) :
    writeLe m a n v x = BitVec.ofNat 8 (v / 256 ^ (x - a)) := if_pos h

theorem writeLe_of_notMem {m : Mem} {a n v x : ℕ} (h : x ∉ block a n) :
    writeLe m a n v x = m x := if_neg h

theorem eqOn_writeLe (m : Mem) (a n v : ℕ) : Set.EqOn (writeLe m a n v) m (block a n)ᶜ :=
  fun _ hx => writeLe_of_notMem hx

private theorem readLe_writeLe_from (m : Mem) (a n v : ℕ) :
    ∀ k i, i + k = n → readLe (writeLe m a n v) (a + i) k = v / 256 ^ i % 256 ^ k := by
  intro k
  induction k with
  | zero => intro i _; simp [readLe, Nat.mod_one]
  | succ k ih =>
      intro i hi
      have hmem : a + i ∈ block a n := by simp only [mem_block]; omega
      have hrest := ih (i + 1) (by omega)
      have hpow : (256 : ℕ) ^ (k + 1) = 256 * 256 ^ k := by ring
      have hdiv : v / 256 ^ (i + 1) = v / 256 ^ i / 256 := by
        rw [pow_succ, Nat.div_div_eq_div_mul]
      rw [readLe, writeLe_of_mem hmem, Nat.add_sub_cancel_left, BitVec.toNat_ofNat,
        Nat.add_assoc, hrest, hdiv, hpow, Nat.mod_mul]

/-- A word read back is the word written, cut to its width. -/
theorem readLe_writeLe (m : Mem) (a n v : ℕ) :
    readLe (writeLe m a n v) a n = v % 256 ^ n := by
  simpa using readLe_writeLe_from m a n v n 0 (by omega)

/-- A write to other bytes is not seen by a read. -/
theorem readLe_writeLe_of_disjoint (m : Mem) {a n v b k : ℕ} (h : b + k ≤ a ∨ a + n ≤ b) :
    readLe (writeLe m a n v) b k = readLe m b k := by
  refine readLe_congr fun x hx => writeLe_of_notMem ?_
  simp only [mem_block] at hx ⊢
  omega

/-- The 64-bit word at `a`. -/
abbrev read64 (m : Mem) (a : ℕ) : ℕ := readLe m a 8

/-- Store a 64-bit word at `a`. -/
abbrev write64 (m : Mem) (a v : ℕ) : Mem := writeLe m a 8 v

theorem read64_lt (m : Mem) (a : ℕ) : read64 m a < 2 ^ 64 := by
  simpa using readLe_lt m a 8

theorem read64_write64 (m : Mem) (a : ℕ) {v : ℕ} (h : v < 2 ^ 64) :
    read64 (write64 m a v) a = v := by
  rw [read64, write64, readLe_writeLe]
  exact Nat.mod_eq_of_lt (by simpa using h)

theorem read64_write64_of_disjoint (m : Mem) {a b v : ℕ} (h : b + 8 ≤ a ∨ a + 8 ≤ b) :
    read64 (write64 m a v) b = read64 m b :=
  readLe_writeLe_of_disjoint m h

/-! ## Filling and copying -/

/-- Store `c` in the `n` bytes from `a`. -/
def fill (m : Mem) (a n : ℕ) (c : Byte) : Mem := fun x =>
  if a ≤ x ∧ x < a + n then c else m x

theorem fill_of_mem {m : Mem} {a n x : ℕ} {c : Byte} (h : x ∈ block a n) :
    fill m a n c x = c := if_pos h

theorem fill_of_notMem {m : Mem} {a n x : ℕ} {c : Byte} (h : x ∉ block a n) :
    fill m a n c x = m x := if_neg h

theorem eqOn_fill (m : Mem) (a n : ℕ) (c : Byte) : Set.EqOn (fill m a n c) m (block a n)ᶜ :=
  fun _ hx => fill_of_notMem hx

theorem readLe_eq_zero {m : Mem} {a k : ℕ} (h : ∀ x ∈ block a k, m x = 0) :
    readLe m a k = 0 := by
  induction k generalizing a with
  | zero => rfl
  | succ k ih =>
      have htail : ∀ x ∈ block (a + 1) k, m x = 0 := by
        intro x hx
        exact h x (by simp only [mem_block] at hx ⊢; omega)
      have hhead : m a = 0 := h a (by simp)
      simp [readLe, ih htail, hhead]

/-- A word inside a zeroed run is zero. -/
theorem readLe_fill_zero (m : Mem) {a n b k : ℕ} (hlo : a ≤ b) (hhi : b + k ≤ a + n) :
    readLe (fill m a n 0) b k = 0 := by
  refine readLe_eq_zero fun x hx => fill_of_mem ?_
  simp only [mem_block] at hx ⊢
  omega

/-- Copy `n` bytes from `src` to `dst`, one byte at a time from the front. -/
def copy (m : Mem) (dst src : ℕ) : ℕ → Mem
  | 0 => m
  | n + 1 => copy (Function.update m dst (m src)) (dst + 1) (src + 1) n

theorem copy_of_notMem {m : Mem} {dst src n x : ℕ} (h : x ∉ block dst n) :
    copy m dst src n x = m x := by
  induction n generalizing m dst src with
  | zero => rfl
  | succ n ih =>
      have hne : x ≠ dst := fun hx => h (by simp [hx])
      have htail : x ∉ block (dst + 1) n := fun hx =>
        h (by simp only [mem_block] at hx ⊢; omega)
      rw [copy, ih htail, Function.update_of_ne hne]

/-- A copy between disjoint runs puts byte `i` of the source at byte `i` of the
destination. -/
theorem copy_of_mem {m : Mem} {dst src n i : ℕ} (hdisj : src + n ≤ dst ∨ dst + n ≤ src)
    (hi : i < n) : copy m dst src n (dst + i) = m (src + i) := by
  induction n generalizing m dst src i with
  | zero => exact absurd hi (Nat.not_lt_zero i)
  | succ n ih =>
      rw [copy]
      cases i with
      | zero =>
          have hout : dst + 0 ∉ block (dst + 1) n := by simp
          rw [copy_of_notMem hout]
          simp
      | succ i =>
          have hsrc : src + 1 + i ≠ dst := by omega
          have hstep : copy (Function.update m dst (m src)) (dst + 1) (src + 1) n (dst + 1 + i)
              = m (src + 1 + i) := by
            rw [ih (by omega) (by omega), Function.update_of_ne hsrc]
          rw [Nat.add_right_comm dst 1 i, Nat.add_right_comm src 1 i] at hstep
          exact hstep

/-- A copy, overlapping or not, leaves its destination as it is when the bytes are there
already, and only then. -/
theorem copy_eq_iff {m : Mem} {dst src n : ℕ} :
    (∀ j < n, copy m dst src n (dst + j) = m (dst + j)) ↔ ∀ j < n, m (dst + j) = m (src + j) := by
  induction n generalizing dst src with
  | zero => simp
  | succ n ih =>
      have hfirst : copy m dst src (n + 1) dst = m src := by
        have hout : dst ∉ block (dst + 1) n := by simp
        rw [copy, copy_of_notMem hout, Function.update_self]
      -- with the first byte in place the rest is a copy of the same memory
      have hsplit : ∀ P : ℕ → Prop, (∀ j < n + 1, P j) ↔ P 0 ∧ ∀ j < n, P (j + 1) := by
        intro P
        constructor
        · exact fun h => ⟨h 0 (Nat.succ_pos n), fun j hj => h (j + 1) (Nat.succ_lt_succ hj)⟩
        · rintro ⟨h0, h⟩ (_ | j) hj
          · exact h0
          · exact h j (Nat.lt_of_succ_lt_succ hj)
      have hrest : m dst = m src →
          ((∀ j < n, copy m dst src (n + 1) (dst + (j + 1)) = m (dst + (j + 1))) ↔
            ∀ j < n, m (dst + (j + 1)) = m (src + (j + 1))) := by
        intro heq
        rw [copy, ← heq, Function.update_eq_self]
        have htail := @ih (dst + 1) (src + 1)
        simpa only [Nat.add_assoc, Nat.add_comm 1] using htail
      rw [hsplit fun j => copy m dst src (n + 1) (dst + j) = m (dst + j),
        hsplit fun j => m (dst + j) = m (src + j)]
      have hzero : copy m dst src (n + 1) (dst + 0) = m (dst + 0) ↔ m (dst + 0) = m (src + 0) := by
        change copy m dst src (n + 1) dst = m dst ↔ m dst = m src
        rw [hfirst, eq_comm]
      rw [hzero]
      exact and_congr_right hrest

/-! ## Bytes here and there -/

theorem writeLe_byte (m : Mem) (a v : ℕ) :
    writeLe m a 1 v = Function.update m a (BitVec.ofNat 8 v) := by
  ext1 x
  by_cases hx : x = a
  · subst hx
    simp [writeLe]
  · have hout : ¬ (a ≤ x ∧ x < a + 1) := by omega
    rw [writeLe, if_neg hout, Function.update_of_ne hx]

theorem readLe_byte (m : Mem) (a : ℕ) : readLe m a 1 = (m a).toNat := by
  simp [readLe]

/-- Of the first `k` places `addr i`, set those that are selected. -/
def scatter (m : Mem) (addr : ℕ → ℕ) (sel : ℕ → Bool) (b : ℕ → Byte) : ℕ → Mem
  | 0 => m
  | k + 1 =>
      if sel k then Function.update (scatter m addr sel b k) (addr k) (b k)
      else scatter m addr sel b k

section scatter
variable {m : Mem} {addr : ℕ → ℕ} {sel : ℕ → Bool} {b : ℕ → Byte} {k i x : ℕ}

theorem scatter_of_notMem (h : ∀ i < k, sel i = true → x ≠ addr i) :
    scatter m addr sel b k x = m x := by
  induction k with
  | zero => rfl
  | succ k ih =>
      have hrest := ih fun i hi => h i (Nat.lt_succ_of_lt hi)
      rw [scatter]
      by_cases hk : sel k = true
      · rw [if_pos hk, Function.update_of_ne (h k (Nat.lt_succ_self k) hk), hrest]
      · rw [if_neg hk, hrest]

theorem scatter_of_mem (hinj : ∀ i < k, ∀ j < k, addr i = addr j → i = j) (hi : i < k)
    (hs : sel i = true) : scatter m addr sel b k (addr i) = b i := by
  induction k with
  | zero => exact absurd hi (Nat.not_lt_zero i)
  | succ k ih =>
      rw [scatter]
      by_cases hik : i = k
      · subst hik
        rw [if_pos hs, Function.update_self]
      · have hne : addr i ≠ addr k := fun h => hik (hinj i hi k (Nat.lt_succ_self k) h)
        have hrest := ih (fun i hi j hj => hinj i (Nat.lt_succ_of_lt hi) j (Nat.lt_succ_of_lt hj))
          (by omega)
        by_cases hk : sel k = true
        · rw [if_pos hk, Function.update_of_ne hne, hrest]
        · rw [if_neg hk, hrest]

/-- The places of `A` are left if those of them that are set have their bytes already. -/
theorem eqOn_scatter {A : Set ℕ} (h : ∀ i < k, sel i = true → addr i ∈ A → m (addr i) = b i) :
    Set.EqOn (scatter m addr sel b k) m A := by
  induction k with
  | zero => exact Set.eqOn_refl _ _
  | succ k ih =>
      have hrest := ih fun i hi => h i (Nat.lt_succ_of_lt hi)
      intro x hx
      rw [scatter]
      by_cases hk : sel k = true
      · rw [if_pos hk]
        by_cases hxk : x = addr k
        · subst hxk
          rw [Function.update_self, h k (Nat.lt_succ_self k) hk hx]
        · rw [Function.update_of_ne hxk, hrest hx]
      · rw [if_neg hk, hrest hx]

/-- And only then, if they are different. -/
theorem eqOn_scatter_iff {A : Set ℕ} (hinj : ∀ i < k, ∀ j < k, addr i = addr j → i = j) :
    Set.EqOn (scatter m addr sel b k) m A ↔
      ∀ i < k, sel i = true → addr i ∈ A → m (addr i) = b i := by
  constructor
  · intro h i hi hs hA
    rw [← h hA, scatter_of_mem hinj hi hs]
  · exact eqOn_scatter

end scatter

end Memory
