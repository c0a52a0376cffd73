import Xhyper.Lib.Vmsa
import Xhyper.Machine
import Xhyper.Mapping

/-!
# What a core makes of the tables

`stage2_mmu_init` and `hyper_setup` say in the control registers of a core how it walks the tables
that `create_guest_mapping` fills.  `page_walk` knows the same four levels, but reads them with
software: it takes nine bits of the address for each level and looks at two bits of an entry.  A
core has other cases, such as blocks, address sizes and access flags.

With the values written to the registers both agree: for every well-formed table below `2 ^ 44`
the core finds what `translate` says, and every other address faults.

`hyper_setup` computes its value in the type `int`, so that bit 31 is copied to the upper half of
`hcr_el2`.

## Main definitions

* `El2Regs`, `stage2MmuInit`, `hyperSetup` — the control registers of a core.
* `El2Regs.translate` — what the core makes of an address.
* `Table.translate_hw` — the core's walk of a well-formed table.
-/

namespace Xhyper

open Memory Prog

/-! ## Control registers -/

/-- `VTCR_T0SZ(n)`. -/
def vtcrT0sz (n : BitVec 64) : BitVec 64 := n &&& 0x3F

/-- `VTCR_SL0(n)`. -/
def vtcrSl0 (n : BitVec 64) : BitVec 64 := (n &&& 0x3) <<< 6

/-- `VTCR_SH0(n)`. -/
def vtcrSh0 (n : BitVec 64) : BitVec 64 := (n &&& 0x3) <<< 12

/-- `VTCR_TG0(n)`. -/
def vtcrTg0 (n : BitVec 64) : BitVec 64 := (n &&& 0x3) <<< 14

/-- `VTCR_PS(n)`. -/
def vtcrPs (n : BitVec 64) : BitVec 64 := (n &&& 0x7) <<< 16

/-- `VTCR_NSW`. -/
abbrev vtcrNsw : BitVec 64 := 1 <<< 29

/-- `VTCR_NSA`. -/
abbrev vtcrNsa : BitVec 64 := 1 <<< 30

/-- `HCR_VM`. -/
abbrev hcrVm : BitVec 32 := 1 <<< 0

/-- `HCR_FMO`. -/
abbrev hcrFmo : BitVec 32 := 1 <<< 3

/-- `HCR_IMO`. -/
abbrev hcrImo : BitVec 32 := 1 <<< 4

/-- `HCR_TSC`. -/
abbrev hcrTsc : BitVec 32 := 1 <<< 19

/-- `HCR_RW`. -/
abbrev hcrRw : BitVec 32 := 1 <<< 31

/-- The control registers of a core that the hypervisor sets once. -/
structure El2Regs where
  vtcrEl2 : BitVec 64
  mairEl2 : BitVec 64
  hcrEl2 : BitVec 64
  vbarEl2 : BitVec 64

/-- `stage2_mmu_init`. -/
def stage2MmuInit (c : El2Regs) : El2Regs :=
  { c with
    vtcrEl2 := vtcrT0sz 20 ||| vtcrSl0 2 ||| vtcrSh0 0 ||| vtcrTg0 0 ||| vtcrNsw ||| vtcrNsa |||
      vtcrPs 4
    -- `DEVICE_nGnRnE` at index 0, `NORMAL_NC` at index 1
    mairEl2 := (0x0 <<< (8 * 0x0)) ||| (0x44 <<< (8 * 0x1)) }

/-- `hyper_setup`, with the address of `hyper_vector`.  The constants are of type `int`. -/
def hyperSetup (hyperVector : BitVec 64) (c : El2Regs) : El2Regs :=
  { c with
    hcrEl2 := (hcrTsc ||| hcrRw ||| hcrVm ||| hcrFmo ||| hcrImo).signExtend 64
    vbarEl2 := hyperVector }

/-- What a core makes of the intermediate address `ipa`, with the table `vttbr` in `vttbr_el2`. -/
def El2Regs.translate (c : El2Regs) (vttbr : ℕ) (m : Mem) (ipa : ℕ) (k : Vmsa.Access) :
    Except Vmsa.WalkFault Vmsa.Found :=
  Vmsa.translate c.hcrEl2.toNat c.vtcrEl2.toNat vttbr m ipa k

/-- A core whose registers `stage2_mmu_init` and `hyper_setup` wrote. -/
structure El2Regs.Ready (c : El2Regs) : Prop where
  vm : Vmsa.vmOn c.hcrEl2.toNat
  regime : Vmsa.Regime.ofVtcr c.vtcrEl2.toNat = { inBits := 44, start := 0, outBits := 44 }

/-- **Both functions together** make a core ready, whatever its registers were. -/
theorem ready_hyperSetup (hyperVector : BitVec 64) (c : El2Regs) :
    (hyperSetup hyperVector (stage2MmuInit c)).Ready := by
  have hhcr : (hyperSetup hyperVector (stage2MmuInit c)).hcrEl2 = 0xFFFFFFFF80080019#64 := by
    change (hcrTsc ||| hcrRw ||| hcrVm ||| hcrFmo ||| hcrImo).signExtend 64 = _
    decide
  have hvtcr : (hyperSetup hyperVector (stage2MmuInit c)).vtcrEl2 = 0x60040094#64 := by
    change vtcrT0sz 20 ||| vtcrSl0 2 ||| vtcrSh0 0 ||| vtcrTg0 0 ||| vtcrNsw ||| vtcrNsa |||
      vtcrPs 4 = _
    decide
  constructor
  · rw [hhcr]
    decide
  · rw [hvtcr]
    decide

/-! ## Descriptors -/

/-- What `page_walk` takes for a pointer to a table is a table descriptor. -/
theorem isTableEntry_iff (e : ℕ) : IsTableEntry e ↔ e % 4 = 3 := by
  have hbit : ∀ i, e &&& 2 ^ i ≠ 0 ↔ e / 2 ^ i % 2 = 1 := by
    intro i
    rw [Nat.and_two_pow, ne_eq, Nat.mul_eq_zero, not_or, Nat.testBit_eq_decide_div_mod_eq]
    by_cases h : e / 2 ^ i % 2 = 1 <;> simp [h]
  have h0 := hbit 0
  have h1 := hbit 1
  rw [IsTableEntry, show pteValid = 2 ^ 0 by rfl, show pteTable = 2 ^ 1 by rfl, h0, h1]
  omega

theorem field47_eq (d : ℕ) : Vmsa.field47 12 d = ptePa d := (ptePa_eq d).symm

/-- A filled entry is a page descriptor with its access flag. -/
theorem IsLeaf.descriptor {e : ℕ} (h : IsLeaf e) : e % 4 = 3 ∧ e.testBit 10 = true := by
  obtain ⟨hv, haf⟩ := h
  constructor
  · rw [show e &&& pteV = e % 4 from Nat.and_two_pow_sub_one_eq_mod e 2] at hv
    exact hv
  · rw [show pteAf = 2 ^ 10 by rfl, Nat.and_two_pow] at haf
    by_contra hbit
    rw [Bool.not_eq_true] at hbit
    rw [hbit] at haf
    exact haf rfl

/-- The permissions are among the attributes. -/
theorem permits_pteAttr (e : ℕ) (k : Vmsa.Access) :
    Vmsa.permits (pteAttr e) k ↔ Vmsa.permits e k := by
  have hbit : ∀ i, Nat.testBit 0xFFFF000000000FFF i = true →
      (pteAttr e).testBit i = e.testBit i := by
    intro i hi
    rw [pteAttr, Nat.testBit_and, hi, Bool.and_true]
  cases k
  case read => rw [Vmsa.permits, Vmsa.permits, hbit 6 (by decide)]
  case write => rw [Vmsa.permits, Vmsa.permits, hbit 7 (by decide)]
  case fetch => rw [Vmsa.permits, Vmsa.permits, hbit 54 (by decide)]

/-! ## The walk -/

section walk
variable {m : Mem} {r ipa : ℕ} {k : Vmsa.Access}

/-- A table below another one. -/
theorem TableAt.snoc {p : List ℕ} {t u i : ℕ} (ht : TableAt m r p t) (hp : p.length < 3)
    (hi : i < 512) (hchild : child m t i = some u) : TableAt m r (p ++ [i]) u := by
  refine ⟨by simp; omega, fun j hj => ?_, Radix.follow_snoc_eq_some.mpr ⟨t, ht.walk, hchild⟩⟩
  rcases List.mem_append.mp hj with hj | hj
  · exact ht.index j hj
  · exact List.mem_singleton.mp hj ▸ hi

/-- **One level** of the core's walk goes where `page_walk` goes. -/
theorem Table.walkFrom (T : Table m r) (hsize : ∀ p t, TableAt m r p t → t < 2 ^ 44) {p : List ℕ}
    {t i : ℕ} (ht : TableAt m r p t) (hp : p.length < 3) (hi : i < 512) (n : ℕ) :
    Vmsa.walkFrom m 44 ipa k (n + 1) (t + 8 * i) =
      match child m t i with
      | none => .error (.translation (2 - n))
      | some u => Vmsa.walkFrom m 44 ipa k n (u + 8 * (ipa / 2 ^ (12 + 9 * n) % 512)) := by
  cases hchild : child m t i with
  | none =>
      have hzero := T.inner p t i ht hp hi hchild
      rw [Vmsa.walkFrom_invalid (by rw [hzero]), Nat.add_sub_add_right 2 1 n]
  | some u =>
      have hlt := hsize _ _ (ht.snoc hp hi hchild)
      simp only [child] at hchild
      split at hchild
      case isFalse => cases hchild
      case isTrue hentry =>
        have hu : ptePa (read64 m (t + 8 * i)) = u := by simpa using hchild
        rw [Vmsa.walkFrom_table ((isTableEntry_iff _).mp hentry) (by rwa [field47_eq, hu]),
          field47_eq, hu]

/-- **The end of the walk** at a last-level table. -/
theorem Table.finish (T : Table m r) {p : List ℕ} {t i : ℕ} (ht : TableAt m r p t)
    (hp : p.length = 3) (hi : i < 512) :
    Vmsa.walkFrom m 44 ipa k 0 (t + 8 * i) =
      match decodeLeaf (read64 m (t + 8 * i)) with
      | none => .error (.translation 3)
      | some (out, attr) =>
          if 2 ^ 44 ≤ out then .error (.addressSize 3)
          else if Vmsa.permits attr k then .ok ⟨out + ipa % pageSize, attr⟩
          else .error (.permission 3) := by
  rcases T.leaf p t i ht hp hi with hzero | hleaf
  · rw [Vmsa.walkFrom_invalid (by rw [hzero]), hzero]
    rfl
  · obtain ⟨hpage, haf⟩ := hleaf.descriptor
    rw [Vmsa.walkFrom_page hpage, decodeLeaf_of_isLeaf hleaf, Vmsa.finish, field47_eq]
    simp only [haf, permits_pteAttr, Bool.true_eq_false, if_false]
    rfl

/-- A path that leads to a table misses none. -/
theorem missing_eq_zero (levels : List ℕ) (t : ℕ) {u : ℕ}
    (h : Radix.follow (child m) t (levels.map fun level => pindex level ipa) = some u) :
    missing m ipa levels t = 0 := by
  induction levels generalizing t with
  | nil => rfl
  | cons level levels ih =>
      rw [List.map_cons, Radix.follow_cons] at h
      cases hchild : child m t (pindex level ipa) with
      | none =>
          rw [hchild] at h
          cases h
      | some v =>
          rw [hchild, Option.bind_some] at h
          rw [missing, hchild]
          exact ih v h

variable (ipa k) in
/-- **The levels of tables**, from the table at the path `p` down. -/
theorem Table.walkTables (T : Table m r) (hsize : ∀ p t, TableAt m r p t → t < 2 ^ 44) (n : ℕ) :
    ∀ (p : List ℕ) (t : ℕ), TableAt m r p t → p.length + n = 3 →
      Vmsa.walkFrom m 44 ipa k n (t + 8 * pindex (3 - n) ipa) =
        match Radix.follow (child m) t ((List.range' (3 - n) n).map fun level => pindex level ipa)
          with
        | none => .error (.translation (3 - missing m ipa (List.range' (3 - n) n) t))
        | some u => Vmsa.walkFrom m 44 ipa k 0 (u + 8 * pindex 3 ipa) := by
  induction n with
  | zero =>
      intro p t _ _
      rfl
  | succ n ih =>
      intro p t ht hp
      have hlevels : List.range' (3 - (n + 1)) (n + 1) = (2 - n) :: List.range' (3 - n) n := by
        rw [List.range'_succ, Nat.add_sub_add_right 2 1 n, show 2 - n + 1 = 3 - n by omega]
      rw [T.walkFrom hsize ht (by omega) (pindex_lt _ ipa), hlevels, Nat.add_sub_add_right 2 1 n]
      simp only [List.map_cons, Radix.follow_cons, missing]
      cases hchild : child m t (pindex (2 - n) ipa) with
      | none => simp only [Option.bind_none, List.length_range', Nat.add_sub_add_right 2 1 n]
      | some u =>
          have hu := ht.snoc (by omega) (pindex_lt _ ipa) hchild
          have hindex : ipa / 2 ^ (12 + 9 * n) % 512 = pindex (3 - n) ipa := by
            rw [pindex_eq]
            congr 3
            omega
          simp only [Option.bind_some]
          rw [hindex, ih _ u hu (by simp; omega)]

/-- **The core's walk of a well-formed table**, for every address and every kind of access.  It
finds what `translate` says, up to the size of physical addresses and the permissions, and where
`translate` says nothing it faults at the level of the missing table. -/
theorem Table.translate_hw (T : Table m r) (hsize : ∀ p t, TableAt m r p t → t < 2 ^ 44)
    {c : El2Regs} (hc : c.Ready) (ipa : ℕ) (k : Vmsa.Access) :
    c.translate r m ipa k =
      if 2 ^ 44 ≤ ipa then .error (.translation 0)
      else match translate m r ipa with
        | none => .error (.translation (3 - missing m ipa [0, 1, 2] r))
        | some (out, attr) =>
            if 2 ^ 44 ≤ out then .error (.addressSize 3)
            else if Vmsa.permits attr k then .ok ⟨out + ipa % pageSize, attr⟩
            else .error (.permission 3) := by
  rw [El2Regs.translate, Vmsa.translate, hc.regime]
  simp only [hc.vm, not_true_eq_false, if_false]
  by_cases hipa : 2 ^ 44 ≤ ipa
  · simp only [if_pos hipa]
  have hroot : TableAt m r [] r := Table.root_at m r
  have hr := hsize _ _ hroot
  have hbase : Vmsa.field47 (44 - (39 - 9 * 0) + 3) r = r := by
    have halign := T.root.aligned
    simp only [pageSize] at halign
    rw [Vmsa.field47]
    omega
  have hfirst : ipa / 2 ^ (39 - 9 * 0) = pindex 0 ipa := by
    rw [pindex_eq]
    omega
  simp only [if_neg hipa, hbase, if_neg (show ¬ 2 ^ 44 ≤ r by omega), hfirst]
  have hwalk := T.walkTables ipa k hsize 3 [] r hroot rfl
  change Vmsa.walkFrom m 44 ipa k 3 (r + 8 * pindex 0 ipa) = _ at hwalk
  rw [hwalk]
  change (match Radix.follow (child m) r (tablePath ipa) with
    | none => Except.error (Vmsa.WalkFault.translation (3 - missing m ipa [0, 1, 2] r))
    | some u => Vmsa.walkFrom m 44 ipa k 0 (u + 8 * pindex 3 ipa)) = _
  cases hfollow : Radix.follow (child m) r (tablePath ipa) with
  | none =>
      rw [translate, leafEntry_of_none hfollow]
      rfl
  | some u =>
      have hu := (tableAt_tablePath m r ipa u).mpr hfollow
      dsimp only
      rw [T.finish hu (by simp [tablePath]) (pindex_lt 3 ipa), translate, leafEntry_of_tableAt hu]
      cases hleaf : decodeLeaf (read64 m (u + 8 * pindex 3 ipa)) with
      | none =>
          rw [missing_eq_zero [0, 1, 2] r hfollow]
      | some out => rfl

end walk

end Xhyper
