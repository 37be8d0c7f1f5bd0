import Mathlib.Data.BitVec
import Mathlib.Order.Bounds.Basic

/-!
# Set bits of a machine word

A mask with a single bit walks through a word. What it tests, how it moves, and where the walk
ends are facts about powers of two below the word size. The lowest and the highest set bit and the
number of set bits are what such walks compute.
-/

namespace Machine

variable {w k j : ℕ} {x : BitVec w}

/-- The positions of the set bits. -/
def setBits (x : BitVec w) : Set ℕ := {i | x.getLsbD i = true}

/-- The set bits are the positions that read one. -/
theorem mem_setBits {i : ℕ} : i ∈ setBits x ↔ x.getLsbD i = true := Iff.rfl

/-- A set bit lies inside the word. -/
theorem lt_of_mem_setBits {i : ℕ} (h : i ∈ setBits x) : i < w := BitVec.lt_of_getLsbD h

/-- A word is the set of its set bits. -/
theorem setBits_inj {y : BitVec w} : setBits x = setBits y ↔ x = y := by
  constructor
  · intro hsame
    refine BitVec.eq_of_getLsbD_eq fun i _ => ?_
    rw [Bool.eq_iff_iff, ← mem_setBits, ← mem_setBits, hsame]
  · rintro rfl
    rfl

/-- The zero word has no set bits. -/
@[simp] theorem setBits_zero : setBits 0#w = ∅ := by
  ext i
  simp [mem_setBits]

/-- The word with only the highest bit set. -/
theorem setBits_intMin (hw : 0 < w) : setBits (BitVec.intMin w) = {w - 1} := by
  ext i
  have hlast : w - 1 < w := by omega
  rw [mem_setBits, BitVec.intMin, BitVec.getLsbD_twoPow]
  simp [hlast, eq_comm]

/-- The number of set bits below a position. -/
def countBits (x : BitVec w) (k : ℕ) : ℕ := (List.range k).countP x.getLsbD

/-- The next position counts if its bit is set. -/
theorem countBits_succ (x : BitVec w) (k : ℕ) :
    countBits x (k + 1) = if x.getLsbD k then countBits x k + 1 else countBits x k := by
  rw [countBits, List.range_succ, List.countP_append, List.countP_singleton]
  by_cases h : x.getLsbD k
  · rw [if_pos h, if_pos h]
    rfl
  · rw [if_neg h, if_neg h]
    rfl

/-- There are at most `k` set bits below position `k`. -/
theorem countBits_le (x : BitVec w) (k : ℕ) : countBits x k ≤ k := by
  have hle := List.countP_le_length (p := x.getLsbD) (l := List.range k)
  rwa [List.length_range] at hle

/-! ## Masks with one bit -/

/-- A mask inside the word is not zero. -/
theorem twoPow_pos (hk : k < w) : BitVec.twoPow w k > 0#w := by
  rw [gt_iff_lt, BitVec.lt_def, BitVec.toNat_twoPow_of_lt hk, BitVec.toNat_ofNat, Nat.zero_mod]
  exact Nat.two_pow_pos k

/-- A mask finds the bit that it stands on. -/
theorem and_twoPow_ne_zero_iff (x : BitVec w) (hk : k < w) :
    x &&& BitVec.twoPow w k ≠ 0#w ↔ k ∈ setBits x := by
  have hpow : BitVec.twoPow w k ≠ 0#w := fun hzero => by
    have hpos := twoPow_pos hk
    rw [hzero] at hpos
    exact absurd hpos (BitVec.lt_irrefl _)
  rw [BitVec.and_twoPow, mem_setBits]
  by_cases h : x.getLsbD k = true
  · simp [h, hpow]
  · simp [h]

/-- Masks are ordered as their positions are. -/
theorem twoPow_lt_twoPow_iff (hj : j < w) (hk : k < w) :
    BitVec.twoPow w j < BitVec.twoPow w k ↔ j < k := by
  rw [BitVec.lt_def, BitVec.toNat_twoPow_of_lt hj, BitVec.toNat_twoPow_of_lt hk,
    Nat.pow_lt_pow_iff_right (by omega)]

/-- Shifting a mask left takes it to the next position. -/
theorem twoPow_shiftLeft_one (w k : ℕ) :
    BitVec.twoPow w k <<< 1 = BitVec.twoPow w (k + 1) := by
  rw [BitVec.twoPow_eq, BitVec.twoPow_eq, BitVec.shiftLeft_add]

/-- The mask leaves the word at its lowest bit. -/
theorem twoPow_zero_shiftRight_one (w : ℕ) : BitVec.twoPow w 0 >>> 1 = 0#w := by
  have hle := Nat.mod_le (2 ^ 0) (2 ^ w)
  apply BitVec.eq_of_toNat_eq
  rw [BitVec.toNat_ushiftRight, BitVec.toNat_twoPow, Nat.shiftRight_one, BitVec.toNat_ofNat,
    Nat.zero_mod]
  omega

/-- Shifting a mask right takes it to the position before. -/
theorem twoPow_succ_shiftRight_one (hk : k + 1 < w) :
    BitVec.twoPow w (k + 1) >>> 1 = BitVec.twoPow w k := by
  apply BitVec.eq_of_toNat_eq
  rw [BitVec.toNat_ushiftRight, BitVec.toNat_twoPow_of_lt hk, BitVec.toNat_twoPow_of_lt (by omega),
    Nat.shiftRight_one, Nat.pow_succ, Nat.mul_div_cancel _ (by omega)]

/-! ## Counting zeros from either end -/

/-- The lowest set bit comes after the trailing zeros. -/
theorem isLeast_ctz (hx : x ≠ 0#w) : IsLeast (setBits x) x.ctz.toNat := by
  refine ⟨BitVec.getLsbD_true_ctz_of_ne_zero hx, fun i hi => ?_⟩
  by_contra hlt
  have hfalse := BitVec.getLsbD_false_of_lt_ctz (not_le.mp hlt)
  rw [mem_setBits, hfalse] at hi
  cases hi

/-- The highest set bit comes before the leading zeros. -/
theorem isGreatest_clz (hw : 0 < w) (hx : x ≠ 0#w) :
    IsGreatest (setBits x) (w - 1 - x.clz.toNat) := by
  refine ⟨BitVec.getLsbD_true_clz_of_ne_zero hw hx, fun i hi => ?_⟩
  by_contra hlt
  have hhigh : w - x.clz.toNat ≤ i := by omega
  have hsmall := lt_of_lt_of_le (BitVec.toNat_lt_two_pow_sub_clz (x := x))
    (Nat.pow_le_pow_right (by omega) hhigh)
  rw [mem_setBits, BitVec.getLsbD, Nat.testBit_lt_two_pow hsmall] at hi
  cases hi

end Machine
