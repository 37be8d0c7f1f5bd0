import Mathlib.Data.Nat.Size
import Mathlib.Tactic.IntervalCases
import SdiOS.Allocator.Heap

/-!
# Size classes

`get_index` computes the class of a size by counting shifts. Class `i` has cells of `16 << i`
bytes; a size goes to the smallest class that holds it, and the size of a cell goes back to the
class of the cell. Sizes past the largest class are rounded up to whole pages.
-/

namespace SdiOS.Allocator

open Machine

/-- The bytes of a cell of class `i`, its header included. -/
def cellSize (i : ℕ) : ℕ := 16 * 2 ^ i

/-- The number of lists. -/
def numClasses : ℕ := 8

/-- A cell has at least 16 bytes. -/
theorem cellSize_pos (i : ℕ) : 16 ≤ cellSize i := by
  have h := Nat.one_le_two_pow (n := i)
  unfold cellSize
  omega

/-- Halving a number drops one bit of it. -/
theorem size_div_two {n : ℕ} (h : n ≠ 0) : Nat.size n = Nat.size (n / 2) + 1 := by
  have hbit : Nat.bit n.bodd (n / 2) = n := by
    rw [← Nat.div2_val, Nat.bit_bodd_div2]
  have hsize := Nat.size_bit (b := n.bodd) (n := n / 2) (by rwa [hbit])
  rwa [hbit] at hsize

/-- Counting the shifts until a word is zero gives its length in bits. -/
theorem shiftCount_eq_size (steps : ℕ) (size : Word) (h : size.toNat < 2 ^ steps) :
    shiftCount steps size = Nat.size size.toNat := by
  induction steps generalizing size with
  | zero =>
    have hzero : size.toNat = 0 := by omega
    rw [hzero]
    rfl
  | succ steps ih =>
    by_cases hzero : size = 0#32
    · rw [shiftCount, if_pos hzero, hzero]
      rfl
    · have hhalf : (size >>> 1).toNat = size.toNat / 2 := by
        rw [BitVec.toNat_ushiftRight, Nat.shiftRight_one]
      have hne : size.toNat ≠ 0 := fun h => hzero (BitVec.eq_of_toNat_eq h)
      rw [shiftCount, if_neg hzero, ih _ (by omega), hhalf, size_div_two hne]

/-- The class of a size up to a page is the length in bits of the sixteenths before its last
byte. -/
theorem getIndex_eq {s : Word} (hpos : 0 < s.toNat) (hpage : s.toNat ≤ 4096) :
    getIndex s = Nat.size ((s.toNat - 1) / 16) := by
  have hpred : (s - 1#32).toNat = s.toNat - 1 := by
    rw [BitVec.toNat_sub]
    have hlt := s.isLt
    simp only [BitVec.toNat_ofNat]
    omega
  have hmask : ((s - 1#32) &&& (memBlockSize - 1#32)).toNat = s.toNat - 1 := by
    rw [BitVec.toNat_and, hpred]
    have hmod := Nat.and_two_pow_sub_one_eq_mod (s.toNat - 1) 12
    rw [Nat.mod_eq_of_lt (by omega)] at hmod
    exact hmod
  have hshift : (((s - 1#32) &&& (memBlockSize - 1#32)) >>> 4).toNat = (s.toNat - 1) / 16 := by
    rw [BitVec.toNat_ushiftRight, hmask, Nat.shiftRight_eq_div_pow]
  rw [getIndex, shiftCount_eq_size 32 _ (BitVec.isLt _), hshift]

/-- A small size has one of the eight classes. -/
theorem getIndex_lt {s : Word} (hpos : 0 < s.toNat) (hsmall : s.toNat ≤ 2048) :
    getIndex s < numClasses := by
  rw [getIndex_eq hpos (by omega)]
  have hsize : Nat.size ((s.toNat - 1) / 16) ≤ 7 := Nat.size_le.mpr (by omega)
  exact Nat.lt_succ_of_le hsize

/-- The cells of a size's class hold the size. -/
theorem le_cellSize_getIndex {s : Word} (hpos : 0 < s.toNat) (hpage : s.toNat ≤ 4096) :
    s.toNat ≤ cellSize (getIndex s) := by
  have hlt := Nat.lt_size_self ((s.toNat - 1) / 16)
  rw [← getIndex_eq hpos hpage] at hlt
  unfold cellSize
  omega

/-- `GET_SIZE` does not overflow in a small class. -/
theorem toNat_getSize {s : Word} (hclass : getIndex s < numClasses) :
    (getSize s).toNat = cellSize (getIndex s) := by
  rw [getSize]
  generalize getIndex s = i at hclass
  unfold numClasses at hclass
  interval_cases i <;> rfl

/-- The class of a cell's size is the class of the cell. -/
theorem getIndex_cellSize {i : ℕ} (hi : i < numClasses) :
    getIndex (BitVec.ofNat 32 (cellSize i)) = i := by
  unfold numClasses at hi
  interval_cases i <;> rfl

/-- A cell of a small class is at most half a page. -/
theorem cellSize_le {i : ℕ} (hi : i < numClasses) : cellSize i ≤ 2048 := by
  have hpow : 2 ^ i ≤ 2 ^ 7 := Nat.pow_le_pow_right (by omega) (Nat.le_of_lt_succ hi)
  unfold cellSize
  omega

/-- The cells of a class fill a page. -/
theorem cells_fill_page {i : ℕ} (hi : i < numClasses) : 4096 / cellSize i * cellSize i = 4096 := by
  unfold numClasses at hi
  interval_cases i <;> rfl

/-- Rounding up to pages clears the low twelve bits. -/
theorem toNat_pageAlign (s : Word) :
    (pageAlign s).toNat = (s.toNat + 4095) % 2 ^ 32 / 4096 * 4096 := by
  have hsum : (s + memBlockSize - 1#32).toNat = (s.toNat + 4095) % 2 ^ 32 := by
    rw [BitVec.toNat_sub, BitVec.toNat_add]
    simp only [memBlockSize, BitVec.toNat_ofNat]
    omega
  have hmask (x : Word) : x &&& ~~~(memBlockSize - 1#32) = (x >>> 12) <<< 12 := by
    have hlow : memBlockSize - 1#32 = BitVec.ofNat 32 (2 ^ 12 - 1) := rfl
    apply BitVec.eq_of_getLsbD_eq
    intro i hi
    rw [hlow, BitVec.getLsbD_and, BitVec.getLsbD_not, BitVec.getLsbD_ofNat,
      Nat.testBit_two_pow_sub_one, BitVec.getLsbD_shiftLeft, BitVec.getLsbD_ushiftRight]
    by_cases hlt : i < 12
    · simp [hlt]
    · have hback : 12 + (i - 12) = i := by omega
      simp [hlt, hi, hback]
  rw [pageAlign, hmask, BitVec.toNat_shiftLeft, BitVec.toNat_ushiftRight, hsum,
    Nat.shiftLeft_eq, Nat.shiftRight_eq_div_pow]
  omega

/-- A rounded size that has not wrapped holds the size it was rounded from. -/
theorem le_pageAlign {s : Word} (hne : pageAlign s ≠ 0#32) :
    s.toNat ≤ (pageAlign s).toNat ∧ (pageAlign s).toNat % 4096 = 0 := by
  have hpos : (pageAlign s).toNat ≠ 0 := fun h => hne (BitVec.eq_of_toNat_eq h)
  have heq := toNat_pageAlign s
  have hlt := s.isLt
  omega

end SdiOS.Allocator
