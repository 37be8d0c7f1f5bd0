import SdiOS.Machine.Bits

/-!
# The bit helpers of `include/stdlib.h`

`msBit` and `lsBit` have a branch in assembly for this machine and a portable one; `numBits` has a
loop only. The loops move a mask with a single bit through the word. Two of them compare the mask
with the highest bit and stop before they have tested it. The width of a word is a parameter.
-/

namespace SdiOS

open Machine

variable {w : ℕ}

/-! ## The code -/

/-- The loop of `numBits`, with its mask and its count. -/
def numBitsLoop (bits : BitVec w) : ℕ → BitVec w → ℕ → Option ℕ
  | 0, _, _ => none
  | steps + 1, i, ret =>
    if i < 1#w <<< (w - 1) then
      numBitsLoop bits steps (i <<< 1) (if bits &&& i ≠ 0#w then ret + 1 else ret)
    else some ret

/-- `numBits`, or `none` when its loop has not ended after a step for every bit. -/
def numBits (bits : BitVec w) : Option (BitVec w) :=
  (numBitsLoop bits w 1#w 0).map (BitVec.ofNat w)

/-- The loop of the portable `lsBit`, with its mask and its index. -/
def lsBitLoop (bits : BitVec w) : ℕ → BitVec w → BitVec w → Option (BitVec w)
  | 0, _, _ => none
  | steps + 1, j, i =>
    if j < 1#w <<< (w - 1) then
      if bits &&& j ≠ 0#w then some i else lsBitLoop bits steps (j <<< 1) (i + 1#w)
    else some (BitVec.allOnes w)

/-- The portable branch of `lsBit`. -/
def lsBitPortable (bits : BitVec w) : Option (BitVec w) := lsBitLoop bits w 1#w 0#w

/-- The loop of the portable `msBit`, with its mask and its index. -/
def msBitLoop (bits : BitVec w) : ℕ → BitVec w → BitVec w → Option (BitVec w)
  | 0, _, _ => none
  | steps + 1, j, i =>
    if j > 0#w then
      if bits &&& j ≠ 0#w then some i else msBitLoop bits steps (j >>> 1) (i - 1#w)
    else some (BitVec.allOnes w)

/-- The portable branch of `msBit`. The mask is zero after a step for every bit. -/
def msBitPortable (bits : BitVec w) : Option (BitVec w) :=
  msBitLoop bits (w + 1) (1#w <<< (w - 1)) (BitVec.ofNat w (w - 1))

/-- The branch of `lsBit` in assembly: `bsf`, and all ones when it has found the word zero. -/
def lsBitAsm (bits : BitVec w) : BitVec w := if bits = 0#w then BitVec.allOnes w else bits.ctz

/-- The branch of `msBit` in assembly: `bsr`, and all ones when it has found the word zero. -/
def msBitAsm (bits : BitVec w) : BitVec w :=
  if bits = 0#w then BitVec.allOnes w else BitVec.ofNat w (w - 1) - bits.clz

/-! ## What they are to compute -/

/-- The index of a set bit, and all ones exactly for the zero word. -/
structure FindsBit (bits : BitVec w) (IsIndex : ℕ → Prop) (result : BitVec w) : Prop where
  index : ∀ k, IsIndex k → result = BitVec.ofNat w k
  allOnes : result = BitVec.allOnes w ↔ bits = 0#w

/-- The helpers agree with their definitions, and the branches of each with one another. -/
structure BitScans (bits : BitVec w) : Prop where
  numBits : numBits bits = some (BitVec.ofNat w (countBits bits w))
  lsBit : ∃ r, lsBitPortable bits = some r ∧ FindsBit bits (IsLeast (setBits bits)) r
  msBit : ∃ r, msBitPortable bits = some r ∧ FindsBit bits (IsGreatest (setBits bits)) r
  lsBit_agree : lsBitPortable bits = some (lsBitAsm bits)
  msBit_agree : msBitPortable bits = some (msBitAsm bits)

variable {bits : BitVec w} {k j steps : ℕ}

/-! ## `numBits` -/

/-- From position `k` on the loop counts the bits up to the highest, without it. -/
theorem numBitsLoop_eq (bits : BitVec w) (hk : k < w) (hsteps : w ≤ steps + k) :
    numBitsLoop bits steps (BitVec.twoPow w k) (countBits bits k) =
      some (countBits bits (w - 1)) := by
  induction steps generalizing k with
  | zero => omega
  | succ steps ih =>
    have htest : BitVec.twoPow w k < 1#w <<< (w - 1) ↔ k < w - 1 :=
      twoPow_lt_twoPow_iff hk (by omega)
    rw [numBitsLoop]
    by_cases hlast : k < w - 1
    · have hcount : (if bits &&& BitVec.twoPow w k ≠ 0#w then countBits bits k + 1
          else countBits bits k) = countBits bits (k + 1) := by
        simp only [and_twoPow_ne_zero_iff bits hk, mem_setBits, countBits_succ]
      rw [if_pos (htest.mpr hlast), hcount, twoPow_shiftLeft_one]
      exact ih (by omega) (by omega)
    · have hend : k = w - 1 := by omega
      rw [if_neg (htest.not.mpr hlast), hend]

/-- `numBits` counts the bits below the highest. -/
theorem numBits_eq (hw : 0 < w) (bits : BitVec w) :
    numBits bits = some (BitVec.ofNat w (countBits bits (w - 1))) := by
  have hstart := numBitsLoop_eq bits hw (Nat.le_refl (w + 0))
  rw [BitVec.twoPow_zero] at hstart
  rw [numBits, show (0 : ℕ) = countBits bits 0 from rfl, hstart]
  rfl

/-- The highest bit is not counted. -/
theorem countBits_last (hw : 0 < w) (bits : BitVec w) :
    countBits bits w = if bits.msb then countBits bits (w - 1) + 1
      else countBits bits (w - 1) := by
  have hsucc := countBits_succ bits (w - 1)
  rwa [Nat.sub_add_cancel hw, ← BitVec.msb_eq_getLsbD_last] at hsucc

/-- `numBits` is right exactly for the words whose highest bit is clear. -/
theorem numBits_eq_iff (hw : 0 < w) (bits : BitVec w) :
    numBits bits = some (BitVec.ofNat w (countBits bits w)) ↔ bits.msb = false := by
  have hle := countBits_le bits (w - 1)
  have hpow := Nat.lt_two_pow_self (n := w)
  rw [numBits_eq hw, countBits_last hw, Option.some.injEq]
  constructor
  · intro heq
    by_contra hmsb
    rw [Bool.not_eq_false] at hmsb
    have hnat := congrArg BitVec.toNat heq
    rw [if_pos hmsb, BitVec.toNat_ofNat, BitVec.toNat_ofNat, Nat.mod_eq_of_lt (by omega),
      Nat.mod_eq_of_lt (by omega)] at hnat
    omega
  · intro hmsb
    rw [hmsb]
    rfl

/-! ## `lsBit` -/

/-- The loop finds the lowest set bit unless that is the highest bit of the word. -/
theorem lsBitLoop_of_isLeast (hk : IsLeast (setBits bits) k) (hlast : k < w - 1) (hj : j ≤ k)
    (hsteps : k < steps + j) :
    lsBitLoop bits steps (BitVec.twoPow w j) (BitVec.ofNat w j) = some (BitVec.ofNat w k) := by
  induction steps generalizing j with
  | zero => omega
  | succ steps ih =>
    have htest : BitVec.twoPow w j < 1#w <<< (w - 1) :=
      (twoPow_lt_twoPow_iff (by omega) (by omega)).mpr (by omega)
    have hbit := and_twoPow_ne_zero_iff bits (k := j) (by omega)
    rw [lsBitLoop, if_pos htest]
    by_cases hfound : j = k
    · subst hfound
      rw [if_pos (hbit.mpr hk.1)]
    · have hnot : j ∉ setBits bits := fun hmem => hfound (le_antisymm hj (hk.2 hmem))
      rw [if_neg (hbit.not.mpr hnot), twoPow_shiftLeft_one, ← BitVec.ofNat_add]
      exact ih (by omega) (by omega)

/-- Without a set bit below the highest, the loop answers all ones. -/
theorem lsBitLoop_of_none (hnone : ∀ i < w - 1, i ∉ setBits bits) (hj : j < w)
    (hsteps : w ≤ steps + j) (i : BitVec w) :
    lsBitLoop bits steps (BitVec.twoPow w j) i = some (BitVec.allOnes w) := by
  induction steps generalizing j i with
  | zero => omega
  | succ steps ih =>
    have htest : BitVec.twoPow w j < 1#w <<< (w - 1) ↔ j < w - 1 :=
      twoPow_lt_twoPow_iff hj (by omega)
    rw [lsBitLoop]
    by_cases hlast : j < w - 1
    · have hbit := and_twoPow_ne_zero_iff bits hj
      rw [if_pos (htest.mpr hlast), if_neg (hbit.not.mpr (hnone j hlast)), twoPow_shiftLeft_one]
      exact ih (by omega) (by omega) _
    · rw [if_neg (htest.not.mpr hlast)]

/-- No index of a bit is the error value. -/
theorem ofNat_ne_allOnes (hk : k < w) : BitVec.ofNat w k ≠ BitVec.allOnes w := by
  intro heq
  have hpow := Nat.lt_two_pow_self (n := w)
  have hnat := congrArg BitVec.toNat heq
  rw [BitVec.toNat_ofNat, BitVec.toNat_allOnes, Nat.mod_eq_of_lt (by omega)] at hnat
  omega

/-- All ones is the answer for a word without set bits. -/
theorem findsBit_zero {IsIndex : ℕ → Prop} (hnone : ∀ k, ¬ IsIndex k) :
    FindsBit 0#w IsIndex (BitVec.allOnes w) where
  index k hk := absurd hk (hnone k)
  allOnes := iff_of_true rfl rfl

/-- The only index there is answers a word that is not zero. -/
theorem findsBit_of_ne_zero {IsIndex : ℕ → Prop} (hne : bits ≠ 0#w) (hlt : k < w)
    (hunique : ∀ i, IsIndex i → i = k) : FindsBit bits IsIndex (BitVec.ofNat w k) where
  index i hi := by rw [hunique i hi]
  allOnes := iff_of_false (ofNat_ne_allOnes hlt) hne

/-- `bsf` counts the trailing zeros. -/
theorem lsBitAsm_eq (hne : bits ≠ 0#w) : lsBitAsm bits = BitVec.ofNat w bits.ctz.toNat := by
  rw [lsBitAsm, if_neg hne, BitVec.ofNat_toNat, BitVec.setWidth_eq]

/-- The assembly branch of `lsBit` finds the lowest set bit. -/
theorem lsBitAsm_finds (bits : BitVec w) :
    FindsBit bits (IsLeast (setBits bits)) (lsBitAsm bits) := by
  by_cases hzero : bits = 0#w
  · rw [lsBitAsm, if_pos hzero, hzero, setBits_zero]
    exact findsBit_zero fun k hk => Set.notMem_empty k hk.1
  · have hleast := isLeast_ctz hzero
    rw [lsBitAsm_eq hzero]
    exact findsBit_of_ne_zero hzero (lt_of_mem_setBits hleast.1) fun i hi => hi.unique hleast

/-- The portable `lsBit` agrees with `bsf` unless the highest bit is the only one. -/
theorem lsBitPortable_eq_iff (hw : 0 < w) (bits : BitVec w) :
    lsBitPortable bits = some (lsBitAsm bits) ↔ bits ≠ BitVec.intMin w := by
  have hstart : lsBitPortable bits = lsBitLoop bits w (BitVec.twoPow w 0) (BitVec.ofNat w 0) := by
    rw [BitVec.twoPow_zero]
    rfl
  rw [hstart, ne_eq, ← setBits_inj, setBits_intMin hw]
  by_cases hzero : bits = 0#w
  · rw [lsBitLoop_of_none (by simp [hzero]) hw le_rfl, lsBitAsm, if_pos hzero, hzero, setBits_zero]
    exact iff_of_true rfl (Set.singleton_ne_empty _).symm
  · have hleast := isLeast_ctz hzero
    have hlt := lt_of_mem_setBits hleast.1
    rw [lsBitAsm_eq hzero]
    by_cases hlast : bits.ctz.toNat < w - 1
    · rw [lsBitLoop_of_isLeast hleast hlast (Nat.zero_le _) (by omega)]
      refine iff_of_true rfl fun honly => ?_
      rw [honly] at hleast
      exact hlast.ne hleast.1
    · have hnone : ∀ i < w - 1, i ∉ setBits bits := fun i hi hmem => by
        have hle := hleast.2 hmem
        omega
      have honly : setBits bits = {w - 1} := by
        refine Set.eq_singleton_iff_unique_mem.mpr ⟨?_, fun i hi => ?_⟩
        · have hend : bits.ctz.toNat = w - 1 := by omega
          exact hend ▸ hleast.1
        · have hi' := lt_of_mem_setBits hi
          by_contra hne
          exact hnone i (by omega) hi
      rw [lsBitLoop_of_none hnone hw le_rfl, Option.some.injEq]
      exact iff_of_false (ofNat_ne_allOnes hlt).symm (not_not.mpr honly)

/-! ## `msBit` -/

/-- The loop finds the highest set bit. -/
theorem msBitLoop_of_isGreatest (hk : IsGreatest (setBits bits) k) (hj : k ≤ j) (hlt : j < w)
    (hsteps : j < steps + k) :
    msBitLoop bits steps (BitVec.twoPow w j) (BitVec.ofNat w j) = some (BitVec.ofNat w k) := by
  induction steps generalizing j with
  | zero => omega
  | succ steps ih =>
    have hbit := and_twoPow_ne_zero_iff bits hlt
    rw [msBitLoop, if_pos (twoPow_pos hlt)]
    by_cases hfound : j = k
    · subst hfound
      rw [if_pos (hbit.mpr hk.1)]
    · have hnot : j ∉ setBits bits := fun hmem => hfound (le_antisymm (hk.2 hmem) hj)
      obtain ⟨i, rfl⟩ : ∃ i, j = i + 1 := ⟨j - 1, by omega⟩
      rw [if_neg (hbit.not.mpr hnot), twoPow_succ_shiftRight_one hlt, BitVec.ofNat_add,
        BitVec.add_sub_cancel]
      exact ih (by omega) (by omega) (by omega)

/-- For the zero word the mask walks out of the word. -/
theorem msBitLoop_zero (hj : j < w) (hsteps : j + 1 < steps) (i : BitVec w) :
    msBitLoop 0#w steps (BitVec.twoPow w j) i = some (BitVec.allOnes w) := by
  induction steps generalizing j i with
  | zero => omega
  | succ steps ih =>
    rw [msBitLoop, if_pos (twoPow_pos hj), if_neg (by simp)]
    cases j with
    | zero =>
      obtain ⟨rest, rfl⟩ : ∃ rest, steps = rest + 1 := ⟨steps - 1, by omega⟩
      rw [twoPow_zero_shiftRight_one, msBitLoop, if_neg (by simp)]
    | succ j =>
      rw [twoPow_succ_shiftRight_one hj]
      exact ih (by omega) (by omega) _

/-- `bsr` counts the leading zeros from the top. -/
theorem msBitAsm_eq (hw : 0 < w) (hne : bits ≠ 0#w) :
    msBitAsm bits = BitVec.ofNat w (w - 1 - bits.clz.toNat) := by
  have hpow := Nat.lt_two_pow_self (n := w)
  have hclz : bits.clz.toNat < w := by
    have hlt := BitVec.clz_lt_iff_ne_zero.mpr hne
    rwa [BitVec.lt_def, BitVec.natCast_eq_ofNat, BitVec.toNat_ofNat, Nat.mod_eq_of_lt hpow] at hlt
  rw [msBitAsm, if_neg hne]
  apply BitVec.eq_of_toNat_eq
  rw [BitVec.toNat_sub_of_le, BitVec.toNat_ofNat, BitVec.toNat_ofNat, Nat.mod_eq_of_lt (by omega),
    Nat.mod_eq_of_lt (by omega)]
  rw [BitVec.le_def, BitVec.toNat_ofNat, Nat.mod_eq_of_lt (by omega)]
  omega

/-- The assembly branch of `msBit` finds the highest set bit. -/
theorem msBitAsm_finds (hw : 0 < w) (bits : BitVec w) :
    FindsBit bits (IsGreatest (setBits bits)) (msBitAsm bits) := by
  by_cases hzero : bits = 0#w
  · rw [msBitAsm, if_pos hzero, hzero, setBits_zero]
    exact findsBit_zero fun k hk => Set.notMem_empty k hk.1
  · have hgreatest := isGreatest_clz hw hzero
    rw [msBitAsm_eq hw hzero]
    exact findsBit_of_ne_zero hzero (lt_of_mem_setBits hgreatest.1) fun i hi => hi.unique hgreatest

/-- The portable `msBit` agrees with `bsr` on every word. -/
theorem msBitPortable_eq (hw : 0 < w) (bits : BitVec w) :
    msBitPortable bits = some (msBitAsm bits) := by
  by_cases hzero : bits = 0#w
  · rw [msBitAsm, if_pos hzero, hzero]
    exact msBitLoop_zero (by omega) (by omega) _
  · have hgreatest := isGreatest_clz hw hzero
    rw [msBitAsm_eq hw hzero]
    exact msBitLoop_of_isGreatest hgreatest (by omega) (by omega) (by omega)

/-! ## All of them -/

/-- The helpers agree with their definitions exactly on the words whose highest bit is clear.
`numBits` goes wrong on all others, `lsBit` on the one that has no lower bit, and `msBit` on
none. -/
theorem bitScans_iff (hw : 0 < w) (bits : BitVec w) :
    (BitScans bits ↔ bits.msb = false) ∧
    (numBits bits = some (BitVec.ofNat w (countBits bits w)) ↔ bits.msb = false) ∧
    (lsBitPortable bits = some (lsBitAsm bits) ↔ bits ≠ BitVec.intMin w) ∧
    msBitPortable bits = some (msBitAsm bits) := by
  have hcount := numBits_eq_iff hw bits
  have hls := lsBitPortable_eq_iff hw bits
  have hms := msBitPortable_eq hw bits
  refine ⟨⟨fun h => hcount.mp h.numBits, fun hmsb => ?_⟩, hcount, hls, hms⟩
  have hagree : lsBitPortable bits = some (lsBitAsm bits) := hls.mpr fun hmin => by
    rw [hmin, BitVec.msb_intMin, decide_eq_false_iff_not] at hmsb
    exact hmsb hw
  exact ⟨hcount.mpr hmsb, ⟨_, hagree, lsBitAsm_finds bits⟩, ⟨_, hms, msBitAsm_finds hw bits⟩,
    hagree, hms⟩

/-- The mask of page sizes `0x401000` on this machine. -/
theorem bitScans_pageSizes : BitScans 0x401000#32 :=
  (bitScans_iff (by decide) 0x401000#32).1.mpr rfl

/-- The highest bit alone is not counted and not found. -/
theorem bitScans_highest : ¬ BitScans 0x80000000#32 := by
  intro h
  have hcount := h.numBits
  revert hcount
  decide

end SdiOS
