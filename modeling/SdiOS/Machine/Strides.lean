import SdiOS.Machine.Span

/-!
# Walking through memory in strides

The addresses that a loop visits that adds the same amount in every pass. With a power of two as
the amount they all leave the same remainder, also when they pass the end of the address space.
-/

namespace Machine

variable {w : ℕ}

/-- The address after `k` strides of length `d` from `p`. -/
def stride (p d : BitVec w) (k : ℕ) : BitVec w := p + BitVec.ofNat w (k * d.toNat)

/-- No stride leads nowhere. -/
@[simp] theorem stride_zero (p d : BitVec w) : stride p d 0 = p := by
  simp [stride]

/-- One stride more is a stride first. -/
theorem stride_succ (p d : BitVec w) (k : ℕ) : stride p d (k + 1) = stride (p + d) d k := by
  rw [stride, stride, Nat.succ_mul, Nat.add_comm, BitVec.ofNat_add, BitVec.ofNat_toNat,
    BitVec.setWidth_eq, BitVec.add_assoc]

/-- Strides that stay in the address space are not reduced. -/
theorem toNat_stride {p d : BitVec w} {k : ℕ} (h : p.toNat + k * d.toNat < 2 ^ w) :
    (stride p d k).toNat = p.toNat + k * d.toNat :=
  toNat_add_ofNat h

/-- All the addresses leave the same remainder. -/
theorem stride_mod {p d : BitVec w} {e : ℕ} (he : e ≤ w) (hd : d.toNat = 2 ^ e) (k : ℕ) :
    (stride p d k).toNat % 2 ^ e = p.toNat % 2 ^ e := by
  have hdvd : 2 ^ e ∣ 2 ^ w := Nat.pow_dvd_pow 2 he
  rw [stride, hd, BitVec.toNat_add, BitVec.toNat_ofNat, Nat.add_mod_mod, Nat.mod_mod_of_dvd _ hdvd,
    Nat.add_mul_mod_self_right]

/-- When the next address would pass the end of the address space, no address on the way is above
the last. -/
theorem stride_le {p d : BitVec w} {e n : ℕ} (he : e ≤ w) (hd : d.toNat = 2 ^ e)
    (hend : 2 ^ w ≤ p.toNat + (n + 1) * d.toNat) (k : ℕ) :
    (stride p d k).toNat ≤ p.toNat + n * d.toNat := by
  have hsame : (stride p d k).toNat % 2 ^ e = (p.toNat + n * d.toNat) % 2 ^ e := by
    rw [stride_mod he hd, hd, Nat.add_mul_mod_self_right]
  have hlt := (stride p d k).isLt
  rw [hd, Nat.succ_mul] at hend
  rw [hd] at hsame ⊢
  -- Two numbers with the same remainder are the same or a whole stride apart.
  by_contra hgt
  have hdvd : 2 ^ e ∣ (stride p d k).toNat - (p.toNat + n * 2 ^ e) :=
    (Nat.modEq_iff_dvd' (by omega)).mp hsame.symm
  have hle := Nat.le_of_dvd (by omega) hdvd
  omega

end Machine
