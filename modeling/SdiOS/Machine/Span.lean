import Mathlib.Data.BitVec
import Mathlib.Data.Set.Lattice
import Mathlib.Order.CompletePartialOrder

/-!
# Spans of machine addresses

A `w`-bit machine counts addresses modulo `2 ^ w`, so a run of consecutive addresses may wrap
past the top of the address space. A span is such a run. Membership is a bound on the modular
distance from its first address; for spans that do not wrap it is an interval of naturals.
-/

namespace Machine

variable {w : ℕ}

/-- The `n` consecutive addresses that start at `p`, modulo `2 ^ w`. -/
def span (p : BitVec w) (n : ℕ) : Set (BitVec w) := {a | (a - p).toNat < n}

/-- An address lies in a span when its distance from the start is less than the length. -/
theorem mem_span {a p : BitVec w} {n : ℕ} : a ∈ span p n ↔ (a - p).toNat < n := Iff.rfl

instance (a p : BitVec w) (n : ℕ) : Decidable (a ∈ span p n) :=
  inferInstanceAs (Decidable ((a - p).toNat < n))

/-- The span of no bytes is empty. -/
@[simp] theorem span_zero (p : BitVec w) : span p 0 = ∅ := by
  ext a
  simp [mem_span]

/-- A longer span from the same start contains the shorter one. -/
theorem span_subset_span (p : BitVec w) {n k : ℕ} (h : n ≤ k) : span p n ⊆ span p k := by
  intro a ha
  exact lt_of_lt_of_le ha h

/-- An offset below the length of a span addresses a member of it. -/
theorem add_mem_span (p : BitVec w) {i n : ℕ} (hi : i < n) : p + BitVec.ofNat w i ∈ span p n := by
  rw [mem_span, add_comm, BitVec.add_sub_cancel, BitVec.toNat_ofNat]
  exact lt_of_le_of_lt (Nat.mod_le _ _) hi

/-- A span that is not empty starts with its first address. -/
theorem self_mem_span (p : BitVec w) {n : ℕ} (hn : 0 < n) : p ∈ span p n := by
  simpa using add_mem_span p hn

/-- An offset at or past the length of a span addresses none of its members. -/
theorem add_notMem_span (p : BitVec w) {i n : ℕ} (hn : n ≤ i) (hi : i < 2 ^ w) :
    p + BitVec.ofNat w i ∉ span p n := by
  rw [mem_span, add_comm, BitVec.add_sub_cancel, BitVec.toNat_ofNat, Nat.mod_eq_of_lt hi]
  omega

/-- Every member of a span is its first address plus a unique small offset. -/
theorem exists_offset {a p : BitVec w} {n : ℕ} (h : a ∈ span p n) :
    ∃ i < n, i < 2 ^ w ∧ a = p + BitVec.ofNat w i := by
  refine ⟨(a - p).toNat, h, (a - p).isLt, ?_⟩
  rw [BitVec.ofNat_toNat, BitVec.setWidth_eq, add_comm, BitVec.sub_add_cancel]

/-- Successive offsets add up. -/
theorem add_ofNat_add_ofNat (p : BitVec w) (i j : ℕ) :
    p + BitVec.ofNat w i + BitVec.ofNat w j = p + BitVec.ofNat w (i + j) := by
  rw [BitVec.add_assoc, ← BitVec.ofNat_add]

/-- The first step of a walk through memory, in the form C's `p++` takes. -/
theorem add_one_add_ofNat (p : BitVec w) (i : ℕ) :
    p + 1#w + BitVec.ofNat w i = p + BitVec.ofNat w (i + 1) := by
  rw [add_ofNat_add_ofNat, Nat.add_comm]

/-- Distinct offsets below `2 ^ w` give distinct addresses. -/
theorem add_ofNat_inj {p : BitVec w} {i j : ℕ} (hi : i < 2 ^ w) (hj : j < 2 ^ w) :
    p + BitVec.ofNat w i = p + BitVec.ofNat w j ↔ i = j := by
  rw [BitVec.add_right_inj]
  constructor
  · intro h
    have h' := congrArg BitVec.toNat h
    simpa [Nat.mod_eq_of_lt hi, Nat.mod_eq_of_lt hj] using h'
  · rintro rfl
    rfl

/-- A span is its first address together with the span one step further on. -/
theorem mem_span_succ {a p : BitVec w} {n : ℕ} :
    a ∈ span p (n + 1) ↔ a = p ∨ a ∈ span (p + 1#w) n := by
  constructor
  · intro h
    obtain ⟨i, hi, _, rfl⟩ := exists_offset h
    cases i with
    | zero => left; simp
    | succ i =>
      right
      have hstep := add_one_add_ofNat p i
      rw [← hstep]
      exact add_mem_span _ (by omega)
  · rintro (rfl | h)
    · exact self_mem_span _ (by omega)
    · obtain ⟨i, hi, _, rfl⟩ := exists_offset h
      have hstep := add_one_add_ofNat p i
      rw [hstep]
      exact add_mem_span _ (by omega)

/-- A span splits at any point into two consecutive spans. -/
theorem mem_span_add {a p : BitVec w} {n k : ℕ} :
    a ∈ span p (n + k) ↔ a ∈ span p n ∨ a ∈ span (p + BitVec.ofNat w n) k := by
  constructor
  · intro h
    obtain ⟨i, hi, _, rfl⟩ := exists_offset h
    by_cases hin : i < n
    · exact Or.inl (add_mem_span _ hin)
    · right
      obtain ⟨j, rfl⟩ := Nat.exists_eq_add_of_le (not_lt.mp hin)
      rw [← add_ofNat_add_ofNat]
      exact add_mem_span _ (by omega)
  · rintro (h | h)
    · exact span_subset_span p (Nat.le_add_right n k) h
    · obtain ⟨i, hi, _, rfl⟩ := exists_offset h
      rw [add_ofNat_add_ofNat]
      exact add_mem_span _ (by omega)

/-- The second half of a split span lies inside it. -/
theorem span_add_subset (p : BitVec w) (n k : ℕ) :
    span (p + BitVec.ofNat w n) k ⊆ span p (n + k) :=
  fun _ ha => mem_span_add.mpr (Or.inr ha)

/-- A span that starts and ends inside another lies in it. -/
theorem sub_span (p : BitVec w) {i n k : ℕ} (h : i + k ≤ n) :
    span (p + BitVec.ofNat w i) k ⊆ span p n :=
  (span_add_subset p i k).trans (span_subset_span p h)

/-- A span inside a longer one, some way from its start. -/
theorem sub_span_add (p q : BitVec w) {n k : ℕ} (h : q.toNat + k ≤ n) :
    span (p + q) k ⊆ span p n := by
  have hsub := sub_span p h
  rwa [BitVec.ofNat_toNat, BitVec.setWidth_eq] at hsub

/-- A span is disjoint from any span that starts at or after its end, as long as the two together
do not run around the address space. -/
theorem disjoint_span_add (p : BitVec w) {n k l : ℕ} (hn : n ≤ k) (hk : k + l ≤ 2 ^ w) :
    Disjoint (span p n) (span (p + BitVec.ofNat w k) l) := by
  rw [Set.disjoint_left]
  intro a ha hb
  obtain ⟨i, hi, hiw, rfl⟩ := exists_offset ha
  obtain ⟨j, hj, _, heq⟩ := exists_offset hb
  rw [add_ofNat_add_ofNat, add_ofNat_inj hiw (by omega)] at heq
  omega

/-- An offset that does not carry past the top of memory is added exactly. -/
theorem toNat_add_ofNat {p : BitVec w} {i : ℕ} (h : p.toNat + i < 2 ^ w) :
    (p + BitVec.ofNat w i).toNat = p.toNat + i := by
  rw [BitVec.toNat_add, BitVec.toNat_ofNat, Nat.add_mod_mod, Nat.mod_eq_of_lt h]

/-- A span that does not wrap is an interval. -/
theorem mem_span_iff_toNat {a p : BitVec w} {n : ℕ} (h : p.toNat + n ≤ 2 ^ w) :
    a ∈ span p n ↔ p.toNat ≤ a.toNat ∧ a.toNat < p.toNat + n := by
  have ha := a.isLt
  have hp := p.isLt
  rw [mem_span, BitVec.toNat_sub]
  by_cases hle : p.toNat ≤ a.toNat
  · have hsum : 2 ^ w - p.toNat + a.toNat = (a.toNat - p.toNat) + 2 ^ w := by omega
    rw [hsum, Nat.add_mod_right, Nat.mod_eq_of_lt (by omega)]
    omega
  · rw [Nat.mod_eq_of_lt (by omega)]
    omega

/-- Two spans that do not wrap are disjoint once one ends before the other begins. -/
theorem disjoint_span {p q : BitVec w} {n k : ℕ} (hp : p.toNat + n ≤ 2 ^ w)
    (hq : q.toNat + k ≤ 2 ^ w) (h : p.toNat + n ≤ q.toNat ∨ q.toNat + k ≤ p.toNat) :
    Disjoint (span p n) (span q k) := by
  rw [Set.disjoint_left]
  intro a ha hb
  rw [mem_span_iff_toNat hp] at ha
  rw [mem_span_iff_toNat hq] at hb
  omega

end Machine
