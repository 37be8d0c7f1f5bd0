import Mathlib.Data.List.Pairwise
import SdiOS.Machine.Memory

/-!
# Blocks of memory

A block is a run of bytes with its length. Blocks are kept apart by the ranges they lie in: what
is cut out of fresh memory is apart from everything below it. Runs of blocks of one size are the
cells of a larger block.
-/

namespace Machine

variable {w : ℕ}

/-- A run of bytes in memory. -/
structure Block (w : ℕ) where
  addr : BitVec w
  size : ℕ
  deriving DecidableEq

/-- The addresses of a block. -/
def Block.bytes (b : Block w) : Set (BitVec w) := span b.addr b.size

/-- The block lies between two bounds and does not wrap around the address space. -/
def Block.Within (b : Block w) (lo hi : ℕ) : Prop :=
  lo ≤ b.addr.toNat ∧ b.addr.toNat + b.size ≤ hi

variable {b c : Block w} {bs cs : List (Block w)} {lo mid hi : ℕ}

/-- What follows the first bytes of a block lies in it. -/
theorem Block.tail_subset (b : Block w) {k : ℕ} (hk : k ≤ b.size) :
    span (b.addr + BitVec.ofNat w k) (b.size - k) ⊆ b.bytes := by
  have hpart := span_add_subset b.addr k (b.size - k)
  rwa [Nat.add_sub_cancel' hk] at hpart

/-- A block in a range lies in every larger one. -/
theorem Block.Within.mono (h : b.Within mid hi) (hlo : lo ≤ mid) {hi' : ℕ} (hhi : hi ≤ hi') :
    b.Within lo hi' := ⟨hlo.trans h.1, h.2.trans hhi⟩

/-- Blocks on the two sides of a bound do not overlap. -/
theorem Block.Within.disjoint (hb : b.Within lo mid) (hc : c.Within mid hi) (hw : hi ≤ 2 ^ w) :
    Disjoint b.bytes c.bytes :=
  disjoint_span (hb.2.trans (hc.1.trans ((Nat.le_add_right _ _).trans (hc.2.trans hw))))
    (hc.2.trans hw) (Or.inl (hb.2.trans hc.1))

/-- Blocks of which no two overlap. -/
def Apart (bs : List (Block w)) : Prop := bs.Pairwise fun b c => Disjoint b.bytes c.bytes

/-- Whether blocks are apart does not depend on their order. -/
theorem Apart.perm (h : Apart bs) (hperm : bs.Perm cs) : Apart cs :=
  List.Pairwise.perm h hperm fun {b c} (hdisj : Disjoint b.bytes c.bytes) => hdisj.symm

instance : Std.Symm fun b c : Block w => Disjoint b.bytes c.bytes := ⟨fun _ _ h => Disjoint.symm h⟩

/-- Two different blocks of an apart list do not overlap. -/
theorem Apart.disjoint (h : Apart bs) (hb : b ∈ bs) (hc : c ∈ bs) (hne : b ≠ c) :
    Disjoint b.bytes c.bytes := List.Pairwise.forall h hb hc hne

/-- Apart blocks that are not empty begin at different addresses. -/
theorem Apart.nodup_addr (h : Apart bs) (hpos : ∀ b ∈ bs, 0 < b.size) :
    (bs.map (·.addr)).Nodup := by
  refine List.pairwise_map.mpr (List.Pairwise.imp_of_mem (fun {b c} hb hc hdisj heq => ?_) h)
  have hin : b.addr ∈ c.bytes := by
    rw [heq]
    exact self_mem_span c.addr (hpos c hc)
  exact Set.disjoint_left.mp hdisj (self_mem_span b.addr (hpos b hb)) hin

/-- Apart blocks above a bound can be added to apart blocks below it. -/
theorem Apart.append (hcs : Apart cs) (hbs : Apart bs) (hlow : ∀ b ∈ bs, b.Within lo mid)
    (hhigh : ∀ c ∈ cs, c.Within mid hi) (hw : hi ≤ 2 ^ w) : Apart (cs ++ bs) := by
  refine List.pairwise_append.mpr ⟨hcs, hbs, fun c hc b hb => ?_⟩
  exact ((hlow b hb).disjoint (hhigh c hc) hw).symm

/-! ## The cells of a block -/

/-- The addresses of `n` consecutive cells of `size` bytes each. -/
def cells (p : BitVec w) (size : ℕ) : ℕ → List (BitVec w)
  | 0 => []
  | n + 1 => p :: cells (p + BitVec.ofNat w size) size n

variable {p : BitVec w} {size n : ℕ}

/-- The cells lie at the multiples of their size. -/
theorem mem_cells {x : BitVec w} :
    x ∈ cells p size n ↔ ∃ k < n, x = p + BitVec.ofNat w (k * size) := by
  induction n generalizing p with
  | zero => simp [cells]
  | succ n ih =>
    rw [cells, List.mem_cons, ih]
    constructor
    · rintro (rfl | ⟨k, hk, rfl⟩)
      · exact ⟨0, by omega, by simp⟩
      · refine ⟨k + 1, by omega, ?_⟩
        rw [add_ofNat_add_ofNat, Nat.succ_mul, Nat.add_comm]
    · rintro ⟨k, hk, rfl⟩
      cases k with
      | zero => left; simp
      | succ k =>
        refine Or.inr ⟨k, by omega, ?_⟩
        rw [add_ofNat_add_ofNat, Nat.succ_mul, Nat.add_comm]

/-- The cells lie in the block they are cut from. -/
theorem within_of_mem_cells (hw : p.toNat + n * size ≤ 2 ^ w) {x : BitVec w}
    (hx : x ∈ cells p size n) (hsize : 0 < size) :
    (Block.mk x size).Within p.toNat (p.toNat + n * size) := by
  obtain ⟨k, hk, rfl⟩ := mem_cells.mp hx
  have hle : k * size + size ≤ n * size := by
    rw [← Nat.succ_mul]
    exact Nat.mul_le_mul_right size hk
  have haddr : (p + BitVec.ofNat w (k * size)).toNat = p.toNat + k * size :=
    toNat_add_ofNat (by omega)
  unfold Block.Within
  dsimp only
  omega

/-- Cells that do not wrap come in ascending address order. -/
theorem cells_ascending (hw : p.toNat + n * size ≤ 2 ^ w) (hsize : 0 < size) :
    (cells p size n).Pairwise (·.toNat < ·.toNat) := by
  induction n generalizing p with
  | zero => exact List.Pairwise.nil
  | succ n ih =>
    rw [Nat.succ_mul] at hw
    refine List.Pairwise.cons (fun x hx => ?_) ?_
    · obtain ⟨k, hk, rfl⟩ := mem_cells.mp hx
      have hle : k * size + size ≤ n * size := by
        rw [← Nat.succ_mul]
        exact Nat.mul_le_mul_right size hk
      rw [add_ofNat_add_ofNat, toNat_add_ofNat (by omega)]
      omega
    · cases n with
      | zero => exact List.Pairwise.nil
      | succ n =>
        have hpos : 0 < (n + 1) * size := Nat.mul_pos (Nat.succ_pos n) hsize
        exact ih (by rw [toNat_add_ofNat (by omega)]; omega)

/-- Cells do not overlap. -/
theorem apart_cells (hw : p.toNat + n * size ≤ 2 ^ w) (hsize : 0 < size) :
    Apart ((cells p size n).map (Block.mk · size)) := by
  induction n generalizing p with
  | zero => exact List.Pairwise.nil
  | succ n ih =>
    rw [Nat.succ_mul] at hw
    cases n with
    | zero => simp [cells, Apart]
    | succ n =>
      have hpos : 0 < (n + 1) * size := Nat.mul_pos (Nat.succ_pos n) hsize
      have haddr : (p + BitVec.ofNat w size).toNat = p.toNat + size :=
        toNat_add_ofNat (by omega)
      have hrest := ih (p := p + BitVec.ofNat w size) (by omega)
      refine List.Pairwise.cons (fun c hc => ?_) hrest
      obtain ⟨x, hx, rfl⟩ := List.mem_map.mp hc
      have hin := within_of_mem_cells (by omega) hx hsize
      rw [haddr] at hin
      exact Block.Within.disjoint (b := ⟨p, size⟩) ⟨le_rfl, le_rfl⟩ hin (by omega)

end Machine
