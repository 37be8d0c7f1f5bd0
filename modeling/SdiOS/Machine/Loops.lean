import Mathlib.Order.Basic

/-!
# Counting loops

The loop `for (i = 0; i < n; i++) body` over a state. When each pass settles one index and leaves
the others alone, the whole loop settles every index.
-/

namespace Machine

variable {σ : Type*}

/-- The passes of a counting loop from index `i` on, with `n` of them to go. -/
def forFrom (body : ℕ → σ → σ) (i : ℕ) : ℕ → σ → σ
  | 0, s => s
  | n + 1, s => forFrom body (i + 1) n (body i s)

/-- A pass that needs only `R` at its own index and keeps `R` and `Q` at the others turns `R` at
every index into `Q` at every index. -/
theorem forFrom_each (body : ℕ → σ → σ) (R Q : ℕ → σ → Prop) (i n : ℕ) (s : σ)
    (hself : ∀ k s, k < i + n → R k s → Q k (body k s))
    (hR : ∀ k j s, k < i + n → j < i + n → j ≠ k → R j s → R j (body k s))
    (hQ : ∀ k j s, k < i + n → j < i + n → j ≠ k → Q j s → Q j (body k s))
    (hdone : ∀ j < i, Q j s) (htodo : ∀ j, i ≤ j → j < i + n → R j s) :
    ∀ j < i + n, Q j (forFrom body i n s) := by
  induction n generalizing i s with
  | zero => simpa [forFrom] using hdone
  | succ n ih =>
    have hshift : i + (n + 1) = i + 1 + n := by omega
    rw [hshift] at hself hR hQ htodo ⊢
    refine ih (i + 1) (body i s) hself hR hQ (fun j hj => ?_) (fun j hij hj => ?_)
    · rcases Nat.lt_succ_iff_lt_or_eq.mp hj with hlt | rfl
      · exact hQ i j s (by omega) (by omega) (by omega) (hdone j hlt)
      · exact hself j s (by omega) (htodo j (Nat.le_refl j) (by omega))
    · exact hR i j s (by omega) hj (by omega) (htodo j (by omega) hj)

end Machine
