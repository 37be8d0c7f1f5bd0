import Mathlib.Algebra.Order.Floor.Div

/-!
# Pools of cells

A pool hands out cells that it cuts from pages of `k` cells each. When it takes a page only for a
cell that the pages it has cannot give, it has as many pages as its peak needs, and no more.
-/

namespace Machine

/-- The pages of a pool, the cells in use, and the most that were in use so far. -/
structure Pool where
  pages : ℕ
  live : ℕ
  peak : ℕ

variable {k live : ℕ} {p : Pool}

/-- The pool when `live` cells are in use, and `new` pages have been taken for them. -/
def Pool.next (p : Pool) (new live : ℕ) : Pool := ⟨p.pages + new, live, max p.peak live⟩

/-- The pool has the pages that its peak needs. -/
structure Pool.Exact (k : ℕ) (p : Pool) : Prop where
  live_le : p.live ≤ p.peak
  pages_eq : p.pages = p.peak ⌈/⌉ k

/-- The cells of all pages are enough for the peak. -/
theorem Pool.Exact.peak_le (h : p.Exact k) (hk : 0 < k) : p.peak ≤ k * p.pages := by
  rw [h.pages_eq]
  exact (ceilDiv_le_iff_le_mul hk).mp le_rfl

/-- A pool that stays within its pages. -/
theorem Pool.Exact.within (h : p.Exact k) (hk : 0 < k) (hlive : live ≤ k * p.pages) :
    (p.next 0 live).Exact k := by
  refine ⟨le_max_right _ _, le_antisymm ?_ ?_⟩
  · rw [Pool.next, Nat.add_zero, h.pages_eq]
    exact (gc_mul_ceilDiv hk).monotone_l (le_max_left _ _)
  · exact (ceilDiv_le_iff_le_mul hk).mpr (max_le (h.peak_le hk) hlive)

/-- A pool that takes a page when all its cells are in use. -/
theorem Pool.Exact.grow (h : p.Exact k) (hk : 0 < k) (hfull : p.live = k * p.pages) :
    (p.next 1 (p.live + 1)).Exact k := by
  have hpeak := h.peak_le hk
  have hlive := h.live_le
  have hmax : max p.peak (p.live + 1) = k * p.pages + 1 := by omega
  refine ⟨le_max_right _ _, ?_⟩
  rw [Pool.next, hmax]
  refine le_antisymm ?_ ((ceilDiv_le_iff_le_mul hk).mpr ?_)
  · have hlt : ¬(k * p.pages + 1) ⌈/⌉ k ≤ p.pages := by
      rw [ceilDiv_le_iff_le_mul hk]
      omega
    exact not_le.mp hlt
  · dsimp only
    rw [Nat.mul_succ]
    omega

/-- One cell more takes a page exactly when all cells are in use. -/
theorem Pool.Exact.ceilDiv_succ (h : p.Exact k) (hk : 0 < k) :
    max p.peak (p.live + 1) ⌈/⌉ k = p.pages + if p.live = k * p.pages then 1 else 0 := by
  by_cases hfull : p.live = k * p.pages
  · rw [if_pos hfull]
    exact (h.grow hk hfull).pages_eq.symm
  · have hlive := h.live_le.trans (h.peak_le hk)
    rw [if_neg hfull]
    exact (h.within hk (by omega)).pages_eq.symm

end Machine
