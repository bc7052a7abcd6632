import Mathlib.Algebra.BigOperators.Group.Finset.Basic
import Mathlib.Algebra.BigOperators.Ring.Finset
import Mathlib.Tactic.Ring

/-!
# Exponential smoothing

The smoothed sequence mixes its last value with the new one in the ratio `r` to
`1 - r`. It is linear in the sequence, so two sequences with the same start have
smoothed values that differ by the weighted sum of their later differences.
-/

namespace Smoothing

universe u

variable {K : Type u} [CommRing K]

def smooth (r : K) (p : ℕ → K) : ℕ → K
  | 0 => p 0
  | i + 1 => r * smooth r p i + (1 - r) * p (i + 1)

variable {r : K} {p q : ℕ → K}

@[simp] theorem smooth_zero : smooth r p 0 = p 0 := rfl

theorem smooth_succ (i : ℕ) : smooth r p (i + 1) = r * smooth r p i + (1 - r) * p (i + 1) := rfl

/-- Only the later differences of two sequences count, the older the less. -/
theorem smooth_sub_smooth (same : p 0 = q 0) (i : ℕ) :
    smooth r p i - smooth r q i =
      (1 - r) * ∑ j ∈ Finset.range i, r ^ (i - 1 - j) * (p (j + 1) - q (j + 1)) := by
  induction i with
  | zero => simp [same]
  | succ i ih =>
      have older : ∑ j ∈ Finset.range i, r ^ (i + 1 - 1 - j) * (p (j + 1) - q (j + 1)) =
          r * ∑ j ∈ Finset.range i, r ^ (i - 1 - j) * (p (j + 1) - q (j + 1)) := by
        rw [Finset.mul_sum]
        refine Finset.sum_congr rfl fun j hj => ?_
        have before : j < i := Finset.mem_range.mp hj
        have power : i + 1 - 1 - j = i - 1 - j + 1 := by omega
        rw [power, pow_succ]
        ring
      calc smooth r p (i + 1) - smooth r q (i + 1)
          = r * (smooth r p i - smooth r q i) + (1 - r) * (p (i + 1) - q (i + 1)) := by
            rw [smooth_succ, smooth_succ]
            ring
        _ = (1 - r) * ∑ j ∈ Finset.range (i + 1),
              r ^ (i + 1 - 1 - j) * (p (j + 1) - q (j + 1)) := by
            rw [ih, Finset.sum_range_succ, older]
            simp only [Nat.add_sub_cancel, Nat.sub_self, pow_zero, one_mul]
            ring

end Smoothing
