import Mathlib.Data.Int.GCD

/-!
# Floored division

Facts about the division that rounds towards negative infinity, as loops over
integers use it: Euclid's step keeps the greatest common divisor and gets
smaller, and a midpoint lies between its bounds.
-/

namespace CloverVM.Machine

theorem natAbs_fmod_lt (a : Int) {b : Int} (hb : b ≠ 0) :
    (a.fmod b).natAbs < b.natAbs := by
  rcases Int.lt_or_gt_of_ne hb with hNeg | hPos
  · have hLow := Int.fmod_nonneg_of_pos (-a) (show 0 < -b by omega)
    have hHigh := Int.fmod_lt_of_pos (-a) (show 0 < -b by omega)
    rw [Int.neg_fmod_neg] at hLow hHigh
    omega
  · have hLow := Int.fmod_nonneg_of_pos a hPos
    have hHigh := Int.fmod_lt_of_pos a hPos
    omega

/-- The remainder differs from the dividend by a multiple of the divisor. -/
theorem gcd_fmod (a b : Int) : Int.gcd b (a.fmod b) = Int.gcd a b := by
  rw [Int.fmod_def, Int.gcd_sub_mul_left_right, Int.gcd_comm]

theorem le_fdiv_two {low high : Int} (h : low ≤ high) :
    low ≤ (low + high).fdiv 2 := by
  rw [Int.fdiv_eq_ediv_of_nonneg _ (by decide)]
  omega

theorem fdiv_two_le {low high : Int} (h : low ≤ high) :
    (low + high).fdiv 2 ≤ high := by
  rw [Int.fdiv_eq_ediv_of_nonneg _ (by decide)]
  omega

end CloverVM.Machine
