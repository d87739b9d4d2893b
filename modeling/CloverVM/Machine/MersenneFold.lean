import Mathlib

/-!
# Residues by a Mersenne number

The residue of a number by `2 ^ n - 1`, one digit of `w` bits at a time.  As
`2 ^ n` is congruent to one, the bits that a shift would move past bit `n` are
added to the low bits instead, and what comes out needs one subtraction at
most.  So no number grows past twice the modulus.
-/

namespace CloverVM.Machine.MersenneFold

variable {n w m d : Nat}

/-- A digit behind a residue, with the high bits folded into the low ones. -/
def fold (n w m d : Nat) : Nat :=
  2 ^ w * (m % 2 ^ (n - w)) + m / 2 ^ (n - w) + d

/-- The number below the digit, split where the fold cuts it. -/
theorem append_eq_fold_add (hWidth : w ≤ n) (m d : Nat) :
    2 ^ w * m + d = fold n w m d + (2 ^ n - 1) * (m / 2 ^ (n - w)) := by
  have hPower : 2 ^ w * 2 ^ (n - w) = 2 ^ n := by
    rw [← Nat.pow_add, Nat.add_sub_cancel' hWidth]
  have hHigh : 2 ^ n * (m / 2 ^ (n - w)) =
      (2 ^ n - 1) * (m / 2 ^ (n - w)) + m / 2 ^ (n - w) := by
    rw [← Nat.succ_mul, Nat.succ_eq_add_one,
      Nat.sub_add_cancel Nat.one_le_two_pow]
  calc 2 ^ w * m + d
      = 2 ^ w * (2 ^ (n - w) * (m / 2 ^ (n - w)) + m % 2 ^ (n - w)) + d := by
        rw [Nat.div_add_mod]
    _ = 2 ^ n * (m / 2 ^ (n - w)) + 2 ^ w * (m % 2 ^ (n - w)) + d := by
        rw [Nat.mul_add, ← Nat.mul_assoc, hPower]
    _ = fold n w m d + (2 ^ n - 1) * (m / 2 ^ (n - w)) := by
        rw [hHigh, fold]
        omega

theorem fold_mod (hWidth : w ≤ n) (m d : Nat) :
    fold n w m d % (2 ^ n - 1) = (2 ^ w * m + d) % (2 ^ n - 1) := by
  rw [append_eq_fold_add hWidth, Nat.add_mul_mod_self_left]

/-- A digit behind a residue stays below twice the modulus. -/
theorem fold_lt (hWidth : w < n) (hm : m < 2 ^ n - 1) (hd : d < 2 ^ w) :
    fold n w m d < 2 * (2 ^ n - 1) := by
  have hPower : 2 ^ w * 2 ^ (n - w) = 2 ^ n := by
    rw [← Nat.pow_add, Nat.add_sub_cancel' (Nat.le_of_lt hWidth)]
  have hLow : 2 ^ w * (m % 2 ^ (n - w)) + 2 ^ w ≤ 2 ^ n := by
    rw [← Nat.mul_succ, ← hPower]
    exact Nat.mul_le_mul_left _ (Nat.mod_lt _ (Nat.two_pow_pos _))
  have hHigh : m / 2 ^ (n - w) < 2 ^ w := by
    refine Nat.div_lt_of_lt_mul ?_
    rw [Nat.mul_comm, hPower]
    omega
  have hSmaller : 2 ^ w < 2 ^ n := Nat.pow_lt_pow_right (by decide) hWidth
  rw [fold]
  omega

/-- One conditional subtraction gives the residue of the longer number. -/
theorem residue_append (hWidth : w < n) (hm : m < 2 ^ n - 1)
    (hd : d < 2 ^ w) :
    (if fold n w m d ≥ 2 ^ n - 1 then fold n w m d - (2 ^ n - 1)
      else fold n w m d) = (2 ^ w * m + d) % (2 ^ n - 1) := by
  have hBound := fold_lt hWidth hm hd
  rw [← fold_mod (Nat.le_of_lt hWidth)]
  split
  · rename_i hLarge
    rw [Nat.mod_eq_sub_mod hLarge, Nat.mod_eq_of_lt (by omega)]
  · rename_i hSmall
    rw [Nat.mod_eq_of_lt (by omega)]

end CloverVM.Machine.MersenneFold
