import Mathlib.Data.Nat.Dist
import Mathlib.Data.Nat.Bitwise

/-!
# Rounding to the nearest multiple

A number is rounded to a multiple of a unit when no multiple is nearer, and in
a tie the even one is taken.  Where the unit is a power of two, the bit below
it and whether a lower bit is set tell which multiple is nearest.
-/

namespace CloverVM.Machine.Rounding

variable {x m unit : Nat}

/-- `m` units are the multiple nearest to `x`, the even one in a tie. -/
def NearestEven (unit x m : Nat) : Prop :=
  ∀ k, (m * unit).dist x ≤ (k * unit).dist x ∧
    (k ≠ m → (k * unit).dist x = (m * unit).dist x → m % 2 = 0)

/-- A multiple within half a unit is the nearest one. -/
theorem nearestEven_of_half (hHalf : 2 * (m * unit).dist x ≤ unit)
    (hTie : 2 * (m * unit).dist x = unit → m % 2 = 0) :
    NearestEven unit x m := by
  intro k
  unfold Nat.dist at *
  rcases Nat.lt_trichotomy k m with hLess | rfl | hMore
  · have hStep : k * unit + unit ≤ m * unit := by
      rw [← Nat.succ_mul]
      exact Nat.mul_le_mul_right _ hLess
    exact ⟨by omega, fun _ hSame => hTie (by omega)⟩
  · exact ⟨Nat.le_refl _, fun hne => absurd rfl hne⟩
  · have hStep : m * unit + unit ≤ k * unit := by
      rw [← Nat.succ_mul]
      exact Nat.mul_le_mul_right _ hMore
    exact ⟨by omega, fun _ hSame => hTie (by omega)⟩

/-- A number is its own nearest multiple of one. -/
theorem nearestEven_one (x : Nat) : NearestEven 1 x x := by
  refine nearestEven_of_half ?_ ?_ <;> simp [Nat.dist_self]

/-- What is left below the unit: the guard bit and the bits below it. -/
theorem mod_two_pow_succ (x t : Nat) :
    x % 2 ^ (t + 1) = (if x.testBit t then 2 ^ t else 0) + x % 2 ^ t := by
  rw [Nat.mod_pow_succ, Nat.testBit_eq_decide_div_mod_eq]
  have hBit : x / 2 ^ t % 2 < 2 := Nat.mod_lt _ (by decide)
  simp only [decide_eq_true_eq]
  split_ifs with hOne
  · rw [hOne, Nat.mul_one, Nat.add_comm]
  · rw [show x / 2 ^ t % 2 = 0 by omega, Nat.mul_zero, Nat.zero_add,
      Nat.add_zero]

/-- The quotient goes up by one when the guard bit is set and a lower bit is
or the quotient is odd. -/
def guardSticky (x t : Nat) : Nat :=
  x / 2 ^ (t + 1) +
    if x.testBit t ∧ (x % 2 ^ t ≠ 0 ∨ x / 2 ^ (t + 1) % 2 ≠ 0) then 1 else 0

/-- Half a unit is the most that rounding moves a number. -/
theorem guardSticky_half (x t : Nat) :
    2 * (guardSticky x t * 2 ^ (t + 1)).dist x ≤ 2 ^ (t + 1) ∧
    (2 * (guardSticky x t * 2 ^ (t + 1)).dist x = 2 ^ (t + 1) →
      guardSticky x t % 2 = 0) := by
  have hSplit := Nat.div_add_mod x (2 ^ (t + 1))
  have hRest := mod_two_pow_succ x t
  have hLow : x % 2 ^ t < 2 ^ t := Nat.mod_lt _ (Nat.two_pow_pos t)
  have hUnit : 2 ^ (t + 1) = 2 ^ t + 2 ^ t := by
    rw [Nat.pow_succ, Nat.mul_two]
  have hDown : x / 2 ^ (t + 1) * 2 ^ (t + 1) =
      2 ^ (t + 1) * (x / 2 ^ (t + 1)) := Nat.mul_comm _ _
  have hUp : (x / 2 ^ (t + 1) + 1) * 2 ^ (t + 1) =
      2 ^ (t + 1) * (x / 2 ^ (t + 1)) + 2 ^ (t + 1) := by
    rw [Nat.add_mul, Nat.one_mul, hDown]
  unfold guardSticky Nat.dist
  split_ifs with hRound
  · obtain ⟨hGuard, hSticky⟩ := hRound
    rw [if_pos hGuard] at hRest
    rw [hUp]
    omega
  · rw [Nat.add_zero, hDown]
    by_cases hGuard : x.testBit t = true
    · -- a tie with an even quotient
      rw [if_pos hGuard] at hRest
      have hEven : ¬ (x % 2 ^ t ≠ 0 ∨ x / 2 ^ (t + 1) % 2 ≠ 0) :=
        fun hSticky => hRound ⟨hGuard, hSticky⟩
      omega
    · rw [if_neg hGuard] at hRest
      omega

theorem nearestEven_guardSticky (x t : Nat) :
    NearestEven (2 ^ (t + 1)) x (guardSticky x t) :=
  nearestEven_of_half (guardSticky_half x t).1 (guardSticky_half x t).2

/-- A multiple within half a unit, counted in units twice as large. -/
theorem nearestEven_carry (hHalf : 2 * (2 * m * unit).dist x ≤ unit)
    (hUnit : 0 < unit) : NearestEven (2 * unit) x m := by
  have hSame : m * (2 * unit) = 2 * m * unit := by
    rw [← Nat.mul_assoc, Nat.mul_comm m 2]
  refine nearestEven_of_half ?_ ?_
  · rw [hSame]
    omega
  · rw [hSame]
    omega

end CloverVM.Machine.Rounding
