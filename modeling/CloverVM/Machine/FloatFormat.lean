import Mathlib.Data.Int.Log
import Mathlib.Data.Rat.Floor
import Mathlib.Algebra.Order.Field.Power
import Mathlib.Tactic.Positivity

/-!
# Rounding to a floating-point format

A format has a number of mantissa bits and a least exponent.  Rounding takes a
rational to a multiple of the unit of its binade, the even one in a tie; no
number of the format is nearer.  The format has no greatest number: whether a
result is in range is asked afterwards.
-/

namespace CloverVM.Machine.FloatFormat

/-- The nearest integer, the even one in a tie. -/
def roundHalfEven (x : ℚ) : ℤ :=
  if x - ⌊x⌋ < 1 / 2 then ⌊x⌋
  else if 1 / 2 < x - ⌊x⌋ then ⌊x⌋ + 1
  else if ⌊x⌋ % 2 = 0 then ⌊x⌋
  else ⌊x⌋ + 1

/-- The distance to an integer below or above. -/
theorem abs_sub_intCast (x : ℚ) (k : ℤ) :
    (k ≤ ⌊x⌋ ∧ |(k : ℚ) - x| = x - k) ∨
      (⌊x⌋ + 1 ≤ k ∧ |(k : ℚ) - x| = k - x) := by
  rcases lt_or_ge ⌊x⌋ k with hAbove | hBelow
  · refine Or.inr ⟨hAbove, abs_of_nonneg ?_⟩
    have hLess := Int.lt_floor_add_one x
    have hCast : ((⌊x⌋ + 1 : ℤ) : ℚ) ≤ k := Int.cast_le.mpr hAbove
    push_cast at hCast
    linarith
  · refine Or.inl ⟨hBelow, ?_⟩
    have hLe := Int.floor_le x
    have hCast : (k : ℚ) ≤ ⌊x⌋ := Int.cast_le.mpr hBelow
    rw [abs_sub_comm]
    exact abs_of_nonneg (by linarith)

/-- The rounded integer is on the side with the smaller distance. -/
theorem roundHalfEven_cases (x : ℚ) :
    (roundHalfEven x = ⌊x⌋ ∧
      (x - ⌊x⌋ < 1 / 2 ∨ x - ⌊x⌋ = 1 / 2 ∧ ⌊x⌋ % 2 = 0)) ∨
    (roundHalfEven x = ⌊x⌋ + 1 ∧
      (1 / 2 < x - ⌊x⌋ ∨ x - ⌊x⌋ = 1 / 2 ∧ (⌊x⌋ + 1) % 2 = 0)) := by
  unfold roundHalfEven
  split_ifs with hBelow hAbove hEven
  · exact Or.inl ⟨rfl, Or.inl hBelow⟩
  · exact Or.inr ⟨rfl, Or.inl hAbove⟩
  · exact Or.inl ⟨rfl, Or.inr ⟨by linarith, hEven⟩⟩
  · exact Or.inr ⟨rfl, Or.inr ⟨by linarith, by omega⟩⟩

theorem roundHalfEven_nearest (x : ℚ) (k : ℤ) :
    |(roundHalfEven x : ℚ) - x| ≤ |(k : ℚ) - x| ∧
      (k ≠ roundHalfEven x →
        |(k : ℚ) - x| = |(roundHalfEven x : ℚ) - x| →
        roundHalfEven x % 2 = 0) := by
  have hLe := Int.floor_le x
  have hLess := Int.lt_floor_add_one x
  rcases roundHalfEven_cases x with ⟨hRound, hSide⟩ | ⟨hRound, hSide⟩
  · -- rounded down
    have hHere : |(roundHalfEven x : ℚ) - x| = x - ⌊x⌋ := by
      rw [hRound, abs_sub_comm]
      exact abs_of_nonneg (by linarith)
    rw [hHere, hRound]
    rcases abs_sub_intCast x k with ⟨hk, hAbs⟩ | ⟨hk, hAbs⟩
    · have hCast : (k : ℚ) ≤ ⌊x⌋ := Int.cast_le.mpr hk
      refine ⟨by linarith, fun hne hSame => absurd ?_ hne⟩
      have hEq : (k : ℚ) = ⌊x⌋ := by linarith
      exact_mod_cast hEq
    · have hCast : ((⌊x⌋ + 1 : ℤ) : ℚ) ≤ k := Int.cast_le.mpr hk
      push_cast at hCast
      rcases hSide with hHalf | ⟨hHalf, hEven⟩
      · exact ⟨by linarith, fun _ hSame => absurd hSame (by linarith)⟩
      · exact ⟨by linarith, fun _ _ => hEven⟩
  · -- rounded up
    have hHere : |(roundHalfEven x : ℚ) - x| = ⌊x⌋ + 1 - x := by
      rw [hRound]
      push_cast
      exact abs_of_nonneg (by linarith)
    rw [hHere, hRound]
    rcases abs_sub_intCast x k with ⟨hk, hAbs⟩ | ⟨hk, hAbs⟩
    · have hCast : (k : ℚ) ≤ ⌊x⌋ := Int.cast_le.mpr hk
      rcases hSide with hHalf | ⟨hHalf, hEven⟩
      · exact ⟨by linarith, fun _ hSame => absurd hSame (by linarith)⟩
      · exact ⟨by linarith, fun _ _ => hEven⟩
    · have hCast : ((⌊x⌋ + 1 : ℤ) : ℚ) ≤ k := Int.cast_le.mpr hk
      push_cast at hCast
      refine ⟨by linarith, fun hne hSame => absurd ?_ hne⟩
      have hEq : (k : ℚ) = ((⌊x⌋ + 1 : ℤ) : ℚ) := by
        push_cast
        linarith
      exact_mod_cast hEq

/-- Rounding does not leave a range with integer bounds. -/
theorem abs_roundHalfEven_le {x : ℚ} {n : ℤ} (h : |x| < n) :
    |roundHalfEven x| ≤ n := by
  have hUp : ⌊x⌋ < n := Int.floor_lt.mpr (lt_of_abs_lt h)
  have hDown : -n ≤ ⌊x⌋ := by
    refine Int.le_floor.mpr ?_
    push_cast
    exact (neg_lt_of_abs_lt h).le
  rw [abs_le]
  rcases roundHalfEven_cases x with ⟨hRound, -⟩ | ⟨hRound, -⟩
  · rw [hRound]
    omega
  · rw [hRound]
    omega

/-! ## Formats -/

/-- The number of mantissa bits and the exponent of the least positive
number. -/
structure Format where
  precision : ℕ
  minExponent : ℤ
  precision_pos : 0 < precision

/-- The format of double-precision numbers. -/
def binary64 : Format := ⟨53, -1074, by decide⟩

namespace Format

variable (F : Format)

/-- A mantissa within the precision times a power of two. -/
def Representable (x : ℚ) : Prop :=
  ∃ m e : ℤ, |m| < 2 ^ F.precision ∧ F.minExponent ≤ e ∧ x = m * 2 ^ e

/-- The exponent of the last place of a number. -/
def exponent (x : ℚ) : ℤ :=
  max (Int.log 2 |x| + 1 - F.precision) F.minExponent

/-- The value of the last place of a number. -/
def unit (x : ℚ) : ℚ := 2 ^ F.exponent x

/-- The mantissa of the number that `x` rounds to, in units of `x`. -/
def mantissa (x : ℚ) : ℤ := roundHalfEven (x / F.unit x)

def round (x : ℚ) : ℚ := F.mantissa x * F.unit x

theorem unit_pos (x : ℚ) : 0 < F.unit x := by
  unfold unit
  positivity

/-- The whole part of a number takes no more bits than the precision. -/
theorem abs_lt_unit (x : ℚ) : |x| < 2 ^ F.precision * F.unit x := by
  have hLog := Int.lt_zpow_succ_log_self (b := 2) (by decide) |x|
  rw [Nat.cast_ofNat] at hLog
  refine lt_of_lt_of_le hLog ?_
  rw [unit, ← zpow_natCast, ← zpow_add₀ (by norm_num)]
  refine zpow_le_zpow_right₀ (by norm_num) ?_
  have hMax := le_max_left (Int.log 2 |x| + 1 - F.precision) F.minExponent
  rw [exponent]
  omega

theorem abs_mantissa_le (x : ℚ) : |F.mantissa x| ≤ 2 ^ F.precision := by
  refine abs_roundHalfEven_le ?_
  rw [abs_div, abs_of_pos (F.unit_pos x), div_lt_iff₀ (F.unit_pos x)]
  push_cast
  exact F.abs_lt_unit x

theorem round_representable (x : ℚ) : F.Representable (F.round x) := by
  have hExponent : F.minExponent ≤ F.exponent x := le_max_right _ _
  rcases lt_or_eq_of_le (F.abs_mantissa_le x) with hLess | hFull
  · exact ⟨F.mantissa x, F.exponent x, hLess, hExponent, rfl⟩
  · -- the mantissa is a power of two, of which one bit moves to the exponent
    obtain ⟨p, hp⟩ : ∃ p, F.precision = p + 1 :=
      ⟨F.precision - 1, by have := F.precision_pos; omega⟩
    have hTwice : (2 : ℤ) ^ F.precision = 2 * 2 ^ p := by
      rw [hp, pow_succ]
      ring
    have hPos : (0 : ℤ) < 2 ^ p := by positivity
    refine ⟨F.mantissa x / 2, F.exponent x + 1, ?_, by omega, ?_⟩
    · rw [hTwice] at hFull ⊢
      rcases abs_eq (by omega) |>.mp hFull with h | h
      · rw [h, abs_lt]
        omega
      · rw [h, abs_lt]
        omega
    · have hEven : F.mantissa x = 2 * (F.mantissa x / 2) := by
        rcases abs_eq (by positivity) |>.mp hFull with h | h <;> omega
      rw [round, unit, zpow_add₀ (by norm_num), zpow_one]
      calc (F.mantissa x : ℚ) * 2 ^ F.exponent x
          = ((2 * (F.mantissa x / 2) : ℤ) : ℚ) * 2 ^ F.exponent x := by
            rw [← hEven]
        _ = ((F.mantissa x / 2 : ℤ) : ℚ) * (2 ^ F.exponent x * 2) := by
            push_cast
            ring

/-! ## The nearest number -/

/-- The distance to a multiple of the unit. -/
theorem abs_multiple_sub (x : ℚ) (k : ℤ) :
    |k * F.unit x - x| = |(k : ℚ) - x / F.unit x| * F.unit x := by
  have hPos := F.unit_pos x
  calc |k * F.unit x - x|
      = |((k : ℚ) - x / F.unit x) * F.unit x| := by
        rw [sub_mul, div_mul_cancel₀ _ hPos.ne']
    _ = |(k : ℚ) - x / F.unit x| * F.unit x := by
        rw [abs_mul, abs_of_pos hPos]

/-- No multiple of the unit is nearer. -/
theorem round_nearest_multiple (x : ℚ) (k : ℤ) :
    |F.round x - x| ≤ |k * F.unit x - x| ∧
      (k ≠ F.mantissa x → |k * F.unit x - x| = |F.round x - x| →
        F.mantissa x % 2 = 0) := by
  have hPos := F.unit_pos x
  obtain ⟨hLe, hTie⟩ := roundHalfEven_nearest (x / F.unit x) k
  rw [round, abs_multiple_sub, abs_multiple_sub]
  refine ⟨mul_le_mul_of_nonneg_right hLe hPos.le, fun hne hSame => ?_⟩
  exact hTie hne (mul_right_cancel₀ hPos.ne' hSame)

/-- A number of the format with a smaller exponent is below the binade. -/
theorem abs_lt_of_exponent_lt {x : ℚ} {m e : ℤ}
    (hm : |m| < 2 ^ F.precision) (hMin : F.minExponent ≤ e)
    (hLess : e < F.exponent x) :
    |(m : ℚ) * 2 ^ e| < 2 ^ Int.log 2 |x| ∧
      F.exponent x = Int.log 2 |x| + 1 - F.precision := by
  have hExponent : F.exponent x = Int.log 2 |x| + 1 - F.precision := by
    rcases max_choice (Int.log 2 |x| + 1 - F.precision) F.minExponent with
      h | h
    · exact h
    · rw [exponent, h] at hLess
      omega
  refine ⟨?_, hExponent⟩
  have hPower : (0 : ℚ) < 2 ^ e := by positivity
  have hMantissa : |(m : ℚ)| < 2 ^ F.precision := by exact_mod_cast hm
  calc |(m : ℚ) * 2 ^ e|
      = |(m : ℚ)| * 2 ^ e := by rw [abs_mul, abs_of_pos hPower]
    _ < 2 ^ F.precision * 2 ^ e := mul_lt_mul_of_pos_right hMantissa hPower
    _ = 2 ^ ((F.precision : ℤ) + e) := by
        rw [zpow_add₀ (by norm_num), zpow_natCast]
    _ ≤ 2 ^ Int.log 2 |x| :=
        zpow_le_zpow_right₀ (by norm_num) (by omega)

/-- The power of two below a number is a multiple of its unit, and no number
nearer to zero is as near. -/
theorem abs_round_sub_lt {x y : ℚ} (hx : x ≠ 0)
    (hExponent : F.exponent x = Int.log 2 |x| + 1 - F.precision)
    (hy : |y| < 2 ^ Int.log 2 |x|) : |F.round x - x| < |y - x| := by
  have hPos : 0 < |x| := abs_pos.mpr hx
  have hLog := Int.zpow_log_le_self (b := 2) (by decide) hPos
  rw [Nat.cast_ofNat] at hLog
  obtain ⟨p, hp⟩ : ∃ p, F.precision = p + 1 :=
    ⟨F.precision - 1, by have := F.precision_pos; omega⟩
  have hPower : (2 : ℚ) ^ p * F.unit x = 2 ^ Int.log 2 |x| := by
    rw [unit, hExponent, ← zpow_natCast, ← zpow_add₀ (by norm_num)]
    congr 1
    rw [hp]
    push_cast
    ring
  have hFar : |x| - |y| ≤ |y - x| := by
    rw [abs_sub_comm]
    exact abs_sub_abs_le_abs_sub x y
  rcases le_or_gt 0 x with hSign | hSign
  · have hNear := (F.round_nearest_multiple x (2 ^ p)).1
    push_cast at hNear
    rw [hPower] at hNear
    rw [abs_of_nonneg hSign] at *
    have hDistance : |(2 : ℚ) ^ Int.log 2 x - x| = x - 2 ^ Int.log 2 x := by
      rw [abs_sub_comm]
      exact abs_of_nonneg (by linarith)
    linarith
  · have hNear := (F.round_nearest_multiple x (-(2 ^ p))).1
    push_cast at hNear
    rw [neg_mul, hPower] at hNear
    rw [abs_of_neg hSign] at *
    have hDistance :
        |-(2 : ℚ) ^ Int.log 2 (-x) - x| = -x - 2 ^ Int.log 2 (-x) := by
      rw [abs_of_nonneg (by linarith)]
      ring
    linarith

@[simp] theorem round_zero : F.round 0 = 0 := by
  have hFloor : mantissa F 0 = 0 := by
    rw [mantissa, zero_div, roundHalfEven]
    norm_num
  rw [round, hFloor, Int.cast_zero, zero_mul]

/-- No number of the format is nearer, and in a tie the mantissa is even. -/
theorem round_nearest {x y : ℚ} (hy : F.Representable y) :
    |F.round x - x| ≤ |y - x| ∧
      (y ≠ F.round x → |y - x| = |F.round x - x| →
        F.mantissa x % 2 = 0) := by
  rcases eq_or_ne x 0 with rfl | hx
  · rw [round_zero, sub_zero, abs_zero]
    refine ⟨abs_nonneg _, fun hne hSame => absurd ?_ hne⟩
    rwa [sub_zero, abs_eq_zero] at hSame
  obtain ⟨m, e, hm, hMin, rfl⟩ := hy
  rcases lt_or_ge e (F.exponent x) with hLess | hMore
  · obtain ⟨hBelow, hExponent⟩ := F.abs_lt_of_exponent_lt hm hMin hLess
    have hNear := F.abs_round_sub_lt hx hExponent hBelow
    exact ⟨hNear.le, fun _ hSame => absurd hSame hNear.ne'⟩
  · -- a multiple of the unit
    obtain ⟨n, hn⟩ := Int.le.dest hMore
    have hMultiple : (m : ℚ) * 2 ^ e = ((m * 2 ^ n : ℤ) : ℚ) * F.unit x := by
      rw [unit, ← hn, zpow_add₀ (by norm_num), zpow_natCast]
      push_cast
      ring
    rw [hMultiple]
    obtain ⟨hNear, hTie⟩ := F.round_nearest_multiple x (m * 2 ^ n)
    exact ⟨hNear, fun hne => hTie fun hSame => hne (by rw [hSame, round])⟩

/-- A number of the format is not moved. -/
theorem round_of_representable {y : ℚ} (hy : F.Representable y) :
    F.round y = y := by
  have hNear := (F.round_nearest hy (x := y)).1
  rw [sub_self, abs_zero] at hNear
  exact sub_eq_zero.mp (abs_eq_zero.mp (le_antisymm hNear (abs_nonneg _)))

/-- Rounding does not pass a number of the format above. -/
theorem round_le {x y : ℚ} (hy : F.Representable y) (h : x ≤ y) :
    F.round x ≤ y := by
  have hNear := (F.round_nearest hy (x := x)).1
  rw [abs_of_nonneg (sub_nonneg.mpr h)] at hNear
  have hSelf := le_abs_self (F.round x - x)
  linarith

/-- Rounding does not pass a number of the format below. -/
theorem le_round {x y : ℚ} (hy : F.Representable y) (h : y ≤ x) :
    y ≤ F.round x := by
  have hNear := (F.round_nearest hy (x := x)).1
  rw [abs_of_nonpos (sub_nonpos.mpr h)] at hNear
  have hSelf := neg_abs_le (F.round x - x)
  linarith

theorem Representable.neg {y : ℚ} (hy : F.Representable y) :
    F.Representable (-y) := by
  obtain ⟨m, e, hm, hMin, rfl⟩ := hy
  refine ⟨-m, e, by rwa [abs_neg], hMin, ?_⟩
  push_cast
  ring

theorem abs_round_le {x y : ℚ} (hy : F.Representable y) (h : |x| ≤ y) :
    |F.round x| ≤ y :=
  abs_le.mpr ⟨F.le_round (Representable.neg F hy) (abs_le.mp h).1,
    F.round_le hy (abs_le.mp h).2⟩

/-- An integer within the precision is a number of the format. -/
theorem representable_intCast {m : ℤ} (hm : |m| < 2 ^ F.precision)
    (hMin : F.minExponent ≤ 0) : F.Representable m :=
  ⟨m, 0, hm, hMin, by rw [zpow_zero, mul_one]⟩

theorem representable_zpow {e : ℤ} (hMin : F.minExponent ≤ e) :
    F.Representable (2 ^ e) := by
  refine ⟨1, e, ?_, hMin, by rw [Int.cast_one, one_mul]⟩
  rw [abs_one]
  exact one_lt_pow₀ (by decide) F.precision_pos.ne'

end Format

end CloverVM.Machine.FloatFormat
