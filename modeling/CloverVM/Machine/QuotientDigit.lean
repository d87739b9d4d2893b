import Mathlib.Tactic.Ring
import Mathlib.Tactic.Linarith

/-!
# Estimating a digit of a quotient

One step of long division in base `b`, as arithmetic over naturals.  The
digit is estimated by dividing the two leading digits of the dividend by the
leading digit of the divisor, and the estimate is tested against the next
digit of either.  `Leading` says what the leading digits are; the lemmas say
that neither the estimate nor a failed test can pass below the true digit,
and that an estimate which passes the test is a digit, and the true one or
the next.
-/

namespace CloverVM.Machine.QuotientDigit

/-- The dividend and the divisor by their leading digits, down to places of
one weight; the quotient is a digit. -/
structure Leading (b dividend divisor u0 u1 u2 d0 d1 weight : Nat) :
    Prop where
  weight_pos : 0 < weight
  dividend_ge : ((u0 * b + u1) * b + u2) * weight ≤ dividend
  dividend_lt : dividend < ((u0 * b + u1) * b + u2 + 1) * weight
  divisor_ge : (d0 * b + d1) * weight ≤ divisor
  divisor_lt : divisor < (d0 * b + d1 + 1) * weight
  fits : dividend < divisor * b
  u1_lt : u1 < b
  u2_lt : u2 < b
  d1_lt : d1 < b
  half : b ≤ 2 * d0

namespace Leading

variable {b dividend divisor u0 u1 u2 d0 d1 weight : Nat}

theorem base_pos (h : Leading b dividend divisor u0 u1 u2 d0 d1 weight) :
    0 < b := lt_of_le_of_lt (Nat.zero_le u1) h.u1_lt

theorem high_pos (h : Leading b dividend divisor u0 u1 u2 d0 d1 weight) :
    0 < d0 := by
  have hBase := h.base_pos
  have hHalf := h.half
  omega

theorem divisor_pos (h : Leading b dividend divisor u0 u1 u2 d0 d1 weight) :
    0 < divisor := by
  have hHigh : 0 < (d0 * b + d1) * weight :=
    Nat.mul_pos (Nat.add_pos_left (Nat.mul_pos h.high_pos h.base_pos) d1)
      h.weight_pos
  exact lt_of_lt_of_le hHigh h.divisor_ge

/-- The leading pairs are ordered as the quotient is a digit. -/
theorem pair_le (h : Leading b dividend divisor u0 u1 u2 d0 d1 weight) :
    u0 * b + u1 ≤ d0 * b + d1 := by
  by_contra hNot
  have hPair : (d0 * b + d1 + 1) * b ≤ (u0 * b + u1) * b :=
    Nat.mul_le_mul_right b (by omega)
  have hUpper : divisor * b ≤ (d0 * b + d1 + 1) * b * weight := by
    calc divisor * b ≤ ((d0 * b + d1 + 1) * weight) * b :=
          Nat.mul_le_mul_right b h.divisor_lt.le
      _ = (d0 * b + d1 + 1) * b * weight := by ring
  have hLower : (d0 * b + d1 + 1) * b * weight ≤ dividend :=
    calc (d0 * b + d1 + 1) * b * weight
        ≤ ((u0 * b + u1) * b + u2) * weight :=
          Nat.mul_le_mul_right weight (by omega)
      _ ≤ dividend := h.dividend_ge
  have hFits := h.fits
  omega

theorem high_le (h : Leading b dividend divisor u0 u1 u2 d0 d1 weight) :
    u0 ≤ d0 := by
  by_contra hNot
  have hPair := h.pair_le
  have hNext : (d0 + 1) * b ≤ u0 * b := Nat.mul_le_mul_right b (by omega)
  have hDigit := h.d1_lt
  rw [Nat.add_mul, Nat.one_mul] at hNext
  omega

theorem quotient_lt_base
    (h : Leading b dividend divisor u0 u1 u2 d0 d1 weight) :
    dividend / divisor < b :=
  Nat.div_lt_of_lt_mul h.fits

/-- The estimate from the leading digits is not too small. -/
theorem quotient_le_estimate
    (h : Leading b dividend divisor u0 u1 u2 d0 d1 weight) :
    dividend / divisor ≤ (u0 * b + u1) / d0 := by
  rw [Nat.le_div_iff_mul_le h.high_pos]
  by_contra hNot
  have hScale : (u0 * b + u1 + 1) * (b * weight) ≤
      dividend / divisor * d0 * (b * weight) :=
    Nat.mul_le_mul_right _ (by omega)
  have hDivisor : dividend / divisor * ((d0 * b + d1) * weight) ≤ dividend :=
    (Nat.mul_le_mul_left _ h.divisor_ge).trans (Nat.div_mul_le_self _ _)
  have hNext : ((u0 * b + u1) * b + u2 + 1) * weight ≤
      (u0 * b + u1 + 1) * (b * weight) := by
    rw [← Nat.mul_assoc]
    refine Nat.mul_le_mul_right weight ?_
    rw [Nat.add_mul (u0 * b + u1), Nat.one_mul]
    have hDigit := h.u2_lt
    omega
  have hWide : dividend / divisor * d0 * (b * weight) ≤
      dividend / divisor * ((d0 * b + d1) * weight) := by
    rw [Nat.mul_assoc]
    refine Nat.mul_le_mul_left _ ?_
    rw [← Nat.mul_assoc]
    exact Nat.mul_le_mul_right weight (Nat.le_add_right _ _)
  have hTop := h.dividend_lt
  omega

/-- An estimate that fails the test is greater than the quotient. -/
theorem quotient_lt_of_test
    (h : Leading b dividend divisor u0 u1 u2 d0 d1 weight) {qHat rHat : Nat}
    (hSplit : qHat * d0 + rHat = u0 * b + u1)
    (hTest : b * rHat + u2 < qHat * d1) : dividend / divisor < qHat := by
  have hProduct : (u0 * b + u1) * b + u2 + 1 ≤ qHat * (d0 * b + d1) := by
    have hLeft : (u0 * b + u1) * b = qHat * (d0 * b) + b * rHat := by
      rw [← hSplit]
      ring
    rw [hLeft, Nat.mul_add]
    omega
  refine Nat.div_lt_of_lt_mul ?_
  calc dividend < ((u0 * b + u1) * b + u2 + 1) * weight := h.dividend_lt
    _ ≤ qHat * (d0 * b + d1) * weight := Nat.mul_le_mul_right weight hProduct
    _ = (d0 * b + d1) * weight * qHat := by ring
    _ ≤ divisor * qHat := Nat.mul_le_mul_right qHat h.divisor_ge

/-- The first estimate exceeds the base by one at most. -/
theorem estimate_le (h : Leading b dividend divisor u0 u1 u2 d0 d1 weight) :
    (u0 * b + u1) / d0 ≤ b + 1 := by
  have hHigh := Nat.mul_le_mul_right b h.high_le
  have hDigit := h.u1_lt
  have hHalf := h.half
  have hExpand : d0 * (b + 1 + 1) = d0 * b + 2 * d0 := by ring
  have hPair : u0 * b + u1 < d0 * (b + 1 + 1) := by omega
  exact Nat.le_of_lt_succ (Nat.div_lt_of_lt_mul hPair)

/-- An estimate that passes the test is below the base. -/
theorem lt_base_of_passes
    (h : Leading b dividend divisor u0 u1 u2 d0 d1 weight) {qHat rHat : Nat}
    (hSplit : qHat * d0 + rHat = u0 * b + u1) (hne : qHat ≠ b)
    (hPasses : qHat * d1 ≤ b * rHat + u2) : qHat < b := by
  by_contra hNot
  obtain ⟨e, rfl⟩ : ∃ e, qHat = b + 1 + e := ⟨qHat - (b + 1), by omega⟩
  have hPair := h.pair_le
  have hSum : d0 + rHat ≤ d1 := by
    have hExpand : (b + 1 + e) * d0 = d0 * b + d0 + e * d0 := by ring
    omega
  have hTest : (b + 1) * (d0 + rHat) ≤ (b + 1 + e) * d1 :=
    Nat.mul_le_mul (by omega) hSum
  have hBig : b * rHat + u2 < (b + 1) * (d0 + rHat) := by
    have hExpand : (b + 1) * (d0 + rHat) =
        b * d0 + b * rHat + d0 + rHat := by ring
    have hDigit := h.u2_lt
    have hHigh : b ≤ b * d0 := Nat.le_mul_of_pos_right b h.high_pos
    omega
  omega

/-- An estimate whose remainder reaches the base is below the base. -/
theorem lt_base_of_base_le_remainder
    (h : Leading b dividend divisor u0 u1 u2 d0 d1 weight) {qHat rHat : Nat}
    (hSplit : qHat * d0 + rHat = u0 * b + u1) (hRemainder : b ≤ rHat) :
    qHat < b := by
  by_contra hNot
  have hProduct : b * d0 ≤ qHat * d0 := Nat.mul_le_mul_right d0 (by omega)
  have hHigh := Nat.mul_le_mul_right b h.high_le
  have hComm : d0 * b = b * d0 := Nat.mul_comm _ _
  have hDigit := h.u1_lt
  omega

/-- A digit whose remainder reaches the base passes the test. -/
theorem passes_of_base_le_remainder
    (h : Leading b dividend divisor u0 u1 u2 d0 d1 weight) {qHat rHat : Nat}
    (hDigit : qHat < b) (hRemainder : b ≤ rHat) :
    qHat * d1 ≤ b * rHat + u2 :=
  calc qHat * d1 ≤ b * b := Nat.mul_le_mul hDigit.le h.d1_lt.le
    _ ≤ b * rHat := Nat.mul_le_mul_left b hRemainder
    _ ≤ b * rHat + u2 := Nat.le_add_right _ _

/-- A digit that passes the test exceeds the quotient by one at most. -/
theorem le_quotient_succ_of_passes
    (h : Leading b dividend divisor u0 u1 u2 d0 d1 weight) {qHat rHat : Nat}
    (hSplit : qHat * d0 + rHat = u0 * b + u1) (hDigit : qHat < b)
    (hPasses : qHat * d1 ≤ b * rHat + u2) :
    qHat ≤ dividend / divisor + 1 := by
  have hProduct : qHat * (d0 * b + d1) ≤ (u0 * b + u1) * b + u2 := by
    have hLeft : (u0 * b + u1) * b = qHat * (d0 * b) + b * rHat := by
      rw [← hSplit]
      ring
    rw [hLeft, Nat.mul_add]
    omega
  -- the places below the two leading digits add less than one divisor
  have hPlaces : b * weight ≤ divisor := by
    refine le_trans (Nat.mul_le_mul_right weight ?_) h.divisor_ge
    exact (Nat.le_mul_of_pos_left b h.high_pos).trans (Nat.le_add_right _ _)
  have hScaled : qHat * divisor ≤ dividend + divisor :=
    calc qHat * divisor ≤ qHat * ((d0 * b + d1 + 1) * weight) :=
          Nat.mul_le_mul_left qHat h.divisor_lt.le
      _ = qHat * (d0 * b + d1) * weight + qHat * weight := by ring
      _ ≤ ((u0 * b + u1) * b + u2) * weight + b * weight :=
          Nat.add_le_add (Nat.mul_le_mul_right weight hProduct)
            (Nat.mul_le_mul_right weight hDigit.le)
      _ ≤ dividend + divisor := Nat.add_le_add h.dividend_ge hPlaces
  have hQuotient := (Nat.le_div_iff_mul_le h.divisor_pos).mpr hScaled
  rwa [Nat.add_div_right _ h.divisor_pos] at hQuotient

end Leading

end CloverVM.Machine.QuotientDigit
