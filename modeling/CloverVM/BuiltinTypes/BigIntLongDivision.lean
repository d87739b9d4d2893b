import CloverVM.BuiltinTypes.BigIntShift
import CloverVM.Machine.QuotientDigit

/-!
# Long division

The division step finds the true digit of the quotient and leaves the
remainder in the buffer; the loop over the places keeps

  quotient so far × divisor + buffer = dividend,

with the part of the buffer above the current place below the divisor.
-/

namespace CloverVM.BuiltinTypes.BigInt

open CloverVM.Machine CloverVM.Machine.Digits CloverVM.Machine.QuotientDigit

section Estimate

variable {dividend divisor u0 u1 u2 d0 d1 weight : Nat}

/-- The test of the code, without a wrapped intermediate. -/
theorem estimateTooBig_eq {qHat rHat : Nat} (hq : qHat ≤ 2 ^ 32 + 1)
    (hr : rHat < 2 ^ 32) (hd1 : d1 < 2 ^ 32) (hu2 : u2 < 2 ^ 32) :
    estimateTooBig d1 u2 qHat rHat = some (decide
      (qHat = 2 ^ 32 ∨ 2 ^ 32 * rHat + u2 < qHat * d1)) := by
  unfold estimateTooBig kDigitBase
  by_cases hBase : qHat = 2 ^ 32
  · rw [if_pos hBase, decide_eq_true (Or.inl hBase)]
  · have hProduct : qHat * d1 ≤ (2 ^ 32 + 1) * (2 ^ 32 - 1) :=
      Nat.mul_le_mul hq (by omega)
    rw [if_neg hBase, doubleDigit_eq_some (by omega),
      doubleDigit_eq_some (by omega)]
    have hTest : (qHat = 2 ^ 32 ∨ 2 ^ 32 * rHat + u2 < qHat * d1) ↔
        qHat * d1 > 2 ^ 32 * rHat + u2 := or_iff_right hBase
    rw [decide_eq_decide.mpr hTest]
    rfl

/-- The corrected estimate is a digit and not below the true one. -/
theorem correctEstimate_spec
    (h : Leading (2 ^ 32) dividend divisor u0 u1 u2 d0 d1 weight)
    (hHigh : d0 < 2 ^ 32) (qHat : Nat) :
    ∀ rHat : Nat, dividend / divisor ≤ qHat →
      qHat * d0 + rHat = u0 * 2 ^ 32 + u1 → qHat ≤ 2 ^ 32 + 1 →
      rHat < 2 ^ 32 →
      ∃ digit, correctEstimate d0 d1 u2 qHat rHat = some digit ∧
        dividend / divisor ≤ digit ∧ digit < 2 ^ 32 := by
  induction qHat with
  | zero =>
      intro rHat hLow hSplit hq hr
      have hPasses : ¬ (0 = 2 ^ 32 ∨ 2 ^ 32 * rHat + u2 < 0 * d1) := by
        rw [Nat.zero_mul]
        omega
      refine ⟨0, ?_, hLow, by decide⟩
      unfold correctEstimate
      rw [estimateTooBig_eq hq hr h.d1_lt h.u2_lt, decide_eq_false hPasses]
      rfl
  | succ qHat ih =>
      intro rHat hLow hSplit hq hr
      unfold correctEstimate
      rw [estimateTooBig_eq hq hr h.d1_lt h.u2_lt]
      by_cases hTest : qHat + 1 = 2 ^ 32 ∨
          2 ^ 32 * rHat + u2 < (qHat + 1) * d1
      · have hBelow : dividend / divisor ≤ qHat := by
          rcases hTest with hBase | hTooBig
          · have hDigit := h.quotient_lt_base
            omega
          · have hLess := h.quotient_lt_of_test hSplit hTooBig
            omega
        have hNext : qHat * d0 + (rHat + d0) = u0 * 2 ^ 32 + u1 := by
          rw [← hSplit, Nat.add_mul]
          omega
        rw [decide_eq_true hTest, Option.bind_eq_bind, Option.bind_some,
          if_pos rfl, doubleDigit_eq_some (by omega)]
        change ∃ digit, (if rHat + d0 ≥ 2 ^ 32 then _ else _) = _ ∧ _
        by_cases hStop : rHat + d0 ≥ 2 ^ 32
        · rw [if_pos hStop]
          exact ⟨qHat, rfl, hBelow, h.lt_base_of_base_le_remainder hNext hStop⟩
        · rw [if_neg hStop]
          exact ih (rHat + d0) hBelow hNext (by omega) (by omega)
      · obtain ⟨hne, hPasses⟩ := not_or.mp hTest
        rw [decide_eq_false hTest]
        exact ⟨qHat + 1, rfl, hLow,
          h.lt_base_of_passes hSplit hne (by omega)⟩

/-- The estimate from the two leading digits, corrected. -/
theorem correctEstimate_leading
    (h : Leading (2 ^ 32) dividend divisor u0 u1 u2 d0 d1 weight)
    (hHigh : d0 < 2 ^ 32) :
    ∃ digit, correctEstimate d0 d1 u2 ((u0 * 2 ^ 32 + u1) / d0)
        ((u0 * 2 ^ 32 + u1) % d0) = some digit ∧
      dividend / divisor ≤ digit ∧ digit < 2 ^ 32 := by
  have hRemainder : (u0 * 2 ^ 32 + u1) % d0 < 2 ^ 32 :=
    (Nat.mod_lt _ h.high_pos).trans hHigh
  have hSplit := Nat.div_add_mod' (u0 * 2 ^ 32 + u1) d0
  exact correctEstimate_spec h hHigh _ _ h.quotient_le_estimate hSplit
    h.estimate_le hRemainder

end Estimate

/-- Multiplying back ends at the quotient of the segment. -/
theorem reduceEstimate_spec {divisor segment : ConstBigIntView} {d u : Nat}
    (hDivisor : Denotes divisor d) (hSegment : Denotes segment u)
    (hPos : 0 < d) (qHat : Nat) (hDigit : qHat < 2 ^ 32)
    (hLow : u / d ≤ qHat) :
    ∃ product, reduceEstimate divisor segment qHat = some (u / d, product) ∧
      Denotes product (d * (u / d) : Nat) := by
  -- the product of an estimate and how it compares to the segment
  have hRound : ∀ q, q < 2 ^ 32 → ∃ product,
      bigintAbsMulDigitInto (divisor.nDigits + 1) divisor (toDigit q) =
        some product ∧ Denotes product (d * q : Nat) ∧
      compareBigintAbs segment product =
        some ((u : Int) - (d * q : Nat)).sign := by
    intro q hq
    obtain ⟨product, hRun, hProduct⟩ :=
      bigintAbsMulDigitInto_spec hDivisor (le_refl _) (toDigit q)
    rw [toNat_toDigit hq] at hProduct
    refine ⟨product, hRun, hProduct, ?_⟩
    rw [compareBigintAbs_eq_sign hSegment.normalized hProduct.normalized,
      hSegment.magnitude, hProduct.magnitude, Int.natAbs_natCast,
      Int.natAbs_natCast]
  have hFit : d * (u / d) ≤ u := Nat.mul_div_le u d
  induction qHat with
  | zero =>
      have hZero : u / d = 0 := Nat.le_zero.mp hLow
      obtain ⟨product, hRun, hProduct, hCompare⟩ := hRound 0 (by decide)
      refine ⟨product, ?_, by rwa [hZero]⟩
      have hOrder : ¬ ((u : Int) - (d * 0 : Nat)).sign < 0 := by
        rw [Int.sign_neg_iff]
        simp
      unfold reduceEstimate
      refine (bind_of_eq_some hRun _).trans ?_
      refine (bind_of_eq_some hCompare _).trans ?_
      rw [if_neg hOrder, hZero]
  | succ qHat ih =>
      obtain ⟨product, hRun, hProduct, hCompare⟩ := hRound (qHat + 1) hDigit
      unfold reduceEstimate
      rw [bind_of_eq_some hRun, bind_of_eq_some hCompare]
      by_cases hTooBig : u / d ≤ qHat
      · have hOver : (u : Int) - (d * (qHat + 1) : Nat) < 0 := by
          have hLess : u < (qHat + 1) * d :=
            (Nat.div_lt_iff_lt_mul hPos).mp (by omega)
          rw [Nat.mul_comm] at hLess
          omega
        rw [if_pos (Int.sign_neg_iff.mpr hOver)]
        exact ih (by omega) hTooBig
      · have hExact : u / d = qHat + 1 := by omega
        have hUnder : ¬ (u : Int) - (d * (qHat + 1) : Nat) < 0 := by
          rw [hExact] at hFit
          omega
        rw [if_neg (mt Int.sign_neg_iff.mp hUnder), hExact]
        exact ⟨product, rfl, hProduct⟩

/-! ## One place -/

theorem Denotes.pos_of_nDigits_pos {view : ConstBigIntView} {n : Nat}
    (h : Denotes view n) (hDigits : 0 < view.nDigits) : 0 < n := by
  rw [← h.value_digits]
  exact value_pos h.normalized.trimmed (List.length_pos_iff.mp hDigits)

/-- The divisor as the division loop needs it: two digits or more, with the
top bit set. -/
structure LongDivisor (divisor : ConstBigIntView) (d : Nat) : Prop where
  denotes : Denotes divisor d
  two_le : 2 ≤ divisor.nDigits
  half : 2 ^ 32 ≤ 2 * (divisor.digits.getD (divisor.nDigits - 1) 0).toNat

theorem LongDivisor.pos {divisor : ConstBigIntView} {d : Nat}
    (h : LongDivisor divisor d) : 0 < d :=
  h.denotes.pos_of_nDigits_pos (lt_of_lt_of_le two_pos h.two_le)

theorem LongDivisor.lt_pow {divisor : ConstBigIntView} {d : Nat}
    (h : LongDivisor divisor d) : d < (2 ^ 32) ^ divisor.nDigits := by
  rw [← h.denotes.value_digits]
  exact value_lt divisor.digits

/-- The places above the window are zero when the window is small enough. -/
theorem value_drop_window {dividend : List Digit} {j n d : Nat}
    (hLength : j + n < dividend.length) (hDivisor : d < (2 ^ 32) ^ n)
    (hSmall : value (dividend.drop j) < d * 2 ^ 32) :
    value (dividend.drop (j + (n + 1))) = 0 := by
  have hWindow : n + 1 ≤ (dividend.drop j).length := by
    rw [List.length_drop]
    omega
  have hHigh := value_drop_eq_div hWindow
  rw [List.drop_drop] at hHigh
  rw [hHigh]
  refine Nat.div_eq_of_lt (hSmall.trans ?_)
  rw [Nat.pow_succ]
  exact Nat.mul_lt_mul_of_pos_right hDivisor (by decide)

/-- The leading digits of the window and of the divisor. -/
theorem LongDivisor.leading {divisor : ConstBigIntView} {d : Nat}
    (h : LongDivisor divisor d) {dividend : List Digit} {j : Nat}
    (hLength : j + divisor.nDigits < dividend.length)
    (hSmall : value (dividend.drop j) < d * 2 ^ 32) :
    Leading (2 ^ 32) (value (dividend.drop j)) d
      (dividend.getD (j + divisor.nDigits) 0).toNat
      (dividend.getD (j + divisor.nDigits - 1) 0).toNat
      (dividend.getD (j + divisor.nDigits - 2) 0).toNat
      (divisor.digits.getD (divisor.nDigits - 1) 0).toNat
      (divisor.digits.getD (divisor.nDigits - 2) 0).toNat
      ((2 ^ 32) ^ (divisor.nDigits - 2)) := by
  obtain ⟨k, hk⟩ : ∃ k, divisor.nDigits = k + 2 :=
    ⟨divisor.nDigits - 2, by have := h.two_le; omega⟩
  have hTop := value_drop_window hLength h.lt_pow hSmall
  have hHalf := h.half
  have hDivisor := h.denotes.value_digits
  have hDigits : divisor.digits.length = k + 2 := hk
  rw [hk] at hLength hTop hHalf ⊢
  simp only [Nat.add_sub_cancel, show k + 2 - 1 = k + 1 from rfl,
    show j + (k + 2) - 1 = j + (k + 1) from rfl,
    show j + (k + 2) - 2 = j + k from rfl] at hHalf ⊢
  -- the number of the window by its low places and its three top digits
  have hWindow := value_take_add_drop (dividend.drop j) k
    (by rw [List.length_drop]; omega)
  rw [List.drop_drop] at hWindow
  have hLow := value_lt ((dividend.drop j).take k)
  rw [List.length_take, List.length_drop, Nat.min_eq_left (by omega)] at hLow
  have hPlace2 := value_drop dividend (j + k) (by omega)
  have hPlace1 := value_drop dividend (j + k + 1) (by omega)
  have hPlace0 := value_drop dividend (j + k + 2) (by omega)
  rw [show j + k + 2 + 1 = j + (k + 2 + 1) from rfl, hTop, Nat.mul_zero,
    Nat.add_zero] at hPlace0
  -- and the number of the divisor by its two
  have hDivisorLow := value_lt (divisor.digits.take k)
  rw [List.length_take, Nat.min_eq_left (by omega)] at hDivisorLow
  have hDivisorSplit := value_take_add_drop divisor.digits k
    (by omega)
  have hDivisor1 := value_drop divisor.digits k (by omega)
  have hDivisor0 := value_drop divisor.digits (k + 1) (by omega)
  rw [List.drop_eq_nil_of_le (i := k + 1 + 1) (by omega), value_nil,
    Nat.mul_zero, Nat.add_zero] at hDivisor0
  rw [hDivisor1, hDivisor0, hDivisor] at hDivisorSplit
  rw [hPlace2, hPlace1, hPlace0] at hWindow
  have hu1 := (dividend.getD (j + (k + 1)) 0).isLt
  have hu2 := (dividend.getD (j + k) 0).isLt
  have hd1 := (divisor.digits.getD k 0).isLt
  rw [show j + (k + 2) = j + k + 2 from rfl,
    show j + (k + 1) = j + k + 1 from rfl] at *
  generalize (dividend.getD (j + k + 2) 0).toNat = u0 at *
  generalize (dividend.getD (j + k + 1) 0).toNat = u1 at *
  generalize (dividend.getD (j + k) 0).toNat = u2 at *
  generalize (divisor.digits.getD (k + 1) 0).toNat = d0 at *
  generalize (divisor.digits.getD k 0).toNat = d1 at *
  refine
    { weight_pos := by positivity
      dividend_ge := ?_
      dividend_lt := ?_
      divisor_ge := ?_
      divisor_lt := ?_
      fits := hSmall
      u1_lt := hu1
      u2_lt := hu2
      d1_lt := hd1
      half := hHalf }
  · rw [← hWindow]
    refine le_of_eq_of_le ?_ (Nat.le_add_left _ _)
    ring
  · rw [← hWindow]
    refine lt_of_lt_of_eq (Nat.add_lt_add_right hLow _) ?_
    ring
  · rw [← hDivisorSplit]
    refine le_of_eq_of_le ?_ (Nat.le_add_left _ _)
    ring
  · rw [← hDivisorSplit]
    refine lt_of_lt_of_eq (Nat.add_lt_add_right hDivisorLow _) ?_
    ring

/-- The segment of a round holds the whole number above its place. -/
theorem LongDivisor.segment {divisor : ConstBigIntView} {d : Nat}
    (h : LongDivisor divisor d) {dividend : List Digit} {j : Nat}
    (hLength : j + divisor.nDigits < dividend.length)
    (hSmall : value (dividend.drop j) < d * 2 ^ 32) :
    ∃ segment, normalizeBigintView
        ⟨1, (dividend.drop j).take (divisor.nDigits + 1)⟩ = some segment ∧
      segment.digits = trim ((dividend.drop j).take (divisor.nDigits + 1)) ∧
      Denotes segment (value (dividend.drop j) : Nat) := by
  have hTop := value_drop_window hLength h.lt_pow hSmall
  have hWindow := value_take_add_drop (dividend.drop j) (divisor.nDigits + 1)
    (by rw [List.length_drop]; omega)
  rw [List.drop_drop, hTop, Nat.mul_zero, Nat.add_zero] at hWindow
  rw [← hWindow]
  exact normalize_positive _

/-- One round of division: the digit is the quotient of the window, and the
remainder takes the window's place in the buffer. -/
theorem quotientStep_spec {divisor : ConstBigIntView} {d : Nat}
    (h : LongDivisor divisor d) (dividend : List Digit) (j : Nat)
    (hLength : j + divisor.nDigits < dividend.length)
    (hSmall : value (dividend.drop j) < d * 2 ^ 32) :
    ∃ rest, quotientStep divisor dividend j =
        some (toDigit (value (dividend.drop j) / d), rest) ∧
      rest.length = dividend.length ∧ rest.take j = dividend.take j ∧
      value (rest.drop j) = value (dividend.drop j) % d := by
  have hLeading := h.leading hLength hSmall
  obtain ⟨segment, hSegment, hDigits, hDenotes⟩ := h.segment hLength hSmall
  have hHigh := (divisor.digits.getD (divisor.nDigits - 1) 0).isLt
  obtain ⟨estimate, hEstimate, hEstimateGe, hEstimateLt⟩ :=
    correctEstimate_leading hLeading hHigh
  obtain ⟨product, hReduce, hProduct⟩ := reduceEstimate_spec h.denotes hDenotes
    h.pos estimate hEstimateLt hEstimateGe
  generalize hNumber : value (dividend.drop j) = window at *
  obtain ⟨difference, hSub, hCount, hDifference⟩ :=
    bigintAbsSubAliasLeft_spec hDenotes hProduct (Nat.mul_div_le window d)
  have hRemainder : window - d * (window / d) = window % d := by
    have hDivision := Nat.div_add_mod window d
    omega
  rw [hRemainder] at hDifference
  -- the segment is a prefix of the window; what lies above it is zero
  have hSegmentLength : segment.nDigits ≤ (dividend.drop j).length := by
    have hTrim :=
      length_trim_le ((dividend.drop j).take (divisor.nDigits + 1))
    rw [← hDigits] at hTrim
    exact hTrim.trans (List.length_take_le' _ _)
  have hPrefix : (dividend.drop j).take segment.nDigits = segment.digits := by
    have hTrim : segment.digits <+:
        (dividend.drop j).take (divisor.nDigits + 1) := by
      rw [hDigits]
      exact List.rdropWhile_prefix _ _
    exact (List.prefix_iff_eq_take.mp
      (hTrim.trans (List.take_prefix _ _))).symm
  have hAbove : value (dividend.drop (j + segment.nDigits)) = 0 := by
    have hSplit := value_take_add_drop (dividend.drop j) segment.nDigits
      hSegmentLength
    rw [hPrefix, hDenotes.value_digits, List.drop_drop, hNumber] at hSplit
    have hProductZero := Nat.add_left_cancel (hSplit.trans (Nat.add_zero _).symm)
    refine (Nat.mul_eq_zero.mp hProductZero).resolve_left ?_
    positivity
  have hTake : (dividend.take j).length = j := by
    rw [List.length_take, Nat.min_eq_left (by omega)]
  have hDrop : (dividend.take j ++ difference ++
      dividend.drop (j + segment.nDigits)).drop j =
      difference ++ dividend.drop (j + segment.nDigits) := by
    rw [List.append_assoc, List.drop_left' hTake]
  refine ⟨dividend.take j ++ difference ++
    dividend.drop (j + segment.nDigits), ?_, ?_, ?_, ?_⟩
  · have hTwo : j + divisor.nDigits ≥ 2 := le_trans h.two_le (Nat.le_add_left _ _)
    unfold quotientStep
    simp only [if_pos h.two_le, if_pos hTwo, shiftLeft_or_digit]
    rw [check_bind hLength, Nat.mul_comm (2 ^ 32)]
    refine (bind_of_eq_some hEstimate _).trans ?_
    refine (bind_of_eq_some hSegment _).trans ?_
    refine (bind_of_eq_some hReduce _).trans ?_
    exact bind_of_eq_some hSub _
  · rw [List.length_append, List.length_append, hTake, hCount,
      List.length_drop]
    rw [List.length_drop] at hSegmentLength
    omega
  · rw [List.append_assoc, List.take_left' hTake]
  · rw [hDrop, value_append, hAbove, Nat.mul_zero, Nat.add_zero, hDifference]

/-! ## All places -/

/-- The invariant of the division loop: what is left above the current place
is below the divisor, and quotient and buffer make up the dividend. -/
theorem quotientLoop_spec {divisor : ConstBigIntView} {d : Nat}
    (h : LongDivisor divisor d) (count : Nat) :
    ∀ dividend : List Digit, count + divisor.nDigits ≤ dividend.length →
      value (dividend.drop count) < d →
      ∃ quotient rest, quotientLoop divisor count dividend =
          some (quotient, rest) ∧
        quotient.length = count ∧ value rest < d ∧
        value quotient * d + value rest = value dividend := by
  induction count with
  | zero =>
      intro dividend _ hSmall
      exact ⟨[], dividend, rfl, rfl, hSmall, by simp⟩
  | succ j ih =>
      intro dividend hLength hSmall
      have hPlace := value_drop dividend j (by omega)
      have hDigit := (dividend.getD j 0).isLt
      have hWindow : value (dividend.drop j) < d * 2 ^ 32 := by
        have hScale : 2 ^ 32 * (value (dividend.drop (j + 1)) + 1) ≤
            2 ^ 32 * d := Nat.mul_le_mul_left _ hSmall
        omega
      obtain ⟨next, hStep, hNextLength, hTake, hDrop⟩ :=
        quotientStep_spec h dividend j (by omega) hWindow
      obtain ⟨quotient, rest, hRun, hCount, hRest, hValue⟩ :=
        ih next (by omega) (by rw [hDrop]; exact Nat.mod_lt _ h.pos)
      have hNext := value_take_add_drop next j (by omega)
      have hWhole := value_take_add_drop dividend j (by omega)
      have hTop : (toDigit (value (dividend.drop j) / d)).toNat =
          value (dividend.drop j) / d :=
        toNat_toDigit (Nat.div_lt_of_lt_mul hWindow)
      have hDivision := Nat.div_add_mod (value (dividend.drop j)) d
      refine ⟨quotient ++ [toDigit (value (dividend.drop j) / d)], rest, ?_,
        by simp [hCount], hRest, ?_⟩
      · rw [quotientLoop]
        refine (bind_of_eq_some hStep _).trans ?_
        exact bind_of_eq_some hRun _
      · rw [value_append, value_cons, value_nil, hCount, hTop, Nat.mul_zero,
          Nat.add_zero, ← hWhole, ← hTake]
        rw [hDrop] at hNext
        generalize value (dividend.drop j) = window at *
        calc (value quotient + (2 ^ 32) ^ j * (window / d)) * d + value rest
            = value quotient * d + value rest +
                (2 ^ 32) ^ j * (d * (window / d)) := by ring
          _ = value (next.take j) + (2 ^ 32) ^ j *
                (d * (window / d) + window % d) := by
              rw [hValue, ← hNext]
              ring
          _ = value (next.take j) + (2 ^ 32) ^ j * window := by rw [hDivision]

/-- The top bit of a digit. -/
theorem topBit_ne_zero {digit : Digit} (h : 2 ^ 32 ≤ 2 * digit.toNat) :
    digit &&& (1 <<< 31) ≠ 0 := by
  intro hZero
  have hBit := congrArg (fun x : Digit => x.getLsbD 31) hZero
  have hMsb : digit.getLsbD 31 = true := by
    rw [← BitVec.msb_eq_getLsbD_last, BitVec.msb_eq_decide]
    exact decide_eq_true (by omega)
  simp only [BitVec.getLsbD_and, hMsb] at hBit
  exact absurd hBit (by decide)

/-- Quotient and remainder of a normalized pair of magnitudes. -/
theorem bigintAbsDivmodNormalizedInto_spec
    (quotientCapacity remainderCapacity : Nat)
    {dividend divisor : ConstBigIntView} {d : Nat} (h : LongDivisor divisor d)
    (hSign : dividend.signum = 1)
    (hLength : divisor.nDigits < dividend.nDigits)
    (hTop : value (dividend.digits.drop
      (dividend.nDigits - divisor.nDigits)) < d)
    (hQuotient : dividend.nDigits - divisor.nDigits ≤ quotientCapacity)
    (hRemainder : divisor.nDigits ≤ remainderCapacity) :
    ∃ quotient remainder, bigintAbsDivmodNormalizedInto quotientCapacity
        remainderCapacity dividend divisor = some (quotient, remainder) ∧
      Denotes quotient (value dividend.digits / d : Nat) ∧
      Denotes remainder (value dividend.digits % d : Nat) := by
  have hCount : dividend.nDigits - divisor.nDigits - 1 + 1 =
      dividend.nDigits - divisor.nDigits := by omega
  have hOne := h.denotes.signum_eq_one h.pos
  obtain ⟨digits, rest, hRun, hDigits, hSmall, hValue⟩ := quotientLoop_spec h
    (dividend.nDigits - divisor.nDigits) dividend.digits
    (Nat.sub_add_cancel hLength.le).le hTop
  obtain ⟨quotient, hQuotientRun, -, hQuotientDenotes⟩ :=
    normalize_unsignedView digits
  obtain ⟨remainder, hRemainderRun, hRestDigits, hRemainderDenotes⟩ :=
    normalize_positive rest
  have hSplit : value rest + d * value digits = value dividend.digits := by
    rw [Nat.mul_comm, Nat.add_comm]
    exact hValue
  obtain ⟨hDiv, hMod⟩ := (Nat.div_mod_unique h.pos).mpr ⟨hSplit, hSmall⟩
  have hRemainderLength : remainder.nDigits ≤ remainderCapacity := by
    refine le_trans (length_le_of_value_lt
      hRemainderDenotes.normalized.trimmed ?_) hRemainder
    rw [hRemainderDenotes.value_digits]
    exact hSmall.trans h.lt_pow
  refine ⟨quotient, remainder, ?_, by rwa [hDiv], by rwa [hMod]⟩
  unfold bigintAbsDivmodNormalizedInto
  rw [check_normalized h.denotes.normalized, check_bind hOne,
    check_bind hSign, check_bind hLength, check_bind (topBit_ne_zero h.half)]
  simp only [hCount]
  rw [check_bind hQuotient]
  refine (bind_of_eq_some hRun _).trans ?_
  refine (bind_of_eq_some hQuotientRun _).trans ?_
  rw [hSign]
  refine (bind_of_eq_some hRemainderRun _).trans ?_
  exact check_bind hRemainderLength _

/-! ## Shifting to and from the normalized pair -/

/-- The digits of a positive number determine its length. -/
theorem Denotes.nDigits_le {view : ConstBigIntView} {a n : Nat}
    (h : Denotes view a) (hLt : a < (2 ^ 32) ^ n) : view.nDigits ≤ n := by
  refine length_le_of_value_lt h.normalized.trimmed ?_
  rwa [h.value_digits]

theorem Denotes.lt_pow {view : ConstBigIntView} {a : Nat}
    (h : Denotes view a) : a < (2 ^ 32) ^ view.nDigits := by
  rw [← h.value_digits]
  exact value_lt view.digits

theorem Denotes.pow_le {view : ConstBigIntView} {a : Nat}
    (h : Denotes view a) (hPos : 0 < a) :
    (2 ^ 32) ^ (view.nDigits - 1) ≤ a := by
  rw [← h.value_digits]
  refine pow_le_value h.normalized.trimmed ?_
  rw [Ne, h.digits_eq_nil_iff]
  omega

theorem Denotes.nDigits_pos {view : ConstBigIntView} {a : Nat}
    (h : Denotes view a) (hPos : 0 < a) : 0 < view.nDigits := by
  refine List.length_pos_iff.mpr ?_
  rw [Ne, h.digits_eq_nil_iff]
  omega

/-- A number of at least the weight of its `n`-th place has `n` digits. -/
theorem Denotes.le_nDigits {view : ConstBigIntView} {a n : Nat}
    (h : Denotes view a) (hLe : (2 ^ 32) ^ (n - 1) ≤ a) (hn : 0 < n) :
    n ≤ view.nDigits := by
  by_contra hShort
  have hLt := h.lt_pow
  have hPow : (2 ^ 32) ^ view.nDigits ≤ (2 ^ 32) ^ (n - 1) :=
    Nat.pow_le_pow_right (by decide) (by omega)
  omega

/-- The top digit and the digits below it. -/
theorem Denotes.top_digit {view : ConstBigIntView} {a : Nat}
    (h : Denotes view a) (hPos : 0 < a) :
    (view.digits.getD (view.nDigits - 1) 0).toNat =
      a / (2 ^ 32) ^ (view.nDigits - 1) := by
  have hDigits := h.nDigits_pos hPos
  have hLength : view.nDigits - 1 < view.digits.length :=
    Nat.sub_one_lt hDigits.ne'
  have hTop := value_drop _ _ hLength
  have hEmpty : view.digits.drop (view.nDigits - 1 + 1) = [] := by
    refine List.drop_eq_nil_of_le ?_
    rw [Nat.sub_add_cancel hDigits]
    exact le_refl _
  rw [hEmpty, value_nil, Nat.mul_zero, Nat.add_zero,
    value_drop_eq_div hLength.le, h.value_digits] at hTop
  exact hTop.symm

theorem Denotes.top_digit_ne_zero {view : ConstBigIntView} {a : Nat}
    (h : Denotes view a) (hPos : 0 < a) :
    view.digits.getD (view.nDigits - 1) 0 ≠ 0 := by
  intro hZero
  have hTop := h.top_digit hPos
  rw [hZero] at hTop
  have hBelow := (Nat.div_eq_zero_iff_lt (by positivity)).mp hTop.symm
  have hAbove := h.pow_le hPos
  omega

/-- Shifting by the leading zeros sets the top bit and keeps the length. -/
theorem countlZero_spec {digit : Digit} (hne : digit ≠ 0) :
    countlZero digit < 32 ∧
      2 ^ 31 ≤ digit.toNat * 2 ^ countlZero digit ∧
      (digit.toNat + 1) * 2 ^ countlZero digit ≤ 2 ^ 32 := by
  have hLow := BitVec.two_pow_sub_clz_le_toNat_of_ne_zero (x := digit)
    (by decide) hne
  have hHigh := BitVec.toNat_lt_two_pow_sub_clz (x := digit)
  unfold countlZero
  have hClz : digit.clz.toNat < 32 := by
    by_contra hNot
    rw [show 32 - digit.clz.toNat = 0 by omega, Nat.pow_zero] at hHigh
    exact hne ((toNat_eq_zero_iff digit).mp (by omega))
  refine ⟨hClz, ?_, ?_⟩
  · calc 2 ^ 31 = 2 ^ (32 - 1 - digit.clz.toNat) * 2 ^ digit.clz.toNat := by
          rw [← Nat.pow_add]
          congr 1
          omega
      _ ≤ digit.toNat * 2 ^ digit.clz.toNat := Nat.mul_le_mul_right _ hLow
  · calc (digit.toNat + 1) * 2 ^ digit.clz.toNat
        ≤ 2 ^ (32 - digit.clz.toNat) * 2 ^ digit.clz.toNat :=
          Nat.mul_le_mul_right _ hHigh
      _ = 2 ^ 32 := by
          rw [← Nat.pow_add]
          congr 1
          omega

/-- The shifted divisor is one the division loop can use. -/
theorem longDivisor_of_shift {divisor shifted : ConstBigIntView} {d : Nat}
    (h : Denotes divisor d) (hTwo : 2 ≤ divisor.nDigits)
    (hShifted : Denotes shifted (d * 2 ^ countlZero
      (divisor.digits.getD (divisor.nDigits - 1) 0) : Nat)) :
    shifted.nDigits = divisor.nDigits ∧ LongDivisor shifted
      (d * 2 ^ countlZero (divisor.digits.getD (divisor.nDigits - 1) 0)) := by
  have hPos := h.pos_of_nDigits_pos (lt_of_lt_of_le two_pos hTwo)
  have hTop := h.top_digit hPos
  have hWeight : 0 < (2 ^ 32) ^ (divisor.nDigits - 1) := by positivity
  have hPower : (2 ^ 32) ^ divisor.nDigits =
      2 ^ 32 * (2 ^ 32) ^ (divisor.nDigits - 1) := by
    rw [← Nat.pow_succ', Nat.succ_eq_add_one, Nat.sub_add_cancel (by omega)]
  obtain ⟨-, hHalf, hFull⟩ := countlZero_spec (h.top_digit_ne_zero hPos)
  rw [hTop] at hHalf hFull
  generalize countlZero (divisor.digits.getD (divisor.nDigits - 1) 0) = s at *
  generalize hWeightEq : (2 ^ 32) ^ (divisor.nDigits - 1) = weight at *
  have hLower : 2 ^ 31 * weight ≤ d * 2 ^ s := by
    calc 2 ^ 31 * weight ≤ d / weight * 2 ^ s * weight :=
          Nat.mul_le_mul_right _ hHalf
      _ = d / weight * weight * 2 ^ s := by ring
      _ ≤ d * 2 ^ s := Nat.mul_le_mul_right _ (Nat.div_mul_le_self d weight)
  have hUpper : d * 2 ^ s < 2 ^ 32 * weight := by
    have hNext : d < (d / weight + 1) * weight :=
      (Nat.div_lt_iff_lt_mul hWeight).mp (Nat.lt_succ_self _)
    calc d * 2 ^ s < (d / weight + 1) * weight * 2 ^ s :=
          Nat.mul_lt_mul_of_pos_right hNext (by positivity)
      _ = (d / weight + 1) * 2 ^ s * weight := by ring
      _ ≤ 2 ^ 32 * weight := Nat.mul_le_mul_right _ hFull
  have hScaled : 0 < d * 2 ^ s := Nat.mul_pos hPos (by positivity)
  have hLength : shifted.nDigits = divisor.nDigits := by
    refine le_antisymm (hShifted.nDigits_le (by rwa [hPower])) ?_
    refine hShifted.le_nDigits ?_ (by omega)
    rw [hWeightEq]
    exact le_trans (Nat.le_mul_of_pos_left _ (by decide)) hLower
  refine ⟨hLength, hShifted, by omega, ?_⟩
  rw [hShifted.top_digit hScaled, hLength, hWeightEq]
  have hDigit : 2 ^ 31 ≤ d * 2 ^ s / weight :=
    (Nat.le_div_iff_mul_le hWeight).mpr hLower
  omega

/-- The shifted dividend, padded to one digit more than the dividend. -/
theorem padDividend_spec {dividend shifted : ConstBigIntView} {a s : Nat}
    (h : Denotes dividend a) (hPos : 0 < a) (hs : s < 32)
    (hShifted : Denotes shifted (a * 2 ^ s : Nat)) :
    ∃ padded, padDividend (dividend.nDigits + 1) dividend shifted =
        some padded ∧
      padded.signum = 1 ∧ padded.nDigits = dividend.nDigits + 1 ∧
      value padded.digits = a * 2 ^ s := by
  have hScaled : 0 < a * 2 ^ s := Nat.mul_pos hPos (by positivity)
  have hOne := hShifted.signum_eq_one hScaled
  have hAtLeast : dividend.nDigits ≤ shifted.nDigits := by
    refine hShifted.le_nDigits ?_ (h.nDigits_pos hPos)
    exact (h.pow_le hPos).trans (Nat.le_mul_of_pos_right _ (by positivity))
  have hAtMost : shifted.nDigits ≤ dividend.nDigits + 1 := by
    refine hShifted.nDigits_le ?_
    rw [Nat.pow_succ]
    exact Nat.mul_lt_mul_of_lt_of_le h.lt_pow
      (Nat.pow_le_pow_right (by decide) hs.le) (by positivity)
  unfold padDividend
  by_cases hSame : shifted.nDigits = dividend.nDigits
  · rw [if_pos hSame]
    refine ⟨_, check_bind (by omega) _, hOne, ?_, ?_⟩
    · simp only [ConstBigIntView.nDigits, List.length_append,
        List.length_singleton]
      exact congrArg (· + 1) hSame
    · have hZero : value [(0 : Digit)] = 0 := rfl
      rw [value_append, hZero, Nat.mul_zero, Nat.add_zero,
        hShifted.value_digits]
  · rw [if_neg hSame]
    exact ⟨shifted, rfl, hOne, by omega, hShifted.value_digits⟩

/-- The shifts before the division: the operands of the division loop. -/
def normalizeOperands (dividend divisor : ConstBigIntView) :
    Option (ConstBigIntView × ConstBigIntView) := do
  let high := divisor.digits.getD (divisor.nDigits - 1) 0
  check (high ≠ 0)
  let normalizationShift := countlZero high
  let shifted ← bigintShiftLeftInto (dividend.nDigits + 1) dividend
    normalizationShift
  let normalizedDivisor ← bigintShiftLeftInto (divisor.nDigits + 1) divisor
    normalizationShift
  let normalizedDividend ← padDividend (dividend.nDigits + 1) dividend shifted
  some (normalizedDividend, normalizedDivisor)

/-- The branch for a long divisor: shift, divide, shift back. -/
theorem bigintAbsDivmodLong_eq (quotientCapacity remainderCapacity : Nat)
    (dividend divisor : ConstBigIntView) :
    bigintAbsDivmodLong quotientCapacity remainderCapacity dividend divisor =
      (do
        let (normalizedDividend, normalizedDivisor) ←
          normalizeOperands dividend divisor
        let (quotient, normalizedRemainder) ← bigintAbsDivmodNormalizedInto
          quotientCapacity (divisor.nDigits + 1) normalizedDividend
          normalizedDivisor
        let remainder ← bigintShiftRightAbsInto remainderCapacity
          normalizedRemainder
          (countlZero (divisor.digits.getD (divisor.nDigits - 1) 0))
        some (quotient, remainder)) := by
  simp only [bigintAbsDivmodLong, normalizeOperands, Option.bind_eq_bind,
    Option.bind_assoc, Option.bind_some]

/-- The shifted operands are ones the division loop can divide. -/
theorem normalizeOperands_spec {a d : Nat}
    {dividend divisor : ConstBigIntView} (ha : Denotes dividend a)
    (hd : Denotes divisor d) (hTwo : 2 ≤ divisor.nDigits) (hLe : d ≤ a) :
    ∃ s padded normal, s < 32 ∧
      countlZero (divisor.digits.getD (divisor.nDigits - 1) 0) = s ∧
      normalizeOperands dividend divisor = some (padded, normal) ∧
      padded.signum = 1 ∧ padded.nDigits = dividend.nDigits + 1 ∧
      value padded.digits = a * 2 ^ s ∧
      normal.nDigits = divisor.nDigits ∧ LongDivisor normal (d * 2 ^ s) ∧
      value (padded.digits.drop (padded.nDigits - normal.nDigits)) <
        d * 2 ^ s := by
  have hdPos := hd.pos_of_nDigits_pos (lt_of_lt_of_le two_pos hTwo)
  have haPos : 0 < a := by omega
  have hLengths : divisor.nDigits ≤ dividend.nDigits :=
    hd.nDigits_le (lt_of_le_of_lt hLe ha.lt_pow)
  have hne := hd.top_digit_ne_zero hdPos
  obtain ⟨hs, -, -⟩ := countlZero_spec hne
  have hShiftedDivisor := fun shifted : ConstBigIntView =>
    @longDivisor_of_shift divisor shifted d hd hTwo
  unfold normalizeOperands
  simp only [check_bind hne]
  generalize countlZero (divisor.digits.getD (divisor.nDigits - 1) 0) = s at *
  have hNoWhole : s / kDigitBits = 0 := Nat.div_eq_of_lt hs
  obtain ⟨shifted, hShiftRun, hShifted⟩ := bigintShiftLeftInto_natCast
    (dividend.nDigits + 1) s ha
    (by rw [hNoWhole]; exact Nat.zero_le _) (by rw [hNoWhole])
  obtain ⟨normal, hNormalRun, hNormal⟩ := bigintShiftLeftInto_natCast
    (divisor.nDigits + 1) s hd
    (by rw [hNoWhole]; exact Nat.zero_le _) (by rw [hNoWhole])
  obtain ⟨hNormalLength, hLong⟩ := hShiftedDivisor normal hNormal
  obtain ⟨padded, hPadRun, hPadSign, hPadLength, hPadValue⟩ :=
    padDividend_spec ha haPos hs hShifted
  have hTop : value (padded.digits.drop (padded.nDigits - normal.nDigits)) <
      d * 2 ^ s := by
    have hPlaces : padded.nDigits - normal.nDigits ≤ padded.digits.length :=
      Nat.sub_le _ _
    rw [value_drop_eq_div hPlaces, hPadValue, hPadLength, hNormalLength]
    refine Nat.div_lt_of_lt_mul ?_
    have hSplit : (2 ^ 32) ^ dividend.nDigits =
        (2 ^ 32) ^ (dividend.nDigits + 1 - divisor.nDigits) *
          (2 ^ 32) ^ (divisor.nDigits - 1) := by
      rw [← Nat.pow_add]
      congr 1
      omega
    rw [← Nat.mul_assoc]
    refine Nat.mul_lt_mul_of_pos_right ?_ (by positivity)
    calc a < (2 ^ 32) ^ dividend.nDigits := ha.lt_pow
      _ = (2 ^ 32) ^ (dividend.nDigits + 1 - divisor.nDigits) *
            (2 ^ 32) ^ (divisor.nDigits - 1) := hSplit
      _ ≤ _ := Nat.mul_le_mul_left _ (hd.pow_le hdPos)
  refine ⟨s, padded, normal, hs, rfl, ?_, hPadSign, hPadLength, hPadValue,
    hNormalLength, hLong, hTop⟩
  refine (bind_of_eq_some hShiftRun _).trans ?_
  refine (bind_of_eq_some hNormalRun _).trans ?_
  exact bind_of_eq_some hPadRun _

theorem bigintAbsDivmodLong_spec {quotientCapacity remainderCapacity a d : Nat}
    {dividend divisor : ConstBigIntView} (ha : Denotes dividend a)
    (hd : Denotes divisor d) (hTwo : 2 ≤ divisor.nDigits) (hLe : d ≤ a)
    (hQuotient : dividend.nDigits ≤ quotientCapacity)
    (hRemainder : dividend.nDigits ≤ remainderCapacity) :
    ∃ quotient remainder, bigintAbsDivmodLong quotientCapacity
        remainderCapacity dividend divisor = some (quotient, remainder) ∧
      Denotes quotient (a / d : Nat) ∧ Denotes remainder (a % d : Nat) := by
  have hLengths : divisor.nDigits ≤ dividend.nDigits :=
    hd.nDigits_le (lt_of_le_of_lt hLe ha.lt_pow)
  obtain ⟨s, padded, normal, hs, hShift, hOperands, hPadSign, hPadLength,
    hPadValue, hNormalLength, hLong, hTop⟩ :=
    normalizeOperands_spec ha hd hTwo hLe
  obtain ⟨quotient, remainder, hRun, hQuotientDenotes, hRemainderDenotes⟩ :=
    bigintAbsDivmodNormalizedInto_spec quotientCapacity
      (divisor.nDigits + 1) hLong hPadSign
      (by omega) hTop (by omega) (by omega)
  rw [hPadValue] at hQuotientDenotes hRemainderDenotes
  have hNoWhole : s / kDigitBits = 0 := Nat.div_eq_of_lt hs
  have hShiftPos : 0 < 2 ^ s := by positivity
  have hdPos : 0 < d := Nat.pos_of_mul_pos_right hLong.pos
  rw [Nat.mul_div_mul_right _ _ hShiftPos] at hQuotientDenotes
  rw [Nat.mul_mod_mul_right] at hRemainderDenotes
  have hRemainderLength : remainder.nDigits ≤ divisor.nDigits := by
    refine hRemainderDenotes.nDigits_le ?_
    rw [← hNormalLength]
    refine lt_trans ?_ hLong.lt_pow
    exact Nat.mul_lt_mul_of_pos_right (Nat.mod_lt a hdPos) hShiftPos
  obtain ⟨shiftedBack, hBackRun, hBack⟩ := bigintShiftRightAbsInto_spec
    remainderCapacity s hRemainderDenotes (by omega)
  rw [Nat.mul_div_cancel _ hShiftPos] at hBack
  refine ⟨quotient, shiftedBack, ?_, hQuotientDenotes, hBack⟩
  rw [bigintAbsDivmodLong_eq, hShift]
  refine (bind_of_eq_some hOperands _).trans ?_
  refine (bind_of_eq_some hRun _).trans ?_
  exact bind_of_eq_some hBackRun _

theorem bigintAbsDivmodShort_spec {quotientCapacity remainderCapacity a d : Nat}
    {dividend divisor : ConstBigIntView} (ha : Denotes dividend a)
    (hd : Denotes divisor d) (hOne : divisor.nDigits = 1)
    (hQuotient : dividend.nDigits ≤ quotientCapacity)
    (hRemainder : 1 ≤ remainderCapacity) :
    ∃ quotient remainder, bigintAbsDivmodShort quotientCapacity
        remainderCapacity dividend divisor = some (quotient, remainder) ∧
      Denotes quotient (a / d : Nat) ∧ Denotes remainder (a % d : Nat) := by
  have hPos := hd.pos_of_nDigits_pos (lt_of_lt_of_eq one_pos hOne.symm)
  have hTop := hd.top_digit hPos
  rw [hOne, Nat.sub_self, Nat.pow_zero, Nat.div_one] at hTop
  have hDigit : divisor.digits.getD 0 0 ≠ 0 := by
    have hne := hd.top_digit_ne_zero hPos
    rwa [hOne] at hne
  obtain ⟨quotient, remainder, hRun, hDenotes, hRest⟩ :=
    divmodAbsByU32_spec ha hDigit hQuotient
  rw [hTop] at hDenotes hRest
  unfold bigintAbsDivmodShort
  rw [bind_of_eq_some hRun]
  by_cases hZero : remainder = 0
  · rw [hZero] at hRest
    refine ⟨quotient, ⟨0, []⟩, if_pos hZero, hDenotes, ?_⟩
    rw [← hRest]
    exact denotes_zero
  · refine ⟨quotient, ⟨1, [remainder]⟩, (if_neg hZero).trans ?_, hDenotes, ?_⟩
    · exact check_bind hRemainder _
    · have hTrimmed : Trimmed [remainder] :=
        (trimmed_append_singleton []).mpr hZero
      have hView := denotes_of_trimmed hTrimmed (List.cons_ne_nil _ _)
        (Or.inr rfl)
      have hNumber : value [remainder] = a % d := by
        rw [value_cons, value_nil, Nat.mul_zero, Nat.add_zero, hRest]
      rwa [one_mul, hNumber] at hView

/-- Quotient and remainder of two magnitudes. -/
theorem bigintAbsDivmodInto_spec (quotientCapacity remainderCapacity : Nat)
    {a d : Nat} {dividend divisor : ConstBigIntView} (ha : Denotes dividend a)
    (hd : Denotes divisor d) (hPos : 0 < d)
    (hQuotient : dividend.nDigits ≤ quotientCapacity)
    (hRemainder : max dividend.nDigits 1 ≤ remainderCapacity) :
    ∃ quotient remainder, bigintAbsDivmodInto quotientCapacity
        remainderCapacity dividend divisor = some (quotient, remainder) ∧
      Denotes quotient (a / d : Nat) ∧ Denotes remainder (a % d : Nat) := by
  have hSign := hd.signum_eq_one hPos
  obtain ⟨order, hOrder, hLess⟩ : ∃ order,
      (if dividend.signum = 0 then some (-1)
        else compareBigintAbs dividend divisor) = some order ∧
      (order < 0 ↔ a < d) := by
    by_cases hZero : dividend.signum = 0
    · have haZero := Int.natCast_eq_zero.mp (ha.signum_eq_zero_iff.mp hZero)
      exact ⟨-1, if_pos hZero, by omega⟩
    · refine ⟨((a : Int) - d).sign, ?_, ?_⟩
      · rw [if_neg hZero,
          compareBigintAbs_eq_sign ha.normalized hd.normalized, ha.magnitude,
          hd.magnitude, Int.natAbs_natCast, Int.natAbs_natCast]
      · rw [Int.sign_neg_iff]
        omega
  unfold bigintAbsDivmodInto
  rw [check_normalized ha.normalized, check_normalized hd.normalized,
    check_bind ha.signum_nonneg, check_bind hSign, bind_of_eq_some hOrder]
  by_cases hBelow : a < d
  · rw [if_pos (hLess.mpr hBelow), Nat.div_eq_of_lt hBelow,
      Nat.mod_eq_of_lt hBelow,
      copyBigintView_eq ha.normalized (by omega)]
    exact ⟨⟨0, []⟩, dividend, rfl, denotes_zero, ha⟩
  rw [if_neg (mt hLess.mp hBelow)]
  by_cases hOne : divisor.nDigits = 1
  · rw [if_pos hOne]
    exact bigintAbsDivmodShort_spec ha hd hOne hQuotient (by omega)
  · have hDigits := hd.nDigits_pos hPos
    rw [if_neg hOne]
    exact bigintAbsDivmodLong_spec ha hd (by omega) (by omega) hQuotient
      (by omega)

end CloverVM.BuiltinTypes.BigInt
