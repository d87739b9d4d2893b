import CloverVM.BuiltinTypes.BigIntDivisionWords

/-!
# The rounds of long division

Every round of the division loop, from whatever operands the loop is entered
with.  Before the round at place `j` the buffer holds, above that place, the
number of the dividend's places above it modulo the divisor; so the digit
that the round has to find is the digit of the quotient at place `j`.  The
estimate of the round is that digit or the next, and the words in which it is
found, multiplied back and subtracted do not wrap.
-/

namespace CloverVM.BuiltinTypes.BigInt

open CloverVM.Machine CloverVM.Machine.Digits CloverVM.Machine.QuotientDigit

/-- The digits of the divisor and of the buffer that a round estimates
from. -/
def roundDigits (divisor : ConstBigIntView) (dividend : List Digit)
    (j : Nat) : EstimateDigits :=
  let n := divisor.nDigits
  { divisorHigh := divisor.digits.getD (n - 1) 0
    divisorNext := if n ≥ 2 then divisor.digits.getD (n - 2) 0 else 0
    next := if j + n ≥ 2 then dividend.getD (j + n - 2) 0 else 0 }

/-- The estimate before it is corrected. -/
def firstEstimate (divisor : ConstBigIntView) (dividend : List Digit)
    (j : Nat) : Correction :=
  let n := divisor.nDigits
  let divisorHigh := widen (divisor.digits.getD (n - 1) 0)
  let highPair := widen (dividend.getD (j + n) 0) <<< kDigitBits |||
    widen (dividend.getD (j + n - 1) 0)
  ⟨highPair / divisorHigh, highPair % divisorHigh, false⟩

/-- The round behind the correction, from the corrected estimate on. -/
def finishRound (divisor : ConstBigIntView) (dividend : List Digit) (j : Nat)
    (qHat : Nat) : Option (Digit × List Digit) := do
  let segment ←
    normalizeBigintView ⟨1, (dividend.drop j).take (divisor.nDigits + 1)⟩
  let (digit, product) ← reduceEstimate divisor segment qHat
  let difference ← bigintAbsSubAliasLeft segment product
  some (toDigit digit,
    dividend.take j ++ difference ++ dividend.drop (j + segment.nDigits))

/-- The digit of the quotient at a place. -/
def quotientDigit (dividend divisor : ConstBigIntView) (j : Nat) : Nat :=
  dividend.magnitude / divisor.magnitude / (2 ^ 32) ^ j % 2 ^ 32

/-- The value of `reverse_j` and the dividend's buffer, before each round and
behind the last one. -/
inductive RoundStarts (dividend divisor : ConstBigIntView) :
    Nat → List Digit → Prop
  | first : RoundStarts dividend divisor
      (dividend.nDigits - divisor.nDigits) dividend.digits
  | next {j : Nat} {buffer rest : List Digit} {digit : Digit} :
      RoundStarts dividend divisor (j + 1) buffer →
      quotientStep divisor buffer j = some (digit, rest) →
      RoundStarts dividend divisor j rest

/-- The round at place `j` corrects its estimate to `last`. -/
structure RoundExact (dividend divisor : ConstBigIntView) (j : Nat)
    (buffer : List Digit) (last : Correction) : Prop where
  /-- The partial remainder is below the divisor. -/
  partial_lt : value (buffer.drop (j + 1)) < divisor.magnitude
  /-- The correction loop ends, after two turns at most. -/
  ends : (firstEstimate divisor buffer j).run
    (roundDigits divisor buffer j) 2 = some last
  done : last.done (roundDigits divisor buffer j) = true
  /-- Nothing wraps in its turns. -/
  correction : ∀ turns c, (firstEstimate divisor buffer j).run
    (roundDigits divisor buffer j) turns = some c → c.stopped = false →
      c.Exact (roundDigits divisor buffer j)
  /-- The corrected estimate is a digit. -/
  digit : last.qHat.toNat < 2 ^ 32
  /-- It is the digit of the quotient or the next. -/
  lower : quotientDigit dividend divisor j ≤ last.qHat.toNat
  upper : last.qHat.toNat ≤ quotientDigit dividend divisor j + 1
  /-- The round goes on from it. -/
  goes_on : quotientStep divisor buffer j =
    finishRound divisor buffer j last.qHat.toNat
  /-- Nothing wraps in the multiplications. -/
  multiplies : ∀ qHat : Digit, MultipliesExactly divisor.digits qHat
  /-- Nothing wraps in the subtraction, and no borrow is left. -/
  subtracts : ∃ segment product,
    normalizeBigintView ⟨1, (buffer.drop j).take (divisor.nDigits + 1)⟩ =
        some segment ∧
      reduceEstimate divisor segment last.qHat.toNat =
        some (quotientDigit dividend divisor j, product) ∧
      SubtractsExactly segment.digits product.digits ∧
      borrowAt segment.digits product.digits segment.nDigits = 0
  /-- The round stores the digit of the quotient, and leaves a remainder
  below the divisor. -/
  stores : ∃ rest, quotientStep divisor buffer j =
      some (toDigit (quotientDigit dividend divisor j), rest) ∧
    value (rest.drop j) < divisor.magnitude

/-- What the division loop asserts of its operands, and what its caller sees
to: the divisor has two digits or more, and the top digits of the dividend,
as many as the divisor has, are below it. -/
structure DivisionOperands (dividend divisor : ConstBigIntView) : Prop where
  normalized : isNormalizedBigintView divisor = true
  divisor_signum : divisor.signum = 1
  dividend_signum : dividend.signum = 1
  longer : divisor.nDigits < dividend.nDigits
  topBit : divisor.digits.getD (divisor.nDigits - 1) 0 &&& (1 <<< 31) ≠ 0
  two_le : 2 ≤ divisor.nDigits
  below : value (dividend.digits.drop (dividend.nDigits - divisor.nDigits)) <
    divisor.magnitude

/-- The operands with which the division of magnitudes gets to the loop. -/
structure ReachesLongDivision (dividend divisor : ConstBigIntView) :
    Prop where
  dividend_normalized : isNormalizedBigintView dividend = true
  divisor_normalized : isNormalizedBigintView divisor = true
  dividend_signum : dividend.signum = 1
  divisor_signum : divisor.signum = 1
  not_less : ∃ order, compareBigintAbs dividend divisor = some order ∧
    ¬ order < 0
  not_short : divisor.nDigits ≠ 1

/-- A digit with its top bit set. -/
theorem half_le_of_topBit {digit : Digit} (h : digit &&& (1 <<< 31) ≠ 0) :
    2 ^ 32 ≤ 2 * digit.toNat := by
  by_contra hNot
  refine h (BitVec.eq_of_toNat_eq ?_)
  have hTop : digit.toNat.testBit 31 = false :=
    Nat.testBit_lt_two_pow (by omega)
  have hMask : (1 <<< 31 : Digit).toNat = 2 ^ 31 := rfl
  rw [BitVec.toNat_and, hMask, Nat.and_two_pow, hTop]
  rfl

theorem denotes_magnitude {view : ConstBigIntView} (h : Normalized view)
    (hSign : view.signum = 1) : Denotes view (view.magnitude : Nat) := by
  have hSelf := denotes_self h
  rwa [ConstBigIntView.toInt, hSign, one_mul] at hSelf

theorem DivisionOperands.longDivisor {dividend divisor : ConstBigIntView}
    (h : DivisionOperands dividend divisor) :
    LongDivisor divisor divisor.magnitude where
  denotes := denotes_magnitude
    ((isNormalizedBigintView_iff divisor).mp h.normalized) h.divisor_signum
  two_le := h.two_le
  half := half_le_of_topBit h.topBit

/-! ## The buffer before a round -/

/-- Below the place the buffer is the dividend's; above it, it holds the
number of the dividend's places modulo the divisor. -/
structure RoundInvariant (dividend divisor : ConstBigIntView) (k : Nat)
    (buffer : List Digit) : Prop where
  le : k ≤ dividend.nDigits - divisor.nDigits
  length : buffer.length = dividend.nDigits
  low : buffer.take k = dividend.digits.take k
  high : value (buffer.drop k) =
    dividend.magnitude / (2 ^ 32) ^ k % divisor.magnitude

section Rounds

variable {dividend divisor : ConstBigIntView} {j : Nat} {buffer : List Digit}

/-- The window of a round, with one digit of the dividend below the partial
remainder. -/
theorem RoundInvariant.window
    (h : RoundInvariant dividend divisor (j + 1) buffer) :
    value (buffer.drop j) = dividend.magnitude / (2 ^ 32) ^ j %
      (2 ^ 32 * divisor.magnitude) := by
  have hPlaces : j + 1 ≤ dividend.nDigits := h.le.trans (Nat.sub_le _ _)
  have hPlace : j < dividend.digits.length := hPlaces
  have hDigit : buffer.getD j 0 = dividend.digits.getD j 0 := by
    have hTake := congrArg (fun digits => digits.getD j 0) h.low
    simpa [List.getD_eq_getElem?_getD, List.getElem?_take] using hTake
  have hBelow := value_drop buffer j (by rw [h.length]; exact hPlaces)
  have hDividend := value_drop dividend.digits j hPlace
  rw [value_drop_eq_div hPlace.le, value_drop_eq_div hPlaces] at hDividend
  change dividend.magnitude / _ = _ + 2 ^ 32 * (dividend.magnitude / _)
    at hDividend
  have hLow := (dividend.digits.getD j 0).isLt
  rw [hBelow, h.high, hDigit, Nat.mod_mul, hDividend,
    Nat.add_mul_mod_self_left, Nat.mod_eq_of_lt hLow,
    Nat.add_mul_div_left _ _ (by decide), Nat.div_eq_of_lt hLow, Nat.zero_add]

theorem RoundInvariant.window_div
    (h : RoundInvariant dividend divisor (j + 1) buffer) :
    value (buffer.drop j) / divisor.magnitude =
      quotientDigit dividend divisor j := by
  rw [h.window, Nat.mod_mul_left_div_self, Nat.div_right_comm]
  rfl

theorem RoundInvariant.window_mod
    (h : RoundInvariant dividend divisor (j + 1) buffer) :
    value (buffer.drop j) % divisor.magnitude =
      dividend.magnitude / (2 ^ 32) ^ j % divisor.magnitude := by
  rw [h.window, Nat.mod_mul_left_mod]

variable (h : DivisionOperands dividend divisor)

include h

theorem DivisionOperands.invariant_first :
    RoundInvariant dividend divisor (dividend.nDigits - divisor.nDigits)
      dividend.digits where
  le := le_refl _
  length := rfl
  low := rfl
  high := by
    have hPlaces : dividend.nDigits - divisor.nDigits ≤
        dividend.digits.length := Nat.sub_le _ _
    have hTop := h.below
    rw [value_drop_eq_div hPlaces] at hTop ⊢
    exact (Nat.mod_eq_of_lt hTop).symm

theorem DivisionOperands.window_fits
    (hBuffer : RoundInvariant dividend divisor (j + 1) buffer) :
    j + divisor.nDigits < buffer.length ∧
      value (buffer.drop j) < divisor.magnitude * 2 ^ 32 := by
  have hPlace := hBuffer.le
  have hLonger := h.longer
  refine ⟨by rw [hBuffer.length]; omega, ?_⟩
  rw [hBuffer.window, Nat.mul_comm divisor.magnitude]
  exact Nat.mod_lt _ (Nat.mul_pos (by decide) h.longDivisor.pos)

/-- A round keeps the invariant, one place further down. -/
theorem DivisionOperands.round
    (hBuffer : RoundInvariant dividend divisor (j + 1) buffer) :
    ∃ rest, quotientStep divisor buffer j =
        some (toDigit (quotientDigit dividend divisor j), rest) ∧
      RoundInvariant dividend divisor j rest := by
  obtain ⟨hLength, hSmall⟩ := h.window_fits hBuffer
  obtain ⟨rest, hStep, hSame, hTake, hDrop⟩ :=
    quotientStep_spec h.longDivisor buffer j hLength hSmall
  rw [hBuffer.window_div] at hStep
  refine ⟨rest, hStep, ?_⟩
  have hLow := congrArg (List.take j) hBuffer.low
  rw [List.take_take, List.take_take, Nat.min_eq_left (Nat.le_succ j)] at hLow
  exact
    { le := (Nat.le_succ j).trans hBuffer.le
      length := hSame.trans hBuffer.length
      low := hTake.trans hLow
      high := hDrop.trans hBuffer.window_mod }

/-- The invariant holds before every round. -/
theorem RoundStarts.invariant {k : Nat}
    (hStarts : RoundStarts dividend divisor k buffer) :
    RoundInvariant dividend divisor k buffer := by
  induction hStarts with
  | first => exact h.invariant_first
  | next _ hStep ih =>
      obtain ⟨rest, hRound, hRest⟩ := h.round ih
      rw [hStep, Option.some.injEq, Prod.mk.injEq] at hRound
      rw [hRound.2]
      exact hRest

end Rounds

/-- The loop goes through the rounds one after the other. -/
theorem RoundStarts.loop {dividend divisor : ConstBigIntView} (count : Nat) :
    ∀ {buffer quotient rest : List Digit},
      RoundStarts dividend divisor count buffer →
      quotientLoop divisor count buffer = some (quotient, rest) →
      RoundStarts dividend divisor 0 rest := by
  induction count with
  | zero =>
      intro buffer quotient rest hStarts hRun
      cases hRun
      exact hStarts
  | succ j ih =>
      intro buffer quotient rest hStarts hRun
      rw [quotientLoop] at hRun
      obtain ⟨⟨digit, next⟩, hStep, hRun⟩ := exists_of_bind hRun
      obtain ⟨⟨low, last⟩, hLoop, hEnd⟩ := exists_of_bind hRun
      cases hEnd
      exact ih (hStarts.next hStep) hLoop

/-! ## What a round computes -/

theorem toNat_highPair (high low : Digit) :
    (widen high <<< kDigitBits ||| widen low).toNat =
      high.toNat <<< kDigitBits ||| low.toNat := by
  have hHigh := high.isLt
  have hFits : high.toNat <<< kDigitBits < 2 ^ 64 := by
    rw [Nat.shiftLeft_eq, kDigitBits]
    omega
  rw [BitVec.toNat_or, BitVec.toNat_shiftLeft, toNat_widen, toNat_widen,
    Nat.mod_eq_of_lt hFits]

/-- The round is the correction of its first estimate, and what follows. -/
theorem quotientStep_eq (divisor : ConstBigIntView) {dividend : List Digit}
    {j : Nat} (hLength : j + divisor.nDigits < dividend.length) :
    quotientStep divisor dividend j =
      (do
        let qHat ← correctEstimate
          (roundDigits divisor dividend j).divisorHigh.toNat
          (roundDigits divisor dividend j).divisorNext.toNat
          (roundDigits divisor dividend j).next.toNat
          (firstEstimate divisor dividend j).qHat.toNat
          (firstEstimate divisor dividend j).rHat.toNat
        finishRound divisor dividend j qHat) := by
  rw [quotientStep, check_bind hLength]
  simp only [firstEstimate, BitVec.toNat_udiv, BitVec.toNat_umod,
    toNat_highPair, toNat_widen]
  rfl

section Round

variable {divisor : ConstBigIntView} {d : Nat} {buffer : List Digit} {j : Nat}

theorem LongDivisor.roundLeading (h : LongDivisor divisor d)
    (hLength : j + divisor.nDigits < buffer.length)
    (hSmall : value (buffer.drop j) < d * 2 ^ 32) :
    Leading (2 ^ 32) (value (buffer.drop j)) d
      (buffer.getD (j + divisor.nDigits) 0).toNat
      (buffer.getD (j + divisor.nDigits - 1) 0).toNat
      (roundDigits divisor buffer j).next.toNat
      (roundDigits divisor buffer j).divisorHigh.toNat
      (roundDigits divisor buffer j).divisorNext.toNat
      ((2 ^ 32) ^ (divisor.nDigits - 2)) := by
  have hTwo : j + divisor.nDigits ≥ 2 :=
    le_trans h.two_le (Nat.le_add_left _ _)
  simp only [roundDigits, if_pos h.two_le, if_pos hTwo]
  exact h.leading hLength hSmall

/-- The first estimate keeps to the invariant of the correction. -/
theorem estimates_firstEstimate {u0 u1 : Digit} {weight : Nat}
    (hu0 : buffer.getD (j + divisor.nDigits) 0 = u0)
    (hu1 : buffer.getD (j + divisor.nDigits - 1) 0 = u1)
    (hLeading : Leading (2 ^ 32) (value (buffer.drop j)) d u0.toNat u1.toNat
      (roundDigits divisor buffer j).next.toNat
      (roundDigits divisor buffer j).divisorHigh.toNat
      (roundDigits divisor buffer j).divisorNext.toNat weight) :
    Estimates (roundDigits divisor buffer j) (u0.toNat * 2 ^ 32 + u1.toNat)
      (value (buffer.drop j) / d) (firstEstimate divisor buffer j) := by
  have hPair := toNat_highPair u0 u1
  rw [shiftLeft_or_digit, Nat.mul_comm] at hPair
  have hRemainder : (u0.toNat * 2 ^ 32 + u1.toNat) %
      (roundDigits divisor buffer j).divisorHigh.toNat < 2 ^ 32 :=
    (Nat.mod_lt _ hLeading.high_pos).trans (BitVec.isLt _)
  have hQHat : (firstEstimate divisor buffer j).qHat.toNat =
      (u0.toNat * 2 ^ 32 + u1.toNat) /
        (roundDigits divisor buffer j).divisorHigh.toNat := by
    simp only [firstEstimate, BitVec.toNat_udiv, hu0, hu1, hPair, toNat_widen]
    rfl
  have hRHat : (firstEstimate divisor buffer j).rHat.toNat =
      (u0.toNat * 2 ^ 32 + u1.toNat) %
        (roundDigits divisor buffer j).divisorHigh.toNat := by
    simp only [firstEstimate, BitVec.toNat_umod, hu0, hu1, hPair, toNat_widen]
    rfl
  refine
    { split := ?_
      quotient_le := ?_
      qHat_le := ?_
      rHat_lt := ?_
      stopped_iff := ?_ }
  · rw [hQHat, hRHat]
    exact Nat.div_add_mod' _ _
  · rw [hQHat]
    exact hLeading.quotient_le_estimate
  · rw [hQHat]
    exact hLeading.estimate_le
  · rw [hRHat]
    omega
  · rw [hRHat]
    exact iff_of_false Bool.false_ne_true (Nat.not_le.mpr hRemainder)

/-- Multiplying back from an estimate that is a digit and not too small, and
subtracting what comes of it. -/
theorem LongDivisor.subtracts (h : LongDivisor divisor d)
    (hLength : j + divisor.nDigits < buffer.length)
    (hSmall : value (buffer.drop j) < d * 2 ^ 32) {qHat : Nat}
    (hDigit : qHat < 2 ^ 32) (hLower : value (buffer.drop j) / d ≤ qHat) :
    ∃ segment product,
      normalizeBigintView ⟨1, (buffer.drop j).take (divisor.nDigits + 1)⟩ =
          some segment ∧
        reduceEstimate divisor segment qHat =
          some (value (buffer.drop j) / d, product) ∧
        SubtractsExactly segment.digits product.digits ∧
        borrowAt segment.digits product.digits segment.nDigits = 0 := by
  obtain ⟨segment, hSegment, -, hDenotes⟩ := h.segment hLength hSmall
  obtain ⟨product, hReduce, hProduct⟩ :=
    reduceEstimate_spec h.denotes hDenotes h.pos qHat hDigit hLower
  have hFits := Nat.mul_div_le (value (buffer.drop j)) d
  have hDigits : product.nDigits ≤ segment.nDigits :=
    hProduct.nDigits_le (lt_of_le_of_lt hFits hDenotes.lt_pow)
  have hLe : value product.digits ≤ value segment.digits := by
    rw [hProduct.value_digits, hDenotes.value_digits]
    exact hFits
  exact ⟨segment, product, hSegment, hReduce, subtractsExactly _ _,
    absSubWords_of_le hDigits hLe⟩

end Round

theorem DivisionOperands.roundExact {dividend divisor : ConstBigIntView}
    {j : Nat} {buffer : List Digit} (h : DivisionOperands dividend divisor)
    (hBuffer : RoundInvariant dividend divisor (j + 1) buffer) :
    ∃ last, RoundExact dividend divisor j buffer last := by
  obtain ⟨hLength, hSmall⟩ := h.window_fits hBuffer
  have hLeading := h.longDivisor.roundLeading hLength hSmall
  have hFirst := estimates_firstEstimate rfl rfl hLeading
  obtain ⟨last, hRun, hLast, hDone⟩ := hFirst.ends hLeading
  obtain ⟨hDigit, hUpper⟩ := hLast.digit_of_done hLeading hDone
  have hSubtracts := h.longDivisor.subtracts hLength hSmall hDigit
    hLast.quotient_le
  have hLower := hLast.quotient_le
  rw [hBuffer.window_div] at hSubtracts hLower hUpper
  have hEstimate := Estimates.correctEstimate_eq hLeading 2 hFirst rfl hRun
    hDone
  obtain ⟨rest, hStep, hRest⟩ := h.round hBuffer
  have hPos := h.longDivisor.pos
  refine ⟨last,
    { partial_lt := ?_
      ends := hRun
      done := hDone
      correction := fun _ _ hTurns hRunning =>
        hFirst.exact_of_run hLeading hTurns hRunning
      digit := hDigit
      lower := hLower
      upper := hUpper
      goes_on := ?_
      multiplies := fun qHat => multipliesExactly divisor.digits qHat
      subtracts := hSubtracts
      stores := ⟨rest, hStep, ?_⟩ }⟩
  · rw [hBuffer.high]
    exact Nat.mod_lt _ hPos
  · rw [quotientStep_eq divisor hLength]
    exact bind_of_eq_some hEstimate _
  · rw [hRest.high]
    exact Nat.mod_lt _ hPos

/-- The division of magnitudes shifts its operands, enters the loop with
buffers long enough, and shifts the remainder back. -/
structure EntersLoop (dividend divisor normalizedDividend
    normalizedDivisor : ConstBigIntView) : Prop where
  operands : DivisionOperands normalizedDividend normalizedDivisor
  quotient_fits : normalizedDividend.nDigits - normalizedDivisor.nDigits ≤
    dividend.nDigits
  remainder_fits : normalizedDivisor.nDigits ≤ divisor.nDigits + 1
  call : ∃ normalizationShift, ∀ quotientCapacity remainderCapacity,
    bigintAbsDivmodInto quotientCapacity remainderCapacity dividend divisor =
      (do
        let (quotient, normalizedRemainder) ← bigintAbsDivmodNormalizedInto
          quotientCapacity (divisor.nDigits + 1) normalizedDividend
          normalizedDivisor
        let remainder ← bigintShiftRightAbsInto remainderCapacity
          normalizedRemainder normalizationShift
        some (quotient, remainder))

theorem ReachesLongDivision.entersLoop {dividend divisor : ConstBigIntView}
    (h : ReachesLongDivision dividend divisor) :
    ∃ normalizedDividend normalizedDivisor,
      EntersLoop dividend divisor normalizedDividend normalizedDivisor := by
  have hDividend := (isNormalizedBigintView_iff _).mp h.dividend_normalized
  have hDivisor := (isNormalizedBigintView_iff _).mp h.divisor_normalized
  have ha := denotes_magnitude hDividend h.dividend_signum
  have hd := denotes_magnitude hDivisor h.divisor_signum
  have hTwo : 2 ≤ divisor.nDigits := by
    have hNonempty : divisor.digits ≠ [] := by
      intro hNil
      have hZero := hDivisor.signum_eq_zero_iff.mpr hNil
      rw [h.divisor_signum] at hZero
      exact one_ne_zero hZero
    have hLength := List.length_pos_iff.mpr hNonempty
    have hShort := h.not_short
    rw [ConstBigIntView.nDigits] at hShort ⊢
    omega
  obtain ⟨order, hOrder, hNotLess⟩ := h.not_less
  have hLe : divisor.magnitude ≤ dividend.magnitude := by
    rw [compareBigintAbs_eq_sign hDividend hDivisor, Option.some.injEq]
      at hOrder
    rw [← hOrder, Int.sign_neg_iff] at hNotLess
    omega
  obtain ⟨s, padded, normal, hs, hShift, hOperands, hPadSign, hPadLength,
    hPadValue, hNormalLength, hLong, hTop⟩ :=
    normalizeOperands_spec ha hd hTwo hLe
  have hDigits : divisor.nDigits ≤ dividend.nDigits :=
    hd.nDigits_le (lt_of_le_of_lt hLe ha.lt_pow)
  refine ⟨padded, normal,
    { operands := ?_
      quotient_fits := by omega
      remainder_fits := by omega
      call := ⟨s, fun quotientCapacity remainderCapacity => ?_⟩ }⟩
  · exact
      { normalized := (isNormalizedBigintView_iff _).mpr
          hLong.denotes.normalized
        divisor_signum := hLong.denotes.signum_eq_one hLong.pos
        dividend_signum := hPadSign
        longer := by omega
        topBit := topBit_ne_zero hLong.half
        two_le := hLong.two_le
        below := hTop.trans_eq hLong.denotes.value_digits.symm }
  · rw [bigintAbsDivmodInto, check_normalized hDividend,
      check_normalized hDivisor, check_bind (Or.inr h.dividend_signum),
      check_bind h.divisor_signum,
      if_neg (by rw [h.dividend_signum]; exact one_ne_zero),
      bind_of_eq_some hOrder, if_neg hNotLess, if_neg h.not_short,
      bigintAbsDivmodLong_eq, hShift]
    exact bind_of_eq_some hOperands _

/-! ## All rounds -/

/-- The loop ends behind its last round, and quotient and remainder make up
the dividend. -/
structure DividesExactly (quotientCapacity remainderCapacity : Nat)
    (dividend divisor : ConstBigIntView) : Prop where
  rounds : ∃ digits rest,
    quotientLoop divisor (dividend.nDigits - divisor.nDigits)
        dividend.digits = some (digits, rest) ∧
      RoundStarts dividend divisor 0 rest
  results : ∃ quotient remainder, bigintAbsDivmodNormalizedInto
      quotientCapacity remainderCapacity dividend divisor =
        some (quotient, remainder) ∧
    Normalized quotient ∧ Normalized remainder ∧
    quotient.magnitude * divisor.magnitude + remainder.magnitude =
      dividend.magnitude ∧
    remainder.magnitude < divisor.magnitude

theorem DivisionOperands.divides {dividend divisor : ConstBigIntView}
    (h : DivisionOperands dividend divisor)
    {quotientCapacity remainderCapacity : Nat}
    (hQuotient : dividend.nDigits - divisor.nDigits ≤ quotientCapacity)
    (hRemainder : divisor.nDigits ≤ remainderCapacity) :
    DividesExactly quotientCapacity remainderCapacity dividend divisor := by
  obtain ⟨digits, rest, hRun, -⟩ := quotientLoop_spec h.longDivisor
    (dividend.nDigits - divisor.nDigits) dividend.digits
    (Nat.sub_add_cancel h.longer.le).le h.below
  refine ⟨⟨digits, rest, hRun, RoundStarts.first.loop _ hRun⟩, ?_⟩
  obtain ⟨quotient, remainder, hInto, hq, hr⟩ :=
    bigintAbsDivmodNormalizedInto_spec quotientCapacity remainderCapacity
      h.longDivisor h.dividend_signum h.longer h.below hQuotient hRemainder
  have hQuotientValue : quotient.magnitude =
      dividend.magnitude / divisor.magnitude := hq.value_digits
  have hRemainderValue : remainder.magnitude =
      dividend.magnitude % divisor.magnitude := hr.value_digits
  refine ⟨quotient, remainder, hInto, hq.normalized, hr.normalized, ?_, ?_⟩
  · rw [hQuotientValue, hRemainderValue]
    exact Nat.div_add_mod' _ _
  · rw [hRemainderValue]
    exact Nat.mod_lt _ h.longDivisor.pos

/-- Long division.  A division of magnitudes that gets to the loop enters it
with operands it can divide.  For all such operands, each round corrects its
estimate, in two turns at most, to the digit of the quotient or the next,
multiplies back and subtracts, all without wrapping, and leaves a remainder
below the divisor; and the loop divides exactly. -/
theorem bigint_long_division_step :
    (∀ dividend divisor, ReachesLongDivision dividend divisor →
      ∃ normalizedDividend normalizedDivisor,
        EntersLoop dividend divisor normalizedDividend normalizedDivisor) ∧
    ∀ dividend divisor, DivisionOperands dividend divisor →
      (∀ j buffer, RoundStarts dividend divisor (j + 1) buffer →
        ∃ last, RoundExact dividend divisor j buffer last) ∧
      ∀ quotientCapacity remainderCapacity,
        dividend.nDigits - divisor.nDigits ≤ quotientCapacity →
        divisor.nDigits ≤ remainderCapacity →
        DividesExactly quotientCapacity remainderCapacity dividend
          divisor := by
  refine ⟨fun _ _ h => h.entersLoop, fun dividend divisor h => ⟨?_, ?_⟩⟩
  · intro j buffer hStarts
    exact h.roundExact (hStarts.invariant h)
  · intro quotientCapacity remainderCapacity hQuotient hRemainder
    exact h.divides hQuotient hRemainder

/-- A dividend of four digits. -/
def addBackDividend : ConstBigIntView := ⟨1, [12, 0, 0, 2]⟩

/-- A divisor of three digits with its top bit set. -/
def addBackDivisor : ConstBigIntView := ⟨1, [4, 0, 0x80000000]⟩

/-- A round whose corrected estimate, four, is above the digit, three. -/
theorem bigint_long_division_step_at_add_back :
    quotientDigit addBackDividend addBackDivisor 0 = 3 ∧
      (firstEstimate addBackDivisor addBackDividend.digits 0).run
          (roundDigits addBackDivisor addBackDividend.digits 0) 2 =
        some ⟨4, 0, false⟩ ∧
      (∃ last, RoundExact addBackDividend addBackDivisor 0
        addBackDividend.digits last) ∧
      DividesExactly 1 3 addBackDividend addBackDivisor := by
  have hOperands : DivisionOperands addBackDividend addBackDivisor :=
    { normalized := by decide
      divisor_signum := rfl
      dividend_signum := rfl
      longer := by decide
      topBit := by decide
      two_le := by decide
      below := by decide }
  obtain ⟨hRounds, hExit⟩ := bigint_long_division_step.2 _ _ hOperands
  exact ⟨by decide, by decide, hRounds 0 _ RoundStarts.first,
    hExit 1 3 (by decide) (by decide)⟩

end CloverVM.BuiltinTypes.BigInt
