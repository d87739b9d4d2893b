import CloverVM.BuiltinTypes.BigIntArithmetic
import CloverVM.BuiltinTypes.BigIntDivision

/-!
# The parts of long division

What the loops around the division step compute: division and multiplication
by one digit, subtraction in place, and the shifts before and after.
-/

namespace CloverVM.BuiltinTypes.BigInt

open CloverVM.Machine CloverVM.Machine.Digits

theorem Denotes.signum_nonneg {view : ConstBigIntView} {n : Nat}
    (h : Denotes view n) : view.signum = 0 ∨ view.signum = 1 := by
  rw [h.signum]
  rcases Nat.eq_zero_or_pos n with hZero | hPos
  · exact Or.inl (by rw [hZero]; rfl)
  · exact Or.inr (Int.sign_natCast_of_ne_zero hPos.ne')

theorem Denotes.signum_eq_one {view : ConstBigIntView} {n : Nat}
    (h : Denotes view n) (hPos : 0 < n) : view.signum = 1 := by
  rw [h.signum]
  exact Int.sign_natCast_of_ne_zero hPos.ne'

theorem Denotes.value_digits {view : ConstBigIntView} {n : Nat}
    (h : Denotes view n) : value view.digits = n := by
  have hMagnitude := h.magnitude
  rwa [Int.natAbs_natCast] at hMagnitude

/-- A number's digits under the sign that magnitudes carry. -/
theorem normalize_unsignedView (digits : List Digit) :
    ∃ view, normalizeBigintView (unsignedView digits) = some view ∧
      view.digits = trim digits ∧ Denotes view (value digits : Nat) := by
  by_cases hNil : digits = []
  · subst hNil
    exact ⟨⟨0, []⟩, rfl, rfl, denotes_zero⟩
  · have hSign : (unsignedView digits).signum = 1 :=
      if_neg (by simpa using hNil)
    obtain ⟨view, hRun, hDigits, hDenotes⟩ :=
      normalizeBigintView_spec _ digits (Or.inr (Or.inr hSign))
    rw [hSign, one_mul] at hDenotes
    exact ⟨view, hRun, hDigits, hDenotes⟩

theorem normalize_positive (digits : List Digit) :
    ∃ view, normalizeBigintView ⟨1, digits⟩ = some view ∧
      view.digits = trim digits ∧ Denotes view (value digits : Nat) := by
  obtain ⟨view, hRun, hDigits, hDenotes⟩ :=
    normalizeBigintView_spec _ digits (Or.inr (Or.inr rfl))
  rw [one_mul] at hDenotes
  exact ⟨view, hRun, hDigits, hDenotes⟩

/-- Digits above a digit, as one number. -/
theorem shiftLeft_or_digit (high : Nat) (d : Digit) :
    high <<< kDigitBits ||| d.toNat = 2 ^ 32 * high + d.toNat := by
  rw [kDigitBits, ← Nat.shiftLeft_add_eq_or_of_lt d.isLt, Nat.shiftLeft_eq,
    Nat.mul_comm]

/-- The digits above have been divided; the remainder goes down with the
next digit. -/
theorem divmodU32Loop_spec {divisor : Nat} (hPos : 0 < divisor)
    (hDigit : divisor < 2 ^ 32) (dividend : List Digit) :
    ∃ quotient remainder,
      divmodU32Loop divisor dividend = some (quotient, remainder) ∧
        quotient.length = dividend.length ∧ remainder < divisor ∧
        value quotient * divisor + remainder = value dividend := by
  induction dividend with
  | nil => exact ⟨[], 0, rfl, rfl, hPos, by simp⟩
  | cons d dividend ih =>
      obtain ⟨quotient, remainder, hRun, hLength, hSmall, hValue⟩ := ih
      have hd := d.isLt
      generalize hAccumulator : 2 ^ 32 * remainder + d.toNat = accumulator
      have hBound : accumulator < divisor * 2 ^ 32 := by
        have hScale : 2 ^ 32 * (remainder + 1) ≤ 2 ^ 32 * divisor :=
          Nat.mul_le_mul_left _ hSmall
        omega
      have hQuotient : (toDigit (accumulator / divisor)).toNat =
          accumulator / divisor :=
        toNat_toDigit (Nat.div_lt_of_lt_mul hBound)
      have hWide : divisor * 2 ^ 32 ≤ 2 ^ 32 * 2 ^ 32 :=
        Nat.mul_le_mul_right _ hDigit.le
      refine ⟨toDigit (accumulator / divisor) :: quotient,
        accumulator % divisor, ?_, by simp [hLength],
        Nat.mod_lt _ hPos, ?_⟩
      · rw [divmodU32Loop, hRun]
        change (doubleDigit (remainder <<< kDigitBits ||| d.toNat) >>= _) = _
        rw [shiftLeft_or_digit, hAccumulator, doubleDigit_eq_some (by omega)]
        rfl
      · have hDivision := Nat.div_add_mod accumulator divisor
        rw [value_cons, value_cons, hQuotient, ← hValue, Nat.add_mul]
        have hHigh : 2 ^ 32 * value quotient * divisor =
            2 ^ 32 * (value quotient * divisor) := Nat.mul_assoc _ _ _
        have hLow : accumulator / divisor * divisor =
            divisor * (accumulator / divisor) := Nat.mul_comm _ _
        omega

theorem divmodAbsByU32_spec {capacity a : Nat} {dividend : ConstBigIntView}
    {divisor : Digit} (h : Denotes dividend a) (hne : divisor ≠ 0)
    (hCapacity : dividend.nDigits ≤ capacity) :
    ∃ quotient remainder, divmodAbsByU32 capacity dividend divisor =
        some (quotient, remainder) ∧
      Denotes quotient (a / divisor.toNat : Nat) ∧
      remainder.toNat = a % divisor.toNat := by
  have hPos : 0 < divisor.toNat :=
    Nat.pos_of_ne_zero (mt (toNat_eq_zero_iff divisor).mp hne)
  obtain ⟨digits, remainder, hRun, -, hSmall, hValue⟩ :=
    divmodU32Loop_spec hPos divisor.isLt dividend.digits
  obtain ⟨quotient, hQuotient, -, hDenotes⟩ := normalize_unsignedView digits
  rw [h.value_digits] at hValue
  have hSplit : remainder + divisor.toNat * value digits = a := by
    rw [Nat.mul_comm]
    omega
  obtain ⟨hDiv, hMod⟩ := (Nat.div_mod_unique hPos).mpr ⟨hSplit, hSmall⟩
  refine ⟨quotient, toDigit remainder, ?_, ?_, ?_⟩
  · unfold divmodAbsByU32
    rw [check_normalized h.normalized, check_bind hne,
      check_bind h.signum_nonneg]
    refine (check_bind hCapacity _).trans ?_
    refine (bind_of_eq_some hRun _).trans ?_
    exact bind_of_eq_some hQuotient _
  · rw [hDiv]
    exact hDenotes
  · rw [hMod, toNat_toDigit (hSmall.trans divisor.isLt)]

/-! ## Multiplying back and subtracting in place -/

theorem mulDigitLoop_spec (right : Digit) (left : List Digit) :
    ∀ carry : Nat, carry < 2 ^ 32 →
      ∃ digits carryOut,
        mulDigitLoop right left carry = some (digits, carryOut) ∧
          carryOut < 2 ^ 32 ∧ digits.length = left.length ∧
          value digits + (2 ^ 32) ^ left.length * carryOut =
            value left * right.toNat + carry := by
  induction left with
  | nil =>
      intro carry hCarry
      exact ⟨[], carry, rfl, hCarry, rfl, by simp⟩
  | cons l left ih =>
      intro carry hCarry
      generalize hProduct : l.toNat * right.toNat + carry = product
      have hBound : product < 2 ^ 32 * 2 ^ 32 := by
        have hMul : l.toNat * right.toNat ≤ (2 ^ 32 - 1) * (2 ^ 32 - 1) :=
          Nat.mul_le_mul (Nat.le_pred_of_lt l.isLt)
            (Nat.le_pred_of_lt right.isLt)
        omega
      have hSplit := toDigit_add_carry product
      obtain ⟨digits, carryOut, hRun, hOut, hLength, hValue⟩ :=
        ih (product >>> kDigitBits) (shiftRight_lt hBound)
      refine ⟨toDigit product :: digits, carryOut, ?_, hOut, by simp [hLength],
        ?_⟩
      · rw [mulDigitLoop, hProduct, doubleDigit_eq_some (by omega)]
        exact bind_of_eq_some hRun _
      · rw [value_cons, value_cons, List.length_cons, base_pow_succ_mul,
          Nat.add_mul, Nat.mul_assoc]
        omega

theorem bigintAbsMulDigitInto_spec {capacity a : Nat} {left : ConstBigIntView}
    (h : Denotes left a) (hCapacity : left.nDigits + 1 ≤ capacity)
    (right : Digit) :
    ∃ dest, bigintAbsMulDigitInto capacity left right = some dest ∧
      Denotes dest (a * right.toNat : Nat) := by
  unfold bigintAbsMulDigitInto
  rw [check_normalized h.normalized, check_bind h.signum_nonneg,
    check_bind hCapacity]
  by_cases hZero : left.signum = 0 ∨ right = 0
  · have hProduct : a * right.toNat = 0 := by
      rcases hZero with hLeft | hRight
      · have ha := h.signum_eq_zero_iff.mp hLeft
        rw [Int.natCast_eq_zero.mp ha, Nat.zero_mul]
      · rw [hRight]
        exact Nat.mul_zero a
    rw [if_pos hZero, hProduct]
    exact ⟨⟨0, []⟩, rfl, denotes_zero⟩
  · rw [if_neg hZero]
    obtain ⟨hSign, hDigit⟩ := not_or.mp hZero
    obtain ⟨digits, carry, hRun, hCarry, hLength, hValue⟩ :=
      mulDigitLoop_spec right left.digits 0 (by decide)
    rw [h.value_digits, Nat.add_zero] at hValue
    have hne : left.digits ≠ [] :=
      mt h.normalized.signum_eq_zero_iff.mpr hSign
    have hPos : 0 < right.toNat :=
      Nat.pos_of_ne_zero (mt (toNat_eq_zero_iff right).mp hDigit)
    generalize hWritten : (if carry ≠ 0 then digits ++ [toDigit carry] else
      digits) = written
    have hDest : Trimmed written ∧ value written = a * right.toNat := by
      rw [← hWritten]
      rw [← hLength] at hValue
      refine trimmed_with_carry hCarry hValue fun _ => ?_
      -- the product is at least the number, which has as many digits
      rw [hLength, ← h.value_digits]
      exact (pow_le_value h.normalized.trimmed hne).trans
        (Nat.le_mul_of_pos_right _ hPos)
    have hWrittenNonempty : written ≠ [] := by
      intro hNil
      have hNumber := hDest.2
      rw [hNil, value_nil, ← h.value_digits] at hNumber
      have hLeft := value_pos h.normalized.trimmed hne
      exact (Nat.mul_pos hLeft hPos).ne hNumber
    have hDenotes :=
      denotes_of_trimmed hDest.1 hWrittenNonempty (Or.inr rfl)
    rw [one_mul, hDest.2] at hDenotes
    refine ⟨⟨1, written⟩, (bind_of_eq_some hRun _).trans ?_, hDenotes⟩
    change (check (isNormalizedBigintView ⟨1, if carry ≠ 0 then
      digits ++ [toDigit carry] else digits⟩ = true) >>= _) = _
    rw [hWritten]
    exact check_normalized hDenotes.normalized _

theorem bigintAbsSubAliasLeft_spec {a b : Nat} {left right : ConstBigIntView}
    (hl : Denotes left a) (hr : Denotes right b) (hLe : b ≤ a) :
    ∃ digits, bigintAbsSubAliasLeft left right = some digits ∧
      digits.length = left.nDigits ∧ value digits = a - b := by
  have hMagnitude : right.magnitude ≤ left.magnitude := by
    rw [hl.magnitude, hr.magnitude]
    exact hLe
  obtain ⟨digits, hRun, hLength, hValue⟩ := absSubLoop_of_le
    (hr.normalized.length_le_of_magnitude_le hMagnitude) hMagnitude
  have hDifference : value digits = a - b := by
    rw [hValue, hl.value_digits, hr.value_digits]
  have hOrder : ((left.magnitude : Int) - (right.magnitude : Int)).sign ≥ 0 :=
    Int.sign_nonneg_iff.mpr (by omega)
  have hSign : value digits = 0 ∨ left.signum = -1 ∨ left.signum = 1 := by
    rcases hl.signum_nonneg with hZero | hOne
    · have ha := Int.natCast_eq_zero.mp (hl.signum_eq_zero_iff.mp hZero)
      exact Or.inl (by omega)
    · exact Or.inr (Or.inr hOne)
  obtain ⟨view, hView, -, -⟩ := normalizeBigintView_spec _ _ hSign
  refine ⟨digits, ?_, hLength, hDifference⟩
  unfold bigintAbsSubAliasLeft
  rw [check_normalized hl.normalized, check_normalized hr.normalized,
    check_bind hl.signum_nonneg, check_bind hr.signum_nonneg,
    compareBigintAbs_eq_sign hl.normalized hr.normalized]
  refine (check_bind hOrder _).trans ?_
  refine (bind_of_eq_some hRun _).trans ?_
  refine (check_bind (p := (0 : Nat) = 0) rfl _).trans ?_
  exact bind_of_eq_some hView _

/-! ## Shifts -/

/-- A digit shifted up within its word, with the bits that enter below. -/
theorem toNat_shiftLeft_or {s : Nat} (hs : s ≤ 32) (d carry : Digit)
    (hCarry : carry.toNat < 2 ^ s) :
    (d <<< s ||| carry).toNat + 2 ^ 32 * (d >>> (32 - s)).toNat =
      2 ^ s * d.toNat + carry.toNat := by
  have hBase : 2 ^ 32 = 2 ^ s * 2 ^ (32 - s) := by
    rw [← Nat.pow_add, Nat.add_sub_cancel' hs]
  have hLow : (d <<< s).toNat = (d.toNat % 2 ^ (32 - s)) <<< s := by
    rw [BitVec.toNat_shiftLeft, Nat.shiftLeft_eq, Nat.shiftLeft_eq,
      Nat.mul_comm d.toNat, hBase, Nat.mul_mod_mul_left, Nat.mul_comm]
  have hDivision := Nat.div_add_mod d.toNat (2 ^ (32 - s))
  rw [BitVec.toNat_or, hLow, ← Nat.shiftLeft_add_eq_or_of_lt hCarry,
    Nat.shiftLeft_eq, BitVec.toNat_ushiftRight, Nat.shiftRight_eq_div_pow,
    hBase]
  calc d.toNat % 2 ^ (32 - s) * 2 ^ s + carry.toNat +
        2 ^ s * 2 ^ (32 - s) * (d.toNat / 2 ^ (32 - s))
      = 2 ^ s * (2 ^ (32 - s) * (d.toNat / 2 ^ (32 - s)) +
          d.toNat % 2 ^ (32 - s)) + carry.toNat := by ring
    _ = 2 ^ s * d.toNat + carry.toNat := by rw [hDivision]

theorem shiftLeftLoop_spec {s : Nat} (hs : s ≤ 32) (src : List Digit) :
    ∀ carry : Digit, carry.toNat < 2 ^ s →
      (shiftLeftLoop s src carry).2.toNat < 2 ^ s ∧
      (shiftLeftLoop s src carry).1.length = src.length ∧
      value (shiftLeftLoop s src carry).1 +
          (2 ^ 32) ^ src.length * (shiftLeftLoop s src carry).2.toNat =
        2 ^ s * value src + carry.toNat := by
  induction src with
  | nil =>
      intro carry hCarry
      exact ⟨hCarry, rfl, by simp [shiftLeftLoop]⟩
  | cons d src ih =>
      intro carry hCarry
      have hNext : (d >>> (kDigitBits - s)).toNat < 2 ^ s := by
        rw [BitVec.toNat_ushiftRight, Nat.shiftRight_eq_div_pow]
        refine Nat.div_lt_of_lt_mul ?_
        rw [kDigitBits, ← Nat.pow_add, Nat.sub_add_cancel hs]
        exact d.isLt
      obtain ⟨hOut, hLength, hValue⟩ := ih (d >>> (kDigitBits - s)) hNext
      have hDigit := toNat_shiftLeft_or hs d carry hCarry
      refine ⟨hOut, by simp [shiftLeftLoop, hLength], ?_⟩
      simp only [shiftLeftLoop, value_cons, List.length_cons]
      rw [base_pow_succ_mul, Nat.mul_add (2 ^ s)]
      have hCross : 2 ^ s * (2 ^ 32 * value src) =
          2 ^ 32 * (2 ^ s * value src) := by ring
      unfold kDigitBits at hValue ⊢
      omega

/-- A shift to the left multiplies by a power of two. -/
theorem bigintShiftLeftInto_spec (capacity shiftAmount : Nat) {a : Int}
    {src : ConstBigIntView} (h : Denotes src a)
    (hWhole : shiftAmount / kDigitBits ≤ 2 ^ 64 - 1 - src.nDigits - 1)
    (hCapacity : src.nDigits + shiftAmount / kDigitBits + 1 ≤ capacity) :
    ∃ dest, bigintShiftLeftInto capacity src shiftAmount = some dest ∧
      Denotes dest (a * 2 ^ shiftAmount) := by
  have hPower : 2 ^ shiftAmount = (2 ^ 32) ^ (shiftAmount / kDigitBits) *
      2 ^ (shiftAmount % kDigitBits) := by
    rw [← Nat.pow_mul, ← Nat.pow_add]
    exact congrArg (2 ^ ·) (Nat.div_add_mod shiftAmount 32).symm
  unfold bigintShiftLeftInto
  rw [check_normalized h.normalized]
  by_cases hZero : src.signum = 0
  · rw [if_pos hZero, h.signum_eq_zero_iff.mp hZero, Int.zero_mul]
    exact ⟨⟨0, []⟩, rfl, denotes_zero⟩
  have hne : src.digits ≠ [] := mt h.normalized.signum_eq_zero_iff.mpr hZero
  have hSign : src.signum = -1 ∨ src.signum = 1 :=
    (h.normalized.signum.resolve_left fun hNil => hne hNil.1).2
  rw [if_neg hZero]
  simp only [check_bind hWhole, check_bind hCapacity]
  -- the whole digits enter below as zeros
  have hPlaced : ∀ digits : List Digit, Trimmed digits → digits ≠ [] →
      value digits = value src.digits * 2 ^ (shiftAmount % kDigitBits) →
      Denotes
        ⟨src.signum, List.replicate (shiftAmount / kDigitBits) 0 ++ digits⟩
        (a * 2 ^ shiftAmount) := by
    intro digits hTrimmed hDigits hValue
    have hDenotes := denotes_of_trimmed
      (trimmed_append (List.replicate (shiftAmount / kDigitBits) 0)
        hTrimmed hDigits) (by simp [hDigits]) hSign
    have hNumber : value (List.replicate (shiftAmount / kDigitBits) 0 ++
        digits) = value src.digits * 2 ^ shiftAmount := by
      rw [value_append, value_replicate_zero, List.length_replicate,
        Nat.zero_add, hValue, hPower]
      ring
    rw [hNumber, Nat.cast_mul, ← mul_assoc] at hDenotes
    have hInteger : src.signum * (value src.digits : Int) = a := h.toInt
    rwa [hInteger, Nat.cast_pow] at hDenotes
  by_cases hIntra : shiftAmount % kDigitBits = 0
  · refine ⟨_, if_pos hIntra, ?_⟩
    refine hPlaced src.digits h.normalized.trimmed hne ?_
    rw [hIntra, Nat.pow_zero, Nat.mul_one]
  have hIntraLt : shiftAmount % kDigitBits < 32 := Nat.mod_lt _ (by decide)
  obtain ⟨hOut, hLength, hValue⟩ := shiftLeftLoop_spec
    (s := shiftAmount % kDigitBits) hIntraLt.le src.digits 0
    (by simp)
  generalize hWritten : (if (shiftLeftLoop (shiftAmount % kDigitBits)
      src.digits 0).2 ≠ 0 then (shiftLeftLoop (shiftAmount % kDigitBits)
      src.digits 0).1 ++ [(shiftLeftLoop (shiftAmount % kDigitBits)
      src.digits 0).2] else (shiftLeftLoop (shiftAmount % kDigitBits)
      src.digits 0).1) = written
  have hDest : Trimmed written ∧ written ≠ [] ∧
      value written = value src.digits * 2 ^ (shiftAmount % kDigitBits) := by
    generalize shiftLeftLoop (shiftAmount % kDigitBits) src.digits 0 = run
      at hOut hLength hValue hWritten
    obtain ⟨digits, carry⟩ := run
    rw [Nat.mul_comm (2 ^ (shiftAmount % kDigitBits))] at hValue
    simp only at hValue
    by_cases hCarry : carry = 0
    · rw [if_neg (not_not.mpr hCarry)] at hWritten
      subst hWritten
      subst hCarry
      rw [show (0 : Digit).toNat = 0 from rfl, Nat.mul_zero,
        Nat.add_zero] at hValue
      have hTop : (2 ^ 32) ^ (digits.length - 1) ≤ value digits := by
        rw [hValue, hLength]
        exact (pow_le_value h.normalized.trimmed hne).trans
          (Nat.le_mul_of_pos_right _ (by positivity))
      refine ⟨trimmed_of_pow_le_value hTop, ?_, hValue⟩
      rintro rfl
      exact hne (List.length_eq_zero_iff.mp hLength.symm)
    · rw [if_pos hCarry] at hWritten
      subst hWritten
      refine ⟨(trimmed_append_singleton _).mpr hCarry, by simp, ?_⟩
      rw [value_append, value_cons, value_nil, hLength, Nat.mul_zero,
        Nat.add_zero]
      exact hValue
  have hDenotes := hPlaced written hDest.1 hDest.2.1 hDest.2.2
  subst hWritten
  refine ⟨_, (if_neg hIntra).trans ?_, hDenotes⟩
  exact check_normalized hDenotes.normalized _

/-- The shift of a magnitude. -/
theorem bigintShiftLeftInto_natCast (capacity shiftAmount : Nat) {a : Nat}
    {src : ConstBigIntView} (h : Denotes src a)
    (hWhole : shiftAmount / kDigitBits ≤ 2 ^ 64 - 1 - src.nDigits - 1)
    (hCapacity : src.nDigits + shiftAmount / kDigitBits + 1 ≤ capacity) :
    ∃ dest, bigintShiftLeftInto capacity src shiftAmount = some dest ∧
      Denotes dest (a * 2 ^ shiftAmount : Nat) := by
  obtain ⟨dest, hRun, hDenotes⟩ :=
    bigintShiftLeftInto_spec capacity shiftAmount h hWhole hCapacity
  refine ⟨dest, hRun, ?_⟩
  rw [Nat.cast_mul, Nat.cast_pow]
  exact hDenotes

/-- A digit shifted down, with the bits that enter from above. -/
theorem shiftRightLoop_spec {s : Nat} (hs : s ≤ 32) (src : List Digit) :
    (shiftRightLoop s src).1.length = src.length ∧
      value (shiftRightLoop s src).1 = value src / 2 ^ s ∧
      (shiftRightLoop s src).2.toNat =
        2 ^ (32 - s) * (value src % 2 ^ s) := by
  have hBase : 2 ^ 32 = 2 ^ s * 2 ^ (32 - s) := by
    rw [← Nat.pow_add, Nat.add_sub_cancel' hs]
  have hPow : 0 < 2 ^ s := by positivity
  induction src with
  | nil => exact ⟨rfl, by simp [shiftRightLoop], by simp [shiftRightLoop]⟩
  | cons d src ih =>
      obtain ⟨hLength, hValue, hCarry⟩ := ih
      have hHigh := Nat.div_add_mod (value src) (2 ^ s)
      have hSource : d.toNat + 2 ^ 32 * value src = d.toNat +
          2 ^ s * (2 ^ (32 - s) * (value src % 2 ^ s) +
            2 ^ 32 * (value src / 2 ^ s)) := by
        conv_lhs => rw [← hHigh]
        rw [hBase]
        ring
      have hShifted : (d >>> s).toNat < 2 ^ (32 - s) := by
        rw [BitVec.toNat_ushiftRight, Nat.shiftRight_eq_div_pow]
        refine Nat.div_lt_of_lt_mul ?_
        rw [← hBase]
        exact d.isLt
      have hDigit : (d >>> s ||| (shiftRightLoop s src).2).toNat =
          d.toNat / 2 ^ s + 2 ^ (32 - s) * (value src % 2 ^ s) := by
        rw [BitVec.toNat_or, hCarry, Nat.mul_comm, ← Nat.shiftLeft_eq,
          Nat.or_comm, ← Nat.shiftLeft_add_eq_or_of_lt hShifted,
          BitVec.toNat_ushiftRight, Nat.shiftRight_eq_div_pow, Nat.add_comm]
      refine ⟨by simp [shiftRightLoop, hLength], ?_, ?_⟩
      · simp only [shiftRightLoop, value_cons]
        rw [hSource, Nat.add_mul_div_left _ _ hPow, hDigit, hValue,
          Nat.add_assoc]
      · simp only [shiftRightLoop, value_cons]
        rw [hSource, Nat.add_mul_mod_self_left, BitVec.toNat_shiftLeft,
          Nat.shiftLeft_eq, kDigitBits, hBase, Nat.mul_comm d.toNat,
          Nat.mul_comm (2 ^ s), Nat.mul_mod_mul_left]

/-- A shift to the right divides by a power of two. -/
theorem bigintShiftRightAbsInto_spec (capacity shiftAmount : Nat) {a : Nat}
    {src : ConstBigIntView} (h : Denotes src a)
    (hCapacity : src.nDigits - shiftAmount / kDigitBits ≤ capacity) :
    ∃ dest, bigintShiftRightAbsInto capacity src shiftAmount = some dest ∧
      Denotes dest (a / 2 ^ shiftAmount : Nat) := by
  have hPower : 2 ^ shiftAmount = (2 ^ 32) ^ (shiftAmount / kDigitBits) *
      2 ^ (shiftAmount % kDigitBits) := by
    rw [← Nat.pow_mul, ← Nat.pow_add]
    exact congrArg (2 ^ ·) (Nat.div_add_mod shiftAmount 32).symm
  have hMagnitude := h.value_digits
  unfold bigintShiftRightAbsInto
  rw [check_normalized h.normalized, check_bind h.signum_nonneg]
  by_cases hEmpty : src.signum = 0 ∨ shiftAmount / kDigitBits ≥ src.nDigits
  · have hSmall : a / 2 ^ shiftAmount = 0 := by
      rcases hEmpty with hZero | hShort
      · have ha := h.signum_eq_zero_iff.mp hZero
        rw [Int.natCast_eq_zero.mp ha, Nat.zero_div]
      · refine Nat.div_eq_of_lt ?_
        calc a = value src.digits := hMagnitude.symm
          _ < (2 ^ 32) ^ src.nDigits := value_lt src.digits
          _ ≤ (2 ^ 32) ^ (shiftAmount / kDigitBits) :=
              Nat.pow_le_pow_right (by decide) hShort
          _ ≤ 2 ^ shiftAmount := by
              rw [hPower]
              exact Nat.le_mul_of_pos_right _ (by positivity)
    rw [hSmall]
    exact ⟨⟨0, []⟩, if_pos hEmpty, denotes_zero⟩
  · have hWhole : shiftAmount / kDigitBits ≤ src.digits.length := by
      have hNot := (not_or.mp hEmpty).2
      unfold ConstBigIntView.nDigits at hNot
      omega
    have hKept := value_drop_eq_div hWhole
    rw [hMagnitude] at hKept
    simp only [if_neg hEmpty, check_bind hCapacity]
    generalize src.digits.drop (shiftAmount / kDigitBits) = kept at hKept
    generalize hOut : (if shiftAmount % kDigitBits = 0 then kept else
      (shiftRightLoop (shiftAmount % kDigitBits) kept).1) = out
    have hValue : value out = a / 2 ^ shiftAmount := by
      rw [hPower, ← Nat.div_div_eq_div_mul, ← hKept]
      by_cases hIntra : shiftAmount % kDigitBits = 0
      · rw [if_pos hIntra] at hOut
        rw [← hOut, hIntra, Nat.pow_zero, Nat.div_one]
      · rw [if_neg hIntra] at hOut
        have hIntraLt : shiftAmount % kDigitBits < 32 :=
          Nat.mod_lt _ (by decide)
        rw [← hOut]
        exact (shiftRightLoop_spec hIntraLt.le kept).2.1
    obtain ⟨dest, hRun, -, hDenotes⟩ := normalize_positive out
    rw [hValue] at hDenotes
    exact ⟨dest, hRun, hDenotes⟩

end CloverVM.BuiltinTypes.BigInt
