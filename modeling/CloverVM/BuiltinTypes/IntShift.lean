import CloverVM.BuiltinTypes.BigIntFloorDivision
import CloverVM.Runtime.SmiOperators

/-!
# Shifts of integers

The `<<` and `>>` of `builtin_types/bigint.cpp` and the operators of
`builtin_types/int.cpp` on two small integers.  A right shift of a negative
number shifts its magnitude and goes one further from zero when a bit that is
not zero is shifted out.  The left shift of two small integers does not
compute its result before it knows that it fits: it compares the count with
the headroom of the operand.
-/

namespace CloverVM.BuiltinTypes.BigInt

open CloverVM.Machine CloverVM.Machine.Digits CloverVM.ObjectModel
open CloverVM.Runtime

def bigintAbsShiftRightLosesNonzeroBits (src : ConstBigIntView)
    (shiftAmount : Nat) : Option Bool := do
  check (isNormalizedBigintView src)
  check (src.signum = 0 ∨ src.signum = 1)
  if src.signum = 0 ∨ shiftAmount = 0 then
    some false
  else
    let wholeDigits := shiftAmount / kDigitBits
    if wholeDigits ≥ src.nDigits then
      some true
    else
      let intraDigitShift := shiftAmount % kDigitBits
      if (src.digits.take wholeDigits).any (· != 0) then
        some true
      else if intraDigitShift = 0 then
        some false
      else
        let mask := ((1 : Digit) <<< intraDigitShift) - 1
        some (src.digits.getD wholeDigits 0 &&& mask != 0)

def bigintLshift (left : ConstBigIntView) (shiftAmount : Nat) :
    Option (Except BuiltinException IntValue) := do
  check (isNormalizedBigintView left)
  if left.signum = 0 ∨ shiftAmount = 0 then
    let result ← finalizeBigint left
    some (.ok result)
  else
    let wholeDigits := shiftAmount / kDigitBits
    if wholeDigits > 2 ^ 64 - 1 - left.nDigits - 1 then
      some (.error overflowError)
    else
      let dest ← bigintShiftLeftInto (left.nDigits + wholeDigits + 1) left
        shiftAmount
      let result ← finalizeBigint dest
      some (.ok result)

/-- The shifted magnitude of a negative number under its sign; one more when
the shift has lost a bit. -/
def rshiftNegative (leftAbs dest : ConstBigIntView) (shiftAmount : Nat) :
    Option ConstBigIntView := do
  let loses ← bigintAbsShiftRightLosesNonzeroBits leftAbs shiftAmount
  if loses then
    let adjusted ← bigintAbsAddInto (max dest.nDigits 1 + 1) dest oneView
    some { adjusted with signum := -1 }
  else
    some (if dest.nDigits ≠ 0 then { dest with signum := -1 } else dest)

def bigintRshift (left : ConstBigIntView) (shiftAmount : Nat) :
    Option IntValue := do
  check (isNormalizedBigintView left)
  if left.signum = 0 ∨ shiftAmount = 0 then
    finalizeBigint left
  else
    let wholeDigits := shiftAmount / kDigitBits
    let shiftedCapacity := if wholeDigits ≥ left.nDigits then 1
      else left.nDigits - wholeDigits + 1
    let leftAbs ← absBigintView left
    let dest ← bigintShiftRightAbsInto shiftedCapacity leftAbs shiftAmount
    if left.signum < 0 then
      let result ← rshiftNegative leftAbs dest shiftAmount
      finalizeBigint result
    else
      finalizeBigint dest

/-- `int64_storage_bits`. -/
def int64StorageBits : Nat := 64

/-- `int64_value_bits`. -/
def int64ValueBits : Nat := 63

def countLeftShiftHeadroomBits (value : BitVec 64) : Int :=
  let signlessBits := if value.toInt < 0 then ~~~value else value
  (signlessBits.clz.toNat : Int) - 1

/-- `SMILShiftOperator`. -/
def smiLShiftOperator (left right : BitVec 64) :
    Except BuiltinException Value :=
  if right.toInt < 0 then
    .error valueErrorNegativeShiftCount
  else
    let headroomBits := countLeftShiftHeadroomBits left
    if right.toNat ≥ int64StorageBits ∨
        (left ≠ 0 ∧ right.toInt + valueTagBits > headroomBits) then
      .error overflowError
    else
      .ok ⟨(Value.fromSmi left).integer <<< right⟩

/-- `SMIRShiftOperator`. -/
def smiRShiftOperator (left right : BitVec 64) :
    Except BuiltinException Value :=
  if right.toInt < 0 then
    .error valueErrorNegativeShiftCount
  else if right.toInt ≥ int64StorageBits then
    .ok (Value.fromSmi (left.sshiftRight int64ValueBits))
  else
    .ok (Value.fromSmi (left.sshiftRight right.toNat))

/-- A left shift multiplies by a power of two, unless it needs more digits
than a size can count. -/
theorem bigintLshift_yields {left : ConstBigIntView} {a : Int}
    (h : Denotes left a) (shiftAmount : Nat)
    (hWhole : shiftAmount / kDigitBits ≤ 2 ^ 64 - 1 - left.nDigits - 1) :
    YieldsOk (bigintLshift left shiftAmount) (a * 2 ^ shiftAmount) := by
  unfold bigintLshift
  rw [check_normalized h.normalized]
  by_cases hSame : left.signum = 0 ∨ shiftAmount = 0
  · have hProduct : a * 2 ^ shiftAmount = a := by
      rcases hSame with hZero | hNone
      · rw [h.signum_eq_zero_iff.mp hZero, Int.zero_mul]
      · rw [hNone, pow_zero, Int.mul_one]
    obtain ⟨v, hRun, hCanonical, hv⟩ := finalizeBigint_yields h
    rw [if_pos hSame, hProduct]
    exact ⟨v, bind_of_eq_some hRun _, hCanonical, hv⟩
  · obtain ⟨dest, hShift, hDest⟩ :=
      bigintShiftLeftInto_spec _ shiftAmount h hWhole le_rfl
    obtain ⟨v, hRun, hCanonical, hv⟩ := finalizeBigint_yields hDest
    rw [if_neg hSame]
    refine ⟨v, (if_neg (Nat.not_lt.mpr hWhole)).trans ?_, hCanonical, hv⟩
    refine (bind_of_eq_some hShift _).trans ?_
    exact bind_of_eq_some hRun _

/-! ## Lost bits -/

theorem toNat_mask {i : Nat} (hi : i < 32) :
    (((1 : Digit) <<< i) - 1).toNat = 2 ^ i - 1 := by
  have hPow : 2 ^ i < 2 ^ 32 := Nat.pow_lt_pow_right (by decide) hi
  have hPos : 0 < 2 ^ i := by positivity
  have hOne : ((1 : Digit) <<< i).toNat = 2 ^ i := by
    have hUnit : (1 : Digit).toNat = 1 := rfl
    rw [BitVec.toNat_shiftLeft, Nat.shiftLeft_eq, hUnit, Nat.one_mul]
    exact Nat.mod_eq_of_lt hPow
  rw [BitVec.toNat_sub, hOne]
  change (2 ^ 32 - 1 + 2 ^ i) % 2 ^ 32 = _
  omega

/-- The masked digit is zero exactly when the bits below the mask's end
are. -/
theorem and_mask_bne_zero {i : Nat} (hi : i < 32) (d : Digit) :
    (d &&& (((1 : Digit) <<< i) - 1) != 0) = decide (d.toNat % 2 ^ i ≠ 0) := by
  rw [Bool.eq_iff_iff, bne_iff_ne, decide_eq_true_iff, Ne, Ne,
    ← toNat_eq_zero_iff, BitVec.toNat_and, toNat_mask hi,
    Nat.and_two_pow_sub_one_eq_mod]

/-- What a shift by whole digits and a part of one leaves below. -/
theorem value_mod_shift (digits : List Digit) {k i : Nat}
    (hk : k < digits.length) (hi : i < 32) :
    value digits % ((2 ^ 32) ^ k * 2 ^ i) =
      value (digits.take k) +
        (2 ^ 32) ^ k * ((digits.getD k 0).toNat % 2 ^ i) := by
  have hSplit := value_take_add_drop digits k hk.le
  have hLow := value_lt (digits.take k)
  rw [List.length_take, Nat.min_eq_left hk.le] at hLow
  have hBase : 2 ^ i ∣ 2 ^ 32 := pow_dvd_pow 2 hi.le
  have hDigit : value (digits.drop k) % 2 ^ i =
      (digits.getD k 0).toNat % 2 ^ i := by
    rw [value_drop digits k hk, Nat.add_mod,
      Nat.mod_eq_zero_of_dvd (hBase.mul_right _), Nat.add_zero, Nat.mod_mod]
  rw [Nat.mod_mul, ← value_drop_eq_div hk.le, hDigit]
  congr 1
  rw [← hSplit, Nat.add_mul_mod_self_left, Nat.mod_eq_of_lt hLow]

theorem bigintAbsShiftRightLosesNonzeroBits_eq {src : ConstBigIntView}
    {a : Nat} (h : Denotes src a) (shiftAmount : Nat) :
    bigintAbsShiftRightLosesNonzeroBits src shiftAmount =
      some (decide (a % 2 ^ shiftAmount ≠ 0)) := by
  have hPower : 2 ^ shiftAmount = (2 ^ 32) ^ (shiftAmount / kDigitBits) *
      2 ^ (shiftAmount % kDigitBits) := by
    rw [← Nat.pow_mul, ← Nat.pow_add]
    exact congrArg (2 ^ ·) (Nat.div_add_mod shiftAmount 32).symm
  unfold bigintAbsShiftRightLosesNonzeroBits
  rw [check_normalized h.normalized, check_bind h.signum_nonneg]
  by_cases hNone : src.signum = 0 ∨ shiftAmount = 0
  · have hZero : a % 2 ^ shiftAmount = 0 := by
      rcases hNone with hSign | hShift
      · rw [Int.natCast_eq_zero.mp (h.signum_eq_zero_iff.mp hSign),
          Nat.zero_mod]
      · rw [hShift, pow_zero, Nat.mod_one]
    rw [if_pos hNone, hZero]
    rfl
  have hPos : 0 < a := by
    refine Nat.pos_of_ne_zero fun ha => (not_or.mp hNone).1 ?_
    exact h.signum_eq_zero_iff.mpr (Int.natCast_eq_zero.mpr ha)
  rw [if_neg hNone]
  by_cases hAll : shiftAmount / kDigitBits ≥ src.nDigits
  · have hSmall : a < 2 ^ shiftAmount := by
      calc a < (2 ^ 32) ^ src.nDigits := h.lt_pow
        _ ≤ (2 ^ 32) ^ (shiftAmount / kDigitBits) :=
            Nat.pow_le_pow_right (by decide) hAll
        _ ≤ 2 ^ shiftAmount := by
            rw [hPower]
            exact Nat.le_mul_of_pos_right _ (by positivity)
    rw [Nat.mod_eq_of_lt hSmall, decide_eq_true hPos.ne']
    exact if_pos hAll
  · have hIntra : shiftAmount % kDigitBits < 32 := Nat.mod_lt _ (by decide)
    have hMod := value_mod_shift src.digits (Nat.not_le.mp hAll) hIntra
    rw [h.value_digits, ← hPower] at hMod
    have hPlace : 0 < (2 ^ 32) ^ (shiftAmount / kDigitBits) := by positivity
    refine (if_neg hAll).trans ?_
    by_cases hDigits :
        (src.digits.take (shiftAmount / kDigitBits)).any (· != 0) = true
    · have hLow : value (src.digits.take (shiftAmount / kDigitBits)) ≠ 0 := by
        rw [Ne, value_eq_zero_iff]
        simpa using hDigits
      rw [decide_eq_true (by omega)]
      exact if_pos hDigits
    · have hLow : value (src.digits.take (shiftAmount / kDigitBits)) = 0 := by
        rw [value_eq_zero_iff]
        simpa using hDigits
      rw [hLow, Nat.zero_add] at hMod
      refine (if_neg hDigits).trans ?_
      by_cases hWhole : shiftAmount % kDigitBits = 0
      · rw [hWhole, pow_zero, Nat.mod_one, Nat.mul_zero] at hMod
        rw [hMod]
        exact if_pos hWhole
      · refine (if_neg hWhole).trans (congrArg some ?_)
        rw [and_mask_bne_zero hIntra, hMod]
        simp

/-! ## The right shift -/

/-- The floor of a negative number's quotient. -/
theorem fdiv_neg_of_shift (m s : Nat) :
    (-(m : Int)).fdiv (2 ^ s) =
      -((m / 2 ^ s + if m % 2 ^ s ≠ 0 then 1 else 0 : Nat) : Int) := by
  have hPos : 0 < 2 ^ s := by positivity
  have hDivision := Nat.div_add_mod m (2 ^ s)
  have hBound := Nat.mod_lt m hPos
  have hPower : ((2 ^ s : Nat) : Int) = 2 ^ s := by push_cast; rfl
  rw [← hPower, Int.fdiv_eq_ediv_of_nonneg _ (by positivity)]
  generalize 2 ^ s = d at hPos hDivision hBound
  generalize m / d = q at hDivision
  generalize m % d = r at hDivision hBound
  by_cases hExact : r = 0
  · rw [if_neg (not_not.mpr hExact), Nat.add_zero, ← hDivision, hExact]
    push_cast
    rw [add_zero, ← mul_neg]
    exact Int.mul_ediv_cancel_left _ (by omega)
  · rw [if_pos hExact, ← hDivision]
    have hSplit : -((d * q + r : Nat) : Int) =
        (d - r : Int) + d * -((q + 1 : Nat) : Int) := by
      push_cast
      ring
    rw [hSplit, Int.add_mul_ediv_left _ _ (by omega),
      Int.ediv_eq_zero_of_lt (by omega) (by omega), zero_add]

theorem rshiftNegative_spec {leftAbs dest : ConstBigIntView} {m s : Nat}
    (hLeft : Denotes leftAbs m) (hDest : Denotes dest (m / 2 ^ s : Nat)) :
    ∃ result, rshiftNegative leftAbs dest s = some result ∧
      Denotes result ((-(m : Int)).fdiv (2 ^ s)) := by
  unfold rshiftNegative
  rw [bind_of_eq_some (bigintAbsShiftRightLosesNonzeroBits_eq hLeft s),
    fdiv_neg_of_shift]
  by_cases hLoses : m % 2 ^ s ≠ 0
  · obtain ⟨adjusted, hRun, hAdjusted⟩ := bigintAbsAddInto_spec
      hDest.normalized denotes_one.normalized (le_refl _)
    have hOne : oneView.magnitude = 1 := denotes_one.magnitude
    rw [hDest.magnitude, Int.natAbs_natCast, hOne] at hAdjusted
    have hSigned := hAdjusted.withSignum (Nat.succ_pos _) (Or.inl rfl)
    refine ⟨{ adjusted with signum := -1 }, ?_, ?_⟩
    · rw [if_pos (decide_eq_true hLoses)]
      exact bind_of_eq_some hRun _
    · rw [neg_one_mul] at hSigned
      rw [if_pos hLoses]
      exact hSigned
  · refine ⟨_, if_neg (by simpa using hLoses), ?_⟩
    have hMinus : 0 < m / 2 ^ s → (-1 : Int) = -1 ∨ (-1 : Int) = 1 :=
      fun _ => Or.inl rfl
    have hSigned := denotes_signed hDest hMinus
    rw [neg_one_mul] at hSigned
    rw [if_neg hLoses, Nat.add_zero]
    exact hSigned

/-- A right shift divides by a power of two and rounds down. -/
theorem bigintRshift_yields {left : ConstBigIntView} {a : Int}
    (h : Denotes left a) (shiftAmount : Nat) :
    Yields (bigintRshift left shiftAmount) (a.fdiv (2 ^ shiftAmount)) := by
  unfold bigintRshift
  rw [check_normalized h.normalized]
  by_cases hSame : left.signum = 0 ∨ shiftAmount = 0
  · have hQuotient : a.fdiv (2 ^ shiftAmount) = a := by
      rcases hSame with hZero | hNone
      · rw [h.signum_eq_zero_iff.mp hZero, Int.zero_fdiv]
      · rw [hNone, pow_zero, Int.fdiv_one]
    rw [if_pos hSame, hQuotient]
    exact finalizeBigint_yields h
  rw [if_neg hSame]
  obtain ⟨leftAbs, hAbsRun, hDigits, hAbs⟩ := absBigintView_spec h
  have hCapacity : leftAbs.nDigits - shiftAmount / kDigitBits ≤
      if shiftAmount / kDigitBits ≥ left.nDigits then 1
      else left.nDigits - shiftAmount / kDigitBits + 1 := by
    rw [hDigits]
    split <;> omega
  obtain ⟨dest, hShift, hDest⟩ :=
    bigintShiftRightAbsInto_spec _ shiftAmount hAbs hCapacity
  refine (?_ : Yields (absBigintView left >>= _) _)
  rw [bind_of_eq_some hAbsRun]
  refine (?_ : Yields (bigintShiftRightAbsInto _ _ _ >>= _) _)
  rw [bind_of_eq_some hShift]
  by_cases hSign : left.signum < 0
  · have hNeg : a < 0 := by
      rw [h.signum] at hSign
      exact Int.sign_neg_iff.mp hSign
    obtain ⟨result, hRun, hResult⟩ := rshiftNegative_spec hAbs hDest
    have hValue : -((a.natAbs : Nat) : Int) = a := by omega
    rw [hValue] at hResult
    rw [if_pos hSign]
    refine (?_ : Yields (rshiftNegative _ _ _ >>= _) _)
    rw [bind_of_eq_some hRun]
    exact finalizeBigint_yields hResult
  · have hNonneg : 0 ≤ a := by
      rw [h.signum] at hSign
      exact Int.sign_nonneg_iff.mp (Int.not_lt.mp hSign)
    obtain ⟨m, rfl⟩ := Int.eq_ofNat_of_zero_le hNonneg
    have hQuotient : (m : Int).fdiv (2 ^ shiftAmount) =
        (m / 2 ^ shiftAmount : Nat) := by
      rw [Int.fdiv_eq_ediv_of_nonneg _ (by positivity)]
      push_cast
      rfl
    rw [if_neg hSign, hQuotient]
    exact finalizeBigint_yields hDest

/-! ## The operators on small integers -/

section Smi

variable {a : Int} {s : Nat}

theorem toNat_ofInt_of_smiRange (hs : SmiRange s) :
    (BitVec.ofInt 64 s).toNat = s := by
  simp only [SmiRange, valueSmiMin, valueSmiMax] at hs
  rw [BitVec.ofInt_natCast, BitVec.toNat_ofNat]
  omega

/-- A number that is not zero leaves the SMI range when it is shifted by a
word or more. -/
theorem not_smiRange_of_le (hne : a ≠ 0) (hs : 64 ≤ s) :
    ¬ SmiRange (a * 2 ^ s) := by
  intro hFits
  have hPow : (2 : Int) ^ 64 ≤ 2 ^ s := pow_le_pow_right₀ (by decide) hs
  simp only [SmiRange, valueSmiMin, valueSmiMax] at hFits
  rcases Int.lt_or_gt_of_ne hne with hNeg | hPos
  · have hMul : a * 2 ^ s ≤ -1 * 2 ^ s :=
      Int.mul_le_mul_of_nonneg_right (by omega) (by positivity)
    omega
  · have hMul : 1 * 2 ^ s ≤ a * 2 ^ s :=
      Int.mul_le_mul_of_nonneg_right (by omega) (by positivity)
    omega

/-- The left shift of small integers: the word of the result where it fits,
and for zero only below the word size. -/
theorem smiLShiftOperator_eq (ha : SmiRange a) (hs : SmiRange s) :
    smiLShiftOperator (Value.ofInt a).getSmi (Value.ofInt s).getSmi =
      if SmiRange (a * 2 ^ s) ∧ (a = 0 → s < 64) then
        .ok (Value.ofInt (a * 2 ^ s))
      else .error overflowError := by
  have hNonneg : ¬ (BitVec.ofInt 64 (s : Int)).toInt < 0 := by
    rw [ofInt_toInt_of_smiRange hs]
    omega
  unfold smiLShiftOperator
  rw [getSmi_ofInt ha, getSmi_ofInt hs, if_neg hNonneg]
  simp only [toNat_ofInt_of_smiRange hs, ofInt_toInt_of_smiRange hs,
    int64StorageBits]
  by_cases hWord : 64 ≤ s
  · rw [if_pos (Or.inl hWord), if_neg]
    rintro ⟨hFits, hZero⟩
    by_cases hne : a = 0
    · exact absurd (hZero hne) (Nat.not_lt.mpr hWord)
    · exact not_smiRange_of_le hne hWord hFits
  · have hCheck : (s ≥ 64 ∨ BitVec.ofInt 64 a ≠ 0 ∧ (s : Int) + valueTagBits >
        countLeftShiftHeadroomBits (BitVec.ofInt 64 a)) ↔
        ¬ (SmiRange (a * 2 ^ s) ∧ (a = 0 → s < 64)) := by
      by_cases hne : a = 0
      · subst hne
        have hFits : SmiRange (0 * 2 ^ s) := by
          rw [Int.zero_mul]
          decide
        have hZero : BitVec.ofInt 64 0 = 0 := rfl
        rw [hZero]
        constructor
        · rintro (hLarge | ⟨hNonzero, -⟩)
          · exact absurd hLarge hWord
          · exact absurd rfl hNonzero
        · exact fun hNot => absurd ⟨hFits, fun _ => Nat.not_le.mp hWord⟩ hNot
      · have hBits : (s : Int) + valueTagBits >
            countLeftShiftHeadroomBits (BitVec.ofInt 64 a) ↔
            ¬ SmiRange (a * 2 ^ s) :=
          SmiOperators.signBits_lt_iff ha hne s
        have hNonzero := SmiOperators.ofInt_ne_zero ha hne
        rw [hBits]
        simp [hWord, hne]
        intro _
        exact hNonzero
    simp only [hCheck, ite_not]
    have hShift : (⟨(Value.fromSmi (BitVec.ofInt 64 a)).integer <<<
        BitVec.ofInt 64 (s : Int)⟩ : Value) = Value.ofInt (a * 2 ^ s) :=
      SmiOperators.shiftLeft_ofInt a (Nat.not_le.mp hWord)
    rw [hShift]

/-- The payload of a small integer shifted down. -/
theorem fromSmi_sshiftRight (ha : SmiRange a) (n : Nat) :
    Value.fromSmi ((BitVec.ofInt 64 a).sshiftRight n) =
      Value.ofInt (a >>> n) := by
  refine congrArg Value.fromSmi (BitVec.eq_of_toInt_eq ?_)
  rw [BitVec.toInt_sshiftRight, ofInt_toInt_of_smiRange ha,
    ofInt_toInt_of_smiRange (SmiOperators.smiRange_shiftRight ha n)]

/-- The right shift of small integers always has a word. -/
theorem smiRShiftOperator_eq (ha : SmiRange a) (hs : SmiRange s) :
    smiRShiftOperator (Value.ofInt a).getSmi (Value.ofInt s).getSmi =
      .ok (Value.ofInt (a >>> s)) := by
  have hNonneg : ¬ (BitVec.ofInt 64 (s : Int)).toInt < 0 := by
    rw [ofInt_toInt_of_smiRange hs]
    omega
  unfold smiRShiftOperator
  rw [getSmi_ofInt ha, getSmi_ofInt hs, if_neg hNonneg]
  simp only [toNat_ofInt_of_smiRange hs, ofInt_toInt_of_smiRange hs,
    int64StorageBits, int64ValueBits, fromSmi_sshiftRight ha]
  by_cases hWord : 64 ≤ s
  · have hSign : ∀ n : Nat, n = 63 → a >>> n = a >>> s := by
      intro n hn
      rw [SmiOperators.shiftRight_of_le ha hWord, Int.shiftRight_eq_div_pow,
        hn]
      simp only [SmiRange, valueSmiMin, valueSmiMax] at ha
      split <;> omega
    rw [if_pos (by omega), hSign 63 rfl]
  · rw [if_neg (by omega)]

end Smi

/-! ## The two kinds of shifts -/

/-- The shifts of an integer by a count: of the views, and of the words where
both operands are small. -/
structure ShiftsExact (left : ConstBigIntView) (s : Nat) : Prop where
  lshift : YieldsOk (bigintLshift left s) (left.toInt * 2 ^ s)
  rshift : Yields (bigintRshift left s) (left.toInt.fdiv (2 ^ s))
  smi_lshift : SmiRange left.toInt → SmiRange s →
    SmiRange (left.toInt * 2 ^ s) →
    ∃ word, smiLShiftOperator (Value.ofInt left.toInt).getSmi
        (Value.ofInt s).getSmi = .ok word ∧
      bigintLshift left s = some (.ok (.smi word))
  smi_lshift_overflow : SmiRange left.toInt → SmiRange s →
    ¬ SmiRange (left.toInt * 2 ^ s) →
    smiLShiftOperator (Value.ofInt left.toInt).getSmi
      (Value.ofInt s).getSmi = .error overflowError
  smi_rshift : SmiRange left.toInt → SmiRange s →
    ∃ word, smiRShiftOperator (Value.ofInt left.toInt).getSmi
        (Value.ofInt s).getSmi = .ok word ∧
      bigintRshift left s = some (.smi word)

/-- A canonical value in the SMI range is the word of its integer. -/
theorem IntValue.eq_smi_of_canonical {v : IntValue} (h : v.Canonical)
    (hFits : SmiRange v.toInt) : v = .smi (Value.ofInt v.toInt) := by
  refine IntValue.eq_of_toInt_eq h (isSmi_ofInt _) ?_
  exact (smi_ofInt hFits).symm

/-- The shifts are exact for every integer and every count the digits admit,
and the operators on small integers agree with them, but for zero shifted
left by a word or more. -/
theorem shifts_exact_iff {left : ConstBigIntView} {s : Nat}
    (h : Normalized left)
    (hWhole : s / kDigitBits ≤ 2 ^ 64 - 1 - left.nDigits - 1) :
    ShiftsExact left s ↔ ¬ (left.toInt = 0 ∧ 64 ≤ s ∧ SmiRange s) := by
  constructor
  · rintro hExact ⟨hZero, hWord, hs⟩
    have ha : SmiRange left.toInt := by
      rw [hZero]
      decide
    have hFits : SmiRange (left.toInt * 2 ^ s) := by
      rw [hZero, Int.zero_mul]
      decide
    obtain ⟨word, hRun, -⟩ := hExact.smi_lshift ha hs hFits
    rw [smiLShiftOperator_eq ha hs, if_neg] at hRun
    · exact absurd hRun nofun
    · exact fun hBelow => absurd (hBelow.2 hZero) (Nat.not_lt.mpr hWord)
  · intro hCondition
    obtain ⟨v, hLeft, hvCanonical, hv⟩ :=
      bigintLshift_yields (denotes_self h) s hWhole
    obtain ⟨r, hRight, hrCanonical, hr⟩ :=
      bigintRshift_yields (denotes_self h) s
    refine ⟨⟨v, hLeft, hvCanonical, hv⟩, ⟨r, hRight, hrCanonical, hr⟩,
      fun ha hs hFits => ?_, fun ha hs hWide => ?_, fun ha hs => ?_⟩
    · have hBelow : left.toInt = 0 → s < 64 := by
        intro hZero
        by_contra hWord
        exact hCondition ⟨hZero, Nat.not_lt.mp hWord, hs⟩
      have hWord := IntValue.eq_smi_of_canonical hvCanonical (hv ▸ hFits)
      rw [hv] at hWord
      refine ⟨Value.ofInt (left.toInt * 2 ^ s), ?_, hWord ▸ hLeft⟩
      rw [smiLShiftOperator_eq ha hs, if_pos ⟨hFits, hBelow⟩]
    · rw [smiLShiftOperator_eq ha hs, if_neg fun hFits => hWide hFits.1]
    · have hFloor : left.toInt.fdiv (2 ^ s) = left.toInt >>> s := by
        rw [Int.fdiv_eq_ediv_of_nonneg _ (by positivity),
          Int.shiftRight_eq_div_pow]
        push_cast
        rfl
      have hFits : SmiRange r.toInt := by
        rw [hr, hFloor]
        exact SmiOperators.smiRange_shiftRight ha s
      have hWord := IntValue.eq_smi_of_canonical hrCanonical hFits
      rw [hr, hFloor] at hWord
      exact ⟨_, smiRShiftOperator_eq ha hs, hWord ▸ hRight⟩

/-- A negative number of two digits, shifted past them. -/
theorem shifts_exact_iff_at_long_shift :
    Yields (bigintRshift ⟨-1, [0, 1]⟩ 70) (-1) := by
  have hNormalized : Normalized ⟨-1, [0, 1]⟩ :=
    (isNormalizedBigintView_iff _).mp (by decide)
  have hExact : ShiftsExact ⟨-1, [0, 1]⟩ 70 :=
    (shifts_exact_iff hNormalized (by decide)).mpr (by decide)
  exact hExact.rshift

/-- Zero shifted left by a word overflows, although zero fits. -/
theorem smiLShiftOperator_overflows_at_zero :
    smiLShiftOperator (Value.ofInt 0).getSmi (Value.ofInt 64).getSmi =
        .error overflowError ∧
      bigintLshift ⟨0, []⟩ 64 = some (.ok (.smi (Value.ofInt 0))) ∧
      ¬ ShiftsExact ⟨0, []⟩ 64 := by
  have hRaised : smiLShiftOperator (Value.ofInt 0).getSmi
      (Value.ofInt 64).getSmi = .error overflowError := by decide +kernel
  refine ⟨hRaised, by decide +kernel, fun hExact => ?_⟩
  obtain ⟨word, hRun, -⟩ :=
    hExact.smi_lshift (by decide) (by decide) (by decide)
  exact absurd (hRaised.symm.trans hRun) nofun

end CloverVM.BuiltinTypes.BigInt
