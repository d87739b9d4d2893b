import CloverVM.BuiltinTypes.IntPower
import CloverVM.Machine.Rounding

/-!
# Converting integers to doubles

The double of an integer object: the top 53 bits of the magnitude, rounded to
the nearest even by the bit below them and by whether a lower bit is set, and
scaled by a power of two.  Rounding may carry into a 54th bit, which moves the
exponent, and whether the result is too large is decided after that.

The operations on doubles are parameters; `DoubleOps.Exact` says that they are
exact on what the conversion gives them.
-/

namespace CloverVM.BuiltinTypes.BigInt

open CloverVM.Machine CloverVM.Machine.Digits CloverVM.Machine.Rounding
open CloverVM.Runtime

def bigintAbsAnyBitsBelow (view : ConstBigIntView) (nBits : Nat) : Bool :=
  let fullDigits := nBits / kDigitBits
  let remainingBits := nBits % kDigitBits
  if (view.digits.take fullDigits).any (· != 0) then true
  else if remainingBits ≠ 0 ∧ fullDigits < view.nDigits then
    view.digits.getD fullDigits 0 &&& (((1 : Digit) <<< remainingBits) - 1)
      != 0
  else false

/-- The loop of `bigint_abs_top_bits`, by the bits that are left. -/
def topBitsLoop (view : ConstBigIntView) (lowBit : Nat) :
    Nat → Nat → Option Nat
  | 0, result => some result
  | left + 1, result => do
      let shifted ← doubleDigit (result <<< 1)
      topBitsLoop view lowBit left
        (if bigintAbsBit view (lowBit + left) then shifted ||| 1 else shifted)

def bigintAbsTopBits (view : ConstBigIntView) (bitLength nBits : Nat) :
    Option Nat := do
  check (nBits ≤ 64)
  check (bitLength ≥ nBits)
  topBitsLoop view (bitLength - nBits) nBits 0

/-- `DBL_MANT_DIG`. -/
def precision : Nat := 53

/-- `DBL_MAX_EXP`. -/
def doubleMaxExp : Nat := 1024

/-- The mantissa of more than 53 bits and the bit length, after rounding. -/
def roundMantissa (view : ConstBigIntView) (bitLength : Nat) :
    Option (Nat × Nat) := do
  let discardedBits := bitLength - precision
  let mantissa ← bigintAbsTopBits view bitLength precision
  let guardBit := bigintAbsBit view (discardedBits - 1)
  let stickyBits := discardedBits > 1 &&
    bigintAbsAnyBitsBelow view (discardedBits - 1)
  if guardBit && (stickyBits || mantissa &&& 1 != 0) then do
    let mantissa ← doubleDigit (mantissa + 1)
    if mantissa = 1 <<< precision then some (mantissa >>> 1, bitLength + 1)
    else some (mantissa, bitLength)
  else some (mantissa, bitLength)

/-- The operations on doubles that the conversion uses. -/
structure DoubleOps (δ : Type) where
  zero : δ
  ofMantissa : Nat → δ
  ldexp : δ → Int → δ
  neg : δ → δ

def intTooLargeError : BuiltinException :=
  { typeName := "OverflowError"
    message := "int too large to convert to float" }

def bigintToDouble {δ : Type} (ops : DoubleOps δ) (view : ConstBigIntView) :
    Option (Except BuiltinException δ) := do
  check (isNormalizedBigintView view)
  if view.signum = 0 then some (.ok ops.zero)
  else do
    let bitLength ← bigintAbsBitLength view
    if bitLength ≤ precision then do
      let mantissa ← bigintAbsTopBits view bitLength bitLength
      let result := ops.ofMantissa mantissa
      some (.ok (if view.signum < 0 then ops.neg result else result))
    else do
      let (mantissa, bitLength) ← roundMantissa view bitLength
      if bitLength > doubleMaxExp then some (.error intTooLargeError)
      else
        let result := ops.ldexp (ops.ofMantissa mantissa)
          ((bitLength : Int) - precision)
        some (.ok (if view.signum < 0 then ops.neg result else result))

/-! ## Bits of the magnitude -/

/-- A mask of low bits takes a residue. -/
theorem toNat_and_mask (d : Digit) {r : Nat} (hr : r < 32) :
    (d &&& (((1 : Digit) <<< r) - 1)).toNat = d.toNat % 2 ^ r := by
  have hPow : 2 ^ r < 2 ^ 32 := Nat.pow_lt_pow_right (by decide) hr
  have hPos : 0 < 2 ^ r := Nat.two_pow_pos r
  have hMask : (((1 : Digit) <<< r) - 1).toNat = 2 ^ r - 1 := by
    rw [BitVec.toNat_sub, BitVec.toNat_shiftLeft]
    show (2 ^ 32 - 1 + (1 <<< r) % 2 ^ 32) % 2 ^ 32 = 2 ^ r - 1
    rw [Nat.shiftLeft_eq, Nat.one_mul, Nat.mod_eq_of_lt hPow]
    omega
  rw [BitVec.toNat_and, hMask, Nat.and_two_pow_sub_one_eq_mod]

/-- The lowest bits of a number: its full digits, and a part of one more. -/
theorem value_mod (ds : List Digit) {full r : Nat} (hr : r < 32)
    (hFull : full ≤ ds.length) :
    value ds % 2 ^ (32 * full + r) =
      value (ds.take full) +
        2 ^ (32 * full) * ((ds.getD full 0).toNat % 2 ^ r) := by
  have hSplit := value_take_add_drop ds full hFull
  rw [← Nat.pow_mul] at hSplit
  have hLow := value_lt (ds.take full)
  rw [List.length_take, Nat.min_eq_left hFull, ← Nat.pow_mul] at hLow
  have hDigit : value (ds.drop full) % 2 ^ r =
      (ds.getD full 0).toNat % 2 ^ r := by
    rcases Nat.lt_or_eq_of_le hFull with hLess | rfl
    · have hPower : (2 : Nat) ^ 32 = 2 ^ r * 2 ^ (32 - r) := by
        rw [← Nat.pow_add, Nat.add_sub_cancel' hr.le]
      rw [value_drop ds full hLess, hPower, Nat.mul_assoc,
        Nat.add_mul_mod_self_left]
    · rw [List.drop_length, List.getD_eq_default _ _ (Nat.le_refl _)]
      rfl
  rw [← hSplit, ← hDigit, Nat.pow_add, Nat.mod_mul,
    Nat.add_mul_mod_self_left, Nat.mod_eq_of_lt hLow,
    Nat.add_mul_div_left _ _ (Nat.two_pow_pos _), Nat.div_eq_of_lt hLow,
    Nat.zero_add]

/-- Whether a bit below a place is set. -/
theorem bigintAbsAnyBitsBelow_eq (view : ConstBigIntView) (n : Nat) :
    bigintAbsAnyBitsBelow view n = decide (view.magnitude % 2 ^ n ≠ 0) := by
  have hRest : n % 32 < 32 := Nat.mod_lt _ (by decide)
  have hParts : n = 32 * (n / 32) + n % 32 := (Nat.div_add_mod n 32).symm
  unfold ConstBigIntView.magnitude
  show (if (view.digits.take (n / 32)).any (· != 0) then true
    else if n % 32 ≠ 0 ∧ n / 32 < view.digits.length then
      view.digits.getD (n / 32) 0 &&& (((1 : Digit) <<< (n % 32)) - 1) != 0
    else false) = _
  generalize n / 32 = full at *
  generalize n % 32 = r at *
  subst hParts
  have hLowIff : value (view.digits.take full) = 0 ↔
      ¬ (view.digits.take full).any (· != 0) = true := by
    rw [value_eq_zero_iff]
    simp
  by_cases hBeyond : view.digits.length < full
  · -- all digits are full digits
    have hTake : view.digits.take full = view.digits :=
      List.take_of_length_le hBeyond.le
    have hLess : value view.digits < 2 ^ (32 * full + r) := by
      refine lt_of_lt_of_le (value_lt view.digits) ?_
      rw [← Nat.pow_mul]
      exact Nat.pow_le_pow_right (by decide) (by omega)
    rw [hTake] at hLowIff ⊢
    rw [Nat.mod_eq_of_lt hLess, if_neg (show ¬ (r ≠ 0 ∧ _) by omega)]
    by_cases hAny : view.digits.any (· != 0) = true
    · rw [if_pos hAny, decide_eq_true (mt hLowIff.mp (not_not.mpr hAny))]
    · rw [if_neg hAny, decide_eq_false (not_not.mpr (hLowIff.mpr hAny))]
  · rw [value_mod view.digits hRest (Nat.not_lt.mp hBeyond)]
    by_cases hAny : (view.digits.take full).any (· != 0) = true
    · have hLow : value (view.digits.take full) ≠ 0 :=
        mt hLowIff.mp (not_not.mpr hAny)
      rw [if_pos hAny, decide_eq_true (by omega)]
    · rw [if_neg hAny, hLowIff.mpr hAny, Nat.zero_add]
      have hWeight : 2 ^ (32 * full) ≠ 0 := (Nat.two_pow_pos _).ne'
      split_ifs with hMore
      · rw [Bool.eq_iff_iff, bne_iff_ne, decide_eq_true_eq, Ne, Ne,
          Nat.mul_eq_zero, or_iff_right hWeight,
          ← toNat_and_mask _ hRest, toNat_eq_zero_iff]
      · refine (decide_eq_false (not_not.mpr ?_)).symm
        rw [Nat.mul_eq_zero]
        right
        by_cases hr : r = 0
        · rw [hr, Nat.pow_zero, Nat.mod_one]
        · rw [List.getD_eq_default _ _ (by omega)]
          exact Nat.zero_mod _

/-- The next lower bit behind the bits above it. -/
theorem append_bit (x i : Nat) :
    (if x.testBit i then ((x / 2 ^ (i + 1)) <<< 1) ||| 1
      else (x / 2 ^ (i + 1)) <<< 1) = x / 2 ^ i := by
  have hHalf : x / 2 ^ (i + 1) = x / 2 ^ i / 2 := by
    rw [Nat.pow_succ, Nat.div_div_eq_div_mul]
  have hParity := Nat.div_add_mod (x / 2 ^ i) 2
  have hEven : (x / 2 ^ i / 2) <<< 1 = 2 * (x / 2 ^ i / 2) := by
    rw [Nat.shiftLeft_eq, Nat.pow_one, Nat.mul_comm]
  have hOr : 2 * (x / 2 ^ i / 2) ||| 1 = 2 * (x / 2 ^ i / 2) + 1 :=
    (Nat.two_pow_add_eq_or_of_lt (i := 1) Nat.one_lt_two _).symm
  rw [hHalf, Nat.testBit_eq_decide_div_mod_eq, hEven, hOr]
  simp only [decide_eq_true_eq]
  split_ifs with hOne <;> omega

theorem topBitsLoop_eq {view : ConstBigIntView} {lowBit : Nat}
    (hFits : view.magnitude / 2 ^ lowBit < 2 ^ 64) (left : Nat) :
    topBitsLoop view lowBit left (view.magnitude / 2 ^ (lowBit + left)) =
      some (view.magnitude / 2 ^ lowBit) := by
  induction left with
  | zero => rfl
  | succ left ih =>
      have hShifted : (view.magnitude / 2 ^ (lowBit + (left + 1))) <<< 1 <
          2 ^ 64 := by
        have hLe : (view.magnitude / 2 ^ (lowBit + (left + 1))) <<< 1 ≤
            view.magnitude / 2 ^ lowBit := by
          rw [Nat.shiftLeft_eq, ← Nat.add_assoc, Nat.pow_succ,
            ← Nat.div_div_eq_div_mul, Nat.pow_one]
          refine (Nat.div_mul_le_self _ 2).trans ?_
          exact Nat.div_le_div_left
            (Nat.pow_le_pow_right (by decide) (Nat.le_add_right _ _))
            (Nat.two_pow_pos _)
        omega
      rw [topBitsLoop, bind_of_eq_some (doubleDigit_eq_some hShifted),
        bigintAbsBit_testBit, ← Nat.add_assoc, append_bit, ih]

/-- The top bits of a magnitude. -/
theorem bigintAbsTopBits_eq {view : ConstBigIntView} {bitLength nBits : Nat}
    (hBits : nBits ≤ 64) (hLength : nBits ≤ bitLength)
    (hMagnitude : view.magnitude < 2 ^ bitLength) :
    bigintAbsTopBits view bitLength nBits =
      some (view.magnitude / 2 ^ (bitLength - nBits)) := by
  have hTop : view.magnitude / 2 ^ (bitLength - nBits) < 2 ^ nBits := by
    refine Nat.div_lt_of_lt_mul ?_
    rwa [← Nat.pow_add, Nat.sub_add_cancel hLength]
  have hNone : view.magnitude / 2 ^ (bitLength - nBits + nBits) = 0 := by
    rw [Nat.sub_add_cancel hLength, Nat.div_eq_of_lt hMagnitude]
  have hLoop := topBitsLoop_eq (hTop.trans_le
    (Nat.pow_le_pow_right (by decide) hBits)) nBits
  rw [hNone] at hLoop
  rw [bigintAbsTopBits, check_bind hBits, check_bind hLength, hLoop]

/-! ## Rounding -/

/-- `m * 2 ^ e` is `x` rounded to 53 significant bits. -/
structure RoundsTo (x m e : Nat) : Prop where
  nearest : NearestEven (2 ^ e) x m
  fits : m < 2 ^ 53
  significant : e ≠ 0 → 2 ^ 52 ≤ m
  exact : x < 2 ^ 53 → m * 2 ^ e = x

/-- A magnitude of at most 53 bits stays as it is. -/
theorem roundsTo_self {x : Nat} (h : x < 2 ^ 53) : RoundsTo x x 0 :=
  ⟨nearestEven_one x, h, fun hne => absurd rfl hne, fun _ => Nat.mul_one x⟩

/-- The top `p` bits of a number of `n + p` bits. -/
theorem topBits_bounds {x n p : Nat} (hp : 0 < p)
    (hLow : 2 ^ (n + p - 1) ≤ x) (hHigh : x < 2 ^ (n + p)) :
    2 ^ (p - 1) ≤ x / 2 ^ n ∧ x / 2 ^ n < 2 ^ p := by
  constructor
  · rw [Nat.le_div_iff_mul_le (Nat.two_pow_pos _), ← Nat.pow_add]
    rwa [show p - 1 + n = n + p - 1 by omega]
  · refine Nat.div_lt_of_lt_mul ?_
    rwa [← Nat.pow_add]

/-- When the mantissa is rounded up. -/
theorem roundsUp_iff (view : ConstBigIntView) (t q : Nat) :
    (bigintAbsBit view t && (decide (t + 1 > 1) &&
        bigintAbsAnyBitsBelow view t || q &&& 1 != 0)) = true ↔
      view.magnitude.testBit t = true ∧
        (view.magnitude % 2 ^ t ≠ 0 ∨ q % 2 ≠ 0) := by
  have hSticky : (decide (t + 1 > 1) && bigintAbsAnyBitsBelow view t) =
      decide (view.magnitude % 2 ^ t ≠ 0) := by
    rw [bigintAbsAnyBitsBelow_eq]
    cases t with
    | zero => simp [Nat.mod_one]
    | succ t => simp
  rw [hSticky, bigintAbsBit_testBit, Bool.and_eq_true, Bool.or_eq_true,
    decide_eq_true_eq, bne_iff_ne, Nat.and_one_is_mod]

/-- The mantissa and the bit length of a magnitude of more than 53 bits. -/
theorem roundMantissa_spec {view : ConstBigIntView} {bitLength : Nat}
    (hLong : 53 < bitLength) (hLow : 2 ^ (bitLength - 1) ≤ view.magnitude)
    (hHigh : view.magnitude < 2 ^ bitLength) :
    ∃ m e, roundMantissa view bitLength = some (m, e + 53) ∧ 0 < e ∧
      RoundsTo view.magnitude m e := by
  obtain ⟨t, rfl⟩ : ∃ t, bitLength = t + 1 + 53 := ⟨bitLength - 54, by omega⟩
  have hTop := bigintAbsTopBits_eq (by decide : 53 ≤ 64) hLong.le hHigh
  rw [Nat.add_sub_cancel] at hTop
  obtain ⟨hqLow, hqHigh⟩ := topBits_bounds (by decide) hLow hHigh
  have hLarge : 2 ^ 53 ≤ view.magnitude :=
    (Nat.pow_le_pow_right (by decide) (by omega)).trans hLow
  generalize hq : view.magnitude / 2 ^ (t + 1) = q at hTop hqLow hqHigh
  have hNearest := nearestEven_guardSticky view.magnitude t
  obtain ⟨hHalf, -⟩ := guardSticky_half view.magnitude t
  rw [guardSticky, hq] at hNearest hHalf
  have hRound := roundsUp_iff view t q
  unfold roundMantissa
  rw [show t + 1 + 53 - precision = t + 1 from Nat.add_sub_cancel _ _]
  dsimp only [precision]
  rw [bind_of_eq_some hTop, Nat.add_sub_cancel]
  by_cases hUp : view.magnitude.testBit t = true ∧
      (view.magnitude % 2 ^ t ≠ 0 ∨ q % 2 ≠ 0)
  · rw [if_pos hUp] at hNearest hHalf
    rw [if_pos (hRound.mpr hUp),
      bind_of_eq_some (doubleDigit_eq_some (by omega))]
    by_cases hCarry : q + 1 = 2 ^ 53
    · -- the mantissa carries into a 54th bit
      refine ⟨2 ^ 52, t + 1 + 1, ?_, Nat.succ_pos _, ?_⟩
      · refine (if_pos hCarry).trans ?_
        rw [hCarry, Nat.add_right_comm (t + 1) 53 1]
        rfl
      · have hTwice : q + 1 = 2 * 2 ^ 52 := hCarry
        rw [hTwice] at hHalf
        have hCarried := nearestEven_carry hHalf (Nat.two_pow_pos _)
        rw [← Nat.pow_succ'] at hCarried
        exact ⟨hCarried, by decide, fun _ => Nat.le_refl _,
          fun hSmall => absurd hLarge (Nat.not_le.mpr hSmall)⟩
    · refine ⟨q + 1, t + 1, ?_, Nat.succ_pos _, ?_⟩
      · exact if_neg hCarry
      · exact ⟨hNearest, by omega, fun _ => by omega,
          fun hSmall => absurd hLarge (Nat.not_le.mpr hSmall)⟩
  · rw [if_neg hUp, Nat.add_zero] at hNearest
    rw [if_neg (mt hRound.mp hUp)]
    exact ⟨q, t + 1, rfl, Nat.succ_pos _, hNearest, hqHigh, fun _ => hqLow,
      fun hSmall => absurd hLarge (Nat.not_le.mpr hSmall)⟩

/-- A mantissa of `p` bits reaches a power by its exponent. -/
theorem pow_le_scaled_iff {m e p k : Nat} (hLow : 2 ^ (p - 1) ≤ m)
    (hHigh : m < 2 ^ p) (hp : 0 < p) :
    2 ^ k ≤ m * 2 ^ e ↔ k < e + p := by
  constructor
  · intro hReach
    by_contra hShort
    have hScaled : m * 2 ^ e < 2 ^ (e + p) := by
      rw [Nat.add_comm, Nat.pow_add]
      exact Nat.mul_lt_mul_of_pos_right hHigh (Nat.two_pow_pos e)
    have hPow : 2 ^ (e + p) ≤ 2 ^ k :=
      Nat.pow_le_pow_right (by decide) (Nat.not_lt.mp hShort)
    exact absurd (hReach.trans_lt hScaled) (Nat.not_lt.mpr hPow)
  · intro hLess
    calc 2 ^ k ≤ 2 ^ (p - 1 + e) :=
          Nat.pow_le_pow_right (by decide) (by omega)
      _ = 2 ^ (p - 1) * 2 ^ e := Nat.pow_add _ _ _
      _ ≤ m * 2 ^ e := Nat.mul_le_mul_right _ hLow

/-! ## The conversion -/

section Conversion

variable {δ : Type} {view : ConstBigIntView}

/-- The double of a mantissa and an exponent; without an exponent there is
nothing to scale. -/
def DoubleOps.scaled (ops : DoubleOps δ) (m e : Nat) : δ :=
  if e = 0 then ops.ofMantissa m else ops.ldexp (ops.ofMantissa m) e

/-- A double under the sign of a view. -/
def DoubleOps.signed (ops : DoubleOps δ) (view : ConstBigIntView) (d : δ) : δ :=
  if view.signum < 0 then ops.neg d else d

/-- The operations are exact on mantissas of 53 bits and in the range of the
format. -/
structure DoubleOps.Exact (ops : DoubleOps δ) (toRat : δ → ℚ) : Prop where
  ofMantissa : ∀ m : Nat, m < 2 ^ 53 → toRat (ops.ofMantissa m) = m
  ldexp : ∀ m e : Nat, m < 2 ^ 53 → m * 2 ^ e < 2 ^ 1024 →
    toRat (ops.ldexp (ops.ofMantissa m) e) = m * 2 ^ e
  neg : ∀ d, toRat (ops.neg d) = -toRat d

theorem DoubleOps.Exact.scaled {ops : DoubleOps δ} {toRat : δ → ℚ}
    (h : ops.Exact toRat) {m e : Nat} (hFits : m < 2 ^ 53)
    (hRange : m * 2 ^ e < 2 ^ 1024) :
    toRat (ops.scaled m e) = m * 2 ^ e := by
  unfold DoubleOps.scaled
  split_ifs with hZero
  · rw [hZero, h.ofMantissa m hFits, pow_zero, mul_one]
  · exact h.ldexp m e hFits hRange

theorem DoubleOps.Exact.signed {ops : DoubleOps δ} {toRat : δ → ℚ}
    (h : ops.Exact toRat) (hNormalized : Normalized view)
    (hNonzero : view.signum ≠ 0) (d : δ) :
    toRat (ops.signed view d) = view.toInt.sign * toRat d := by
  have hSign := hNormalized.signum_eq_sign
  unfold DoubleOps.signed
  rcases hNormalized.signum with ⟨-, hZero⟩ | ⟨-, hMinus | hPlus⟩
  · exact absurd hZero hNonzero
  · rw [if_pos (by omega), h.neg, ← hSign, hMinus]
    simp
  · rw [if_neg (by omega), ← hSign, hPlus]
    simp

/-- **Conversion**: the double of an integer is its magnitude rounded to 53
significant bits, ties to even, under its sign; a rounded magnitude of
`2 ^ 1024` or more is an `OverflowError`. -/
theorem bigintToDouble_rounds (ops : DoubleOps δ) (h : Normalized view)
    (hNonzero : view.signum ≠ 0) :
    ∃ m e, RoundsTo view.toInt.natAbs m e ∧
      (2 ^ 1024 ≤ m * 2 ^ e ↔
        bigintToDouble ops view = some (.error intTooLargeError)) ∧
      (m * 2 ^ e < 2 ^ 1024 → bigintToDouble ops view =
        some (.ok (ops.signed view (ops.scaled m e)))) ∧
      ∀ toRat : δ → ℚ, ops.Exact toRat → m * 2 ^ e < 2 ^ 1024 →
        toRat (ops.signed view (ops.scaled m e)) =
          view.toInt.sign * (m * 2 ^ e) := by
  have hne : view.digits ≠ [] := mt h.signum_eq_zero_iff.mpr hNonzero
  obtain ⟨bitLength, hLength, -, hLow, hHigh⟩ :=
    bigintAbsBitLength_bounds h hne
  have hExact : ∀ {m e : Nat}, m < 2 ^ 53 → ∀ toRat : δ → ℚ,
      ops.Exact toRat → m * 2 ^ e < 2 ^ 1024 →
      toRat (ops.signed view (ops.scaled m e)) =
        view.toInt.sign * (m * 2 ^ e) := by
    intro m e hFits toRat hOps hRange
    rw [hOps.signed h hNonzero, hOps.scaled hFits hRange]
  rw [← h.magnitude_eq_natAbs]
  unfold bigintToDouble
  rw [check_normalized h, if_neg hNonzero, bind_of_eq_some hLength]
  by_cases hShort : bitLength ≤ 53
  · have hSmall : view.magnitude < 2 ^ 53 :=
      hHigh.trans_le (Nat.pow_le_pow_right (by decide) hShort)
    have hTop := bigintAbsTopBits_eq (hShort.trans (by decide))
      (Nat.le_refl _) hHigh
    rw [Nat.sub_self, Nat.pow_zero, Nat.div_one] at hTop
    have hRange : ∀ k, 53 ≤ k → view.magnitude * 2 ^ 0 < 2 ^ k := by
      intro k hk
      rw [Nat.pow_zero, Nat.mul_one]
      exact hSmall.trans_le (Nat.pow_le_pow_right (by decide) hk)
    refine ⟨view.magnitude, 0, roundsTo_self hSmall, ?_, ?_, hExact hSmall⟩
    · rw [if_pos (show bitLength ≤ precision from hShort),
        bind_of_eq_some hTop]
      exact iff_of_false (Nat.not_le.mpr (hRange _ (by decide))) nofun
    · intro _
      rw [if_pos (show bitLength ≤ precision from hShort),
        bind_of_eq_some hTop]
      rfl
  · obtain ⟨m, e, hRounded, hPositive, hRounds⟩ :=
      roundMantissa_spec (Nat.lt_of_not_le hShort) hLow hHigh
    have hOverflow := pow_le_scaled_iff (k := 1024) (e := e)
      (hRounds.significant hPositive.ne') hRounds.fits (by decide)
    refine ⟨m, e, hRounds, ?_, ?_, hExact hRounds.fits⟩
    · rw [if_neg (show ¬ bitLength ≤ precision from hShort),
        bind_of_eq_some hRounded, hOverflow]
      dsimp only
      by_cases hLarge : e + 53 > doubleMaxExp
      · rw [if_pos hLarge]
        exact iff_of_true hLarge rfl
      · rw [if_neg hLarge]
        exact iff_of_false hLarge nofun
    · intro hRange
      have hFits := mt hOverflow.mpr (Nat.not_le.mpr hRange)
      rw [if_neg (show ¬ bitLength ≤ precision from hShort),
        bind_of_eq_some hRounded]
      dsimp only
      rw [if_neg (show ¬ e + 53 > doubleMaxExp from hFits),
        DoubleOps.scaled, if_neg hPositive.ne',
        show ((e + 53 : Nat) : Int) - (precision : Nat) = e from by
          rw [Nat.cast_add]
          exact Int.add_sub_cancel _ _]
      rfl

end Conversion

/-- Doubles as the rational numbers they stand for. -/
def rationalDoubles : DoubleOps ℚ where
  zero := 0
  ofMantissa m := m
  ldexp d e := d * 2 ^ e
  neg d := -d

theorem rationalDoubles_exact : rationalDoubles.Exact id where
  ofMantissa _ _ := rfl
  ldexp m e _ _ := congrArg ((m : ℚ) * ·) (zpow_natCast (2 : ℚ) e)
  neg _ := rfl

/-- The double of `-(2 ^ 53 + 3)`, which needs 54 bits. -/
theorem bigintToDouble_rounds_long :
    ∃ m e, RoundsTo (2 ^ 53 + 3) m e ∧ (m * 2 ^ e < 2 ^ 1024 →
      bigintToDouble rationalDoubles ⟨-1, [3, 2 ^ 21]⟩ =
        some (.ok (-1 * (m * 2 ^ e)))) := by
  have hNormalized : Normalized ⟨-1, [3, 2 ^ 21]⟩ :=
    (isNormalizedBigintView_iff _).mp (by decide)
  obtain ⟨m, e, hRounds, -, hFinite, hExact⟩ :=
    bigintToDouble_rounds rationalDoubles hNormalized (by decide)
  have hInt : ConstBigIntView.toInt ⟨-1, [3, 2 ^ 21]⟩ = -(2 ^ 53 + 3) := by
    decide +kernel
  rw [hInt] at hRounds hExact
  refine ⟨m, e, hRounds, fun hRange => ?_⟩
  rw [hFinite hRange, ← id_eq (DoubleOps.signed _ _ _),
    hExact id rationalDoubles_exact hRange,
    show (-(2 ^ 53 + 3) : Int).sign = -1 by decide]
  rw [Int.cast_neg, Int.cast_one]

end CloverVM.BuiltinTypes.BigInt
