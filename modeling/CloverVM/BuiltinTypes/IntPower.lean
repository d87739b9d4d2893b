import CloverVM.BuiltinTypes.BigIntLongDivision
import CloverVM.Machine.SquareAndMultiply
import CloverVM.Machine.TwosComplement

/-!
# Powers of integers

The power of `builtin_types/bigint.cpp` for an exponent that is not negative,
and the one of `builtin_types/int.cpp` for two small integers.  The first
counts through the bits of an exponent of any length and multiplies views.
The second multiplies words while the products are small integers, and
starts again with the first when one is not.
-/

namespace CloverVM.BuiltinTypes.BigInt

open CloverVM.Machine CloverVM.Machine.Digits CloverVM.ObjectModel
open CloverVM.Machine.SquareAndMultiply

def bigintAbsBitLength (view : ConstBigIntView) : Option Nat := do
  check (isNormalizedBigintView view)
  if view.nDigits = 0 then
    some 0
  else
    let topDigit := view.digits.getD (view.nDigits - 1) 0
    check (topDigit ≠ 0)
    some ((view.nDigits - 1) * kDigitBits + kDigitBits - countlZero topDigit)

def bigintAbsBit (view : ConstBigIntView) (bitIndex : Nat) : Bool :=
  let digitIndex := bitIndex / kDigitBits
  if digitIndex ≥ view.nDigits then false
  else
    let digitBit := bitIndex % kDigitBits
    (view.digits.getD digitIndex 0 >>> digitBit) &&& 1 != 0

/-- The work buffers grow to the capacity that a product needs. -/
def bigintPowNonnegative (base exponent : ConstBigIntView) :
    Option IntValue := do
  check (isNormalizedBigintView base)
  check (isNormalizedBigintView exponent)
  check (exponent.signum ≥ 0)
  if exponent.signum = 0 then
    finalizeBigint oneView
  else
    let exponentBits ← bigintAbsBitLength exponent
    let result ← powLoop
      (fun result power =>
        bigintMulInto (result.nDigits + power.nDigits) result power)
      (fun power => bigintMulInto (power.nDigits * 2) power power)
      (bigintAbsBit exponent) exponentBits exponentBits 0 oneView base
    finalizeBigint result

/-- The checked product of two words, when it is a small integer. -/
def checkedSmiMul (left right : BitVec 64) : Option (BitVec 64) :=
  if left.smulOverflow right then none
  else
    let product := left * right
    if product.toInt < valueSmiMin ∨ product.toInt > valueSmiMax then none
    else some product

def intSmiPowNonnegative (base exponent : BitVec 64) : Option IntValue := do
  check (exponent.toInt ≥ 0)
  match powWhile checkedSmiMul (fun power => checkedSmiMul power power)
      exponent.toNat 1 base with
  | some result => some (.smi (Value.fromSmi result))
  | none => do
      let baseView ← smiBigintView base.toInt
      let exponentView ← smiBigintView exponent.toInt
      bigintPowNonnegative baseView exponentView

/-! ## The bits of a magnitude -/

theorem shiftRight_and_one (d : Digit) (i : Nat) :
    (d >>> i &&& 1 != 0) = d.getLsbD i := by
  have hBit : d >>> i &&& 1 =
      BitVec.setWidth 32 (BitVec.ofBool (d.getLsbD i)) := by
    rw [show (1 : Digit) = 1#32 from rfl,
      BitVec.and_one_eq_setWidth_ofBool_getLsbD, BitVec.getLsbD_ushiftRight,
      Nat.add_zero]
  rw [hBit]
  cases d.getLsbD i <;> decide

/-- A bit of the magnitude; past the digits it is clear. -/
theorem bigintAbsBit_testBit (view : ConstBigIntView) (i : Nat) :
    bigintAbsBit view i = view.magnitude.testBit i := by
  unfold ConstBigIntView.magnitude
  rw [testBit_value]
  show (if i / 32 ≥ view.digits.length then false
    else (view.digits.getD (i / 32) 0 >>> (i % 32)) &&& 1 != 0) = _
  split_ifs with hBeyond
  · rw [List.getD_eq_default _ _ hBeyond]
    simp
  · exact shiftRight_and_one _ _

/-- The number of bits of a magnitude that is not zero. -/
theorem bigintAbsBitLength_bounds {view : ConstBigIntView}
    (h : Normalized view) (hne : view.digits ≠ []) :
    ∃ bitLength, bigintAbsBitLength view = some bitLength ∧ 0 < bitLength ∧
      2 ^ (bitLength - 1) ≤ view.magnitude ∧
      view.magnitude < 2 ^ bitLength := by
  obtain ⟨low, top, hDigits⟩ : ∃ low top, view.digits = low ++ [top] :=
    ⟨_, _, (List.dropLast_append_getLast hne).symm⟩
  have hTrimmed := h.trimmed
  rw [hDigits, trimmed_append_singleton] at hTrimmed
  have hCount : view.nDigits = low.length + 1 := by
    rw [ConstBigIntView.nDigits, hDigits, List.length_append,
      List.length_singleton]
  have hTop : view.digits.getD (view.nDigits - 1) 0 = top := by
    rw [hCount, hDigits, Nat.add_sub_cancel, List.getD_append_right _ _ _ _
      (Nat.le_refl _), Nat.sub_self, List.getD_cons_zero]
  have hMagnitude : view.magnitude =
      value low + 2 ^ (32 * low.length) * top.toNat := by
    rw [ConstBigIntView.magnitude, hDigits, value_append, value_cons,
      value_nil, Nat.mul_zero, Nat.add_zero, Nat.pow_mul]
  have hLow := value_lt low
  rw [← Nat.pow_mul] at hLow
  obtain ⟨hClz, -, -⟩ := countlZero_spec hTrimmed
  have hTopLow : 2 ^ (31 - countlZero top) ≤ top.toNat :=
    BitVec.two_pow_sub_clz_le_toNat_of_ne_zero (by decide) hTrimmed
  have hTopHigh : top.toNat < 2 ^ (32 - countlZero top) :=
    BitVec.toNat_lt_two_pow_sub_clz
  refine ⟨32 * low.length + (32 - countlZero top), ?_, by omega, ?_, ?_⟩
  · rw [bigintAbsBitLength, check_normalized h, if_neg (by omega)]
    dsimp only
    rw [hTop, check_bind hTrimmed, hCount]
    show some (low.length * 32 + 32 - countlZero top) = _
    congr 1
    omega
  · calc 2 ^ (32 * low.length + (32 - countlZero top) - 1)
        = 2 ^ (32 * low.length) * 2 ^ (31 - countlZero top) := by
          rw [← Nat.pow_add]
          congr 1
          omega
      _ ≤ 2 ^ (32 * low.length) * top.toNat := Nat.mul_le_mul_left _ hTopLow
      _ ≤ view.magnitude := by omega
  · calc view.magnitude
        < 2 ^ (32 * low.length) * (top.toNat + 1) := by
          rw [Nat.mul_add]
          omega
      _ ≤ 2 ^ (32 * low.length) * 2 ^ (32 - countlZero top) :=
          Nat.mul_le_mul_left _ hTopHigh
      _ = 2 ^ (32 * low.length + (32 - countlZero top)) :=
          (Nat.pow_add _ _ _).symm

theorem bigintAbsBitLength_spec {view : ConstBigIntView} {n : Int}
    (h : Denotes view n) :
    ∃ bits, bigintAbsBitLength view = some bits ∧ n.natAbs < 2 ^ bits := by
  by_cases hEmpty : view.digits = []
  · refine ⟨0, ?_, ?_⟩
    · have hNone : view.nDigits = 0 := List.length_eq_zero_iff.mpr hEmpty
      rw [bigintAbsBitLength, check_normalized h.normalized, if_pos hNone]
    · rw [h.digits_eq_nil_iff.mp hEmpty]
      decide
  · obtain ⟨bits, hBits, -, -, hHigh⟩ :=
      bigintAbsBitLength_bounds h.normalized hEmpty
    exact ⟨bits, hBits, h.magnitude ▸ hHigh⟩

theorem bigintAbsBit_eq {view : ConstBigIntView} {n : Int}
    (h : Denotes view n) (i : Nat) :
    bigintAbsBit view i = n.natAbs.testBit i := by
  rw [bigintAbsBit_testBit, h.magnitude]

theorem bigintMul_multiplies :
    Multiplies Denotes
      (fun result power =>
        bigintMulInto (result.nDigits + power.nDigits) result power)
      (fun power => bigintMulInto (power.nDigits * 2) power power) where
  multiply hResult hPower := bigintMulInto_spec hResult hPower le_rfl
  square hPower := bigintMulInto_spec hPower hPower (by omega)

theorem bigintPowNonnegative_yields {base exponent : ConstBigIntView}
    {a : Int} {n : Nat} (hb : Denotes base a) (he : Denotes exponent n) :
    Yields (bigintPowNonnegative base exponent) (a ^ n) := by
  have hSign : exponent.signum ≥ 0 := by
    rcases he.signum_nonneg with hZero | hOne <;> omega
  unfold bigintPowNonnegative
  rw [check_normalized hb.normalized, check_normalized he.normalized,
    check_bind hSign]
  by_cases hZero : exponent.signum = 0
  · have hn : n = 0 := Int.natCast_eq_zero.mp (he.signum_eq_zero_iff.mp hZero)
    rw [if_pos hZero, hn, pow_zero]
    exact finalizeBigint_yields denotes_one
  · obtain ⟨bits, hBits, hBound⟩ := bigintAbsBitLength_spec he
    rw [Int.natAbs_natCast] at hBound
    obtain ⟨result, hRun, hResult⟩ := powLoop_spec bigintMul_multiplies
      (bigintAbsBit_eq he) hBound bits 0 oneView base 1 a (Nat.zero_add bits)
      denotes_one hb
    rw [Nat.pow_zero, Nat.div_one, one_mul, Int.natAbs_natCast] at hResult
    rw [if_neg hZero]
    refine (?_ : Yields (bigintAbsBitLength exponent >>= _) _)
    rw [bind_of_eq_some hBits]
    refine (?_ : Yields (powLoop _ _ _ _ _ _ _ _ >>= _) _)
    rw [bind_of_eq_some hRun]
    exact finalizeBigint_yields hResult

/-! ## The loop over words -/

/-- The word of a small integer, as the word loop holds it. -/
def HoldsSmi (word : BitVec 64) (a : Int) : Prop :=
  word.toInt = a ∧ SmiRange a

theorem holdsSmi_ofInt {a : Int} (h : SmiRange a) :
    HoldsSmi (BitVec.ofInt 64 a) a := ⟨ofInt_toInt_of_smiRange h, h⟩

theorem checkedSmiMul_holds {left right product : BitVec 64} {a b : Int}
    (hRun : checkedSmiMul left right = some product) (hl : HoldsSmi left a)
    (hr : HoldsSmi right b) : HoldsSmi product (a * b) := by
  unfold checkedSmiMul at hRun
  split at hRun
  · cases hRun
  · rename_i hNoOverflow
    simp only at hRun
    split at hRun
    · cases hRun
    · rename_i hRange
      rw [Option.some.injEq] at hRun
      subst hRun
      have hProduct : (left * right).toInt = a * b := by
        rw [BitVec.toInt_mul_of_not_smulOverflow hNoOverflow, hl.1, hr.1]
      rw [hProduct] at hRange
      exact ⟨hProduct, by simp only [SmiRange]; omega⟩

theorem checkedSmiMul_mayMultiply :
    MayMultiply HoldsSmi checkedSmiMul
      (fun power => checkedSmiMul power power) where
  multiply := checkedSmiMul_holds
  square hRun hPower := checkedSmiMul_holds hRun hPower hPower

/-- The two loops return the same value, also when the first has to start
again with the second. -/
theorem intSmiPowNonnegative_eq {base exponent : ConstBigIntView} {a : Int}
    {n : Nat} (hb : Denotes base a) (he : Denotes exponent n)
    (ha : SmiRange a) (hn : SmiRange n) :
    intSmiPowNonnegative (BitVec.ofInt 64 a) (BitVec.ofInt 64 n) =
      bigintPowNonnegative base exponent := by
  have hExponent := ofInt_toInt_of_smiRange hn
  have hNonneg : (BitVec.ofInt 64 (n : Int)).toInt ≥ 0 := by omega
  have hCount : (BitVec.ofInt 64 (n : Int)).toNat = n := by
    simp only [SmiRange, valueSmiMin, valueSmiMax] at hn
    rw [BitVec.ofInt_natCast, BitVec.toNat_ofNat]
    omega
  unfold intSmiPowNonnegative
  rw [check_bind hNonneg, hCount, hExponent, ofInt_toInt_of_smiRange ha]
  split
  · rename_i result hRun
    have hOne : HoldsSmi 1 1 := ⟨by decide, by decide⟩
    obtain ⟨hValue, hFits⟩ := powWhile_spec checkedSmiMul_mayMultiply n hOne
      (holdsSmi_ofInt ha) hRun
    rw [one_mul] at hValue hFits
    have hWord : Value.fromSmi result = Value.ofInt (a ^ n) := by
      rw [Value.ofInt, ← hValue, BitVec.ofInt_toInt]
    obtain ⟨v, hPow, hCanonical, hv⟩ := bigintPowNonnegative_yields hb he
    rw [hPow, hWord]
    refine congrArg some (IntValue.eq_of_toInt_eq (isSmi_ofInt _) hCanonical ?_)
    exact (smi_ofInt hFits).trans hv.symm
  · obtain ⟨baseView, hBaseRun, hBase⟩ := smiBigintView_spec ha
    obtain ⟨exponentView, hExponentRun, hExponentView⟩ := smiBigintView_spec hn
    rw [bind_of_eq_some hBaseRun, bind_of_eq_some hExponentRun,
      hBase.eq hb, hExponentView.eq he]

/-- For every base and every exponent that is not negative the power is exact
and canonical, and the power of small integers is the same value. -/
theorem int_power_exact {base exponent : ConstBigIntView}
    (hb : Normalized base) (he : Normalized exponent)
    (hNonneg : 0 ≤ exponent.toInt) :
    Yields (bigintPowNonnegative base exponent)
        (base.toInt ^ exponent.toInt.toNat) ∧
      (SmiRange base.toInt → SmiRange exponent.toInt →
        intSmiPowNonnegative (Value.ofInt base.toInt).getSmi
            (Value.ofInt exponent.toInt).getSmi =
          bigintPowNonnegative base exponent) := by
  have hExponent := denotes_self he
  obtain ⟨n, hn⟩ := Int.eq_ofNat_of_zero_le hNonneg
  rw [hn] at hExponent
  rw [hn, Int.toNat_natCast]
  refine ⟨bigintPowNonnegative_yields (denotes_self hb) hExponent, ?_⟩
  intro hBaseFits hExponentFits
  rw [getSmi_ofInt hBaseFits, getSmi_ofInt hExponentFits]
  exact intSmiPowNonnegative_eq (denotes_self hb) hExponent hBaseFits
    hExponentFits

/-- A power of a small integer that does not fit one. -/
theorem int_power_exact_at_smi_overflow :
    Yields (bigintPowNonnegative ⟨-1, [3]⟩ ⟨1, [41]⟩) ((-3) ^ 41) ∧
      intSmiPowNonnegative (Value.ofInt (-3)).getSmi (Value.ofInt 41).getSmi =
        bigintPowNonnegative ⟨-1, [3]⟩ ⟨1, [41]⟩ := by
  have hb : Normalized ⟨-1, [3]⟩ :=
    (isNormalizedBigintView_iff _).mp (by decide)
  have he : Normalized ⟨1, [41]⟩ :=
    (isNormalizedBigintView_iff _).mp (by decide)
  obtain ⟨hPower, hSmi⟩ := int_power_exact hb he (by decide)
  exact ⟨hPower, hSmi (by decide) (by decide)⟩

end CloverVM.BuiltinTypes.BigInt
