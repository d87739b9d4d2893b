import CloverVM.BuiltinTypes.BigIntLongDivision
import CloverVM.Machine.TwosComplement

/-!
# Bitwise operations on integers

The `&`, `^` and `|` of `builtin_types/bigint.cpp`.  A negative operand is
complemented digit by digit, the operation runs over the digits of the
longer operand, a missing digit of the shorter one is read off its sign, and
a negative outcome is complemented back with one more digit of sign above
it.
-/

namespace CloverVM.BuiltinTypes.BigInt

open CloverVM.Machine CloverVM.Machine.Digits

/-- The complement loop, with the carry that comes in. -/
def complementLoop : List Digit → Nat → Option (List Digit × Nat)
  | [], carry => some ([], carry)
  | d :: src, carry => do
      let sum ← doubleDigit ((d ^^^ ~~~0).toNat + carry)
      let (digits, carryOut) ← complementLoop src (sum >>> kDigitBits)
      some (toDigit sum :: digits, carryOut)

def bigintDigitsComplementInto (src : List Digit) : Option (List Digit) := do
  let (digits, carry) ← complementLoop src 1
  check (carry = 0)
  some digits

/-- The parameter of `bigint_bitwise`. -/
structure BigIntOperation where
  resultNegative : Bool → Bool → Bool
  apply : Digit → Digit → Digit
  tail : Digit → Bool → Digit

def bigIntAndOperation : BigIntOperation where
  resultNegative leftNegative rightNegative := leftNegative && rightNegative
  apply left right := left &&& right
  tail largerDigit smallerNegative :=
    if smallerNegative then largerDigit else 0

def bigIntXorOperation : BigIntOperation where
  resultNegative leftNegative rightNegative := leftNegative != rightNegative
  apply left right := left ^^^ right
  tail largerDigit smallerNegative :=
    if smallerNegative then largerDigit ^^^ ~~~0 else largerDigit

def bigIntOrOperation : BigIntOperation where
  resultNegative leftNegative rightNegative := leftNegative || rightNegative
  apply left right := left ||| right
  tail largerDigit smallerNegative :=
    if smallerNegative then ~~~0 else largerDigit

/-- The digits of an operand in two's complement. -/
def complementIfNegative (view : ConstBigIntView) : Option (List Digit) :=
  if view.signum < 0 then bigintDigitsComplementInto view.digits
  else some view.digits

/-- The view of the outcome; a negative one is complemented back with a
digit of sign bits above it. -/
def bitwiseResult (resultNegative : Bool) (digits : List Digit) :
    Option ConstBigIntView :=
  if resultNegative then do
    let complemented ← bigintDigitsComplementInto (digits ++ [~~~0])
    let normalized ← normalizeBigintView ⟨1, complemented⟩
    some ⟨if normalized.nDigits = 0 then 0 else -1, normalized.digits⟩
  else
    normalizeBigintView ⟨1, digits⟩

/-- The body of `bigint_bitwise`, where `left` has the more digits. -/
def bigintBitwiseOrdered (operation : BigIntOperation)
    (left right : ConstBigIntView) : Option IntValue := do
  let leftDigits ← complementIfNegative left
  let rightDigits ← complementIfNegative right
  if left.nDigits = 0 then
    finalizeBigint ⟨0, []⟩
  else
    let result ← bitwiseResult
      (operation.resultNegative (left.signum < 0) (right.signum < 0))
      (extendWith operation.apply operation.tail (right.signum < 0)
        leftDigits rightDigits)
    check (isNormalizedBigintView result)
    finalizeBigint result

def bigintBitwise (operation : BigIntOperation)
    (left right : ConstBigIntView) : Option IntValue := do
  check (isNormalizedBigintView left)
  check (isNormalizedBigintView right)
  if left.nDigits < right.nDigits then
    bigintBitwiseOrdered operation right left
  else
    bigintBitwiseOrdered operation left right

def bigintAnd (left right : ConstBigIntView) : Option IntValue :=
  bigintBitwise bigIntAndOperation left right

def bigintXor (left right : ConstBigIntView) : Option IntValue :=
  bigintBitwise bigIntXorOperation left right

def bigintOr (left right : ConstBigIntView) : Option IntValue :=
  bigintBitwise bigIntOrOperation left right

theorem not_zero_eq_allOnes : (~~~0 : Digit) = BitVec.allOnes 32 := by decide

theorem toNat_xor_allOnes (d : Digit) :
    (d ^^^ ~~~0).toNat = 2 ^ 32 - 1 - d.toNat := by
  rw [not_zero_eq_allOnes, BitVec.xor_allOnes, BitVec.toNat_not]

/-- The digits and the carry hold the complement and what was carried in. -/
theorem complementLoop_spec (src : List Digit) :
    ∀ carry, carry ≤ 1 → ∃ digits carryOut,
      complementLoop src carry = some (digits, carryOut) ∧
      digits.length = src.length ∧
      value digits + (2 ^ 32) ^ src.length * carryOut + value src + 1 =
        (2 ^ 32) ^ src.length + carry := by
  induction src with
  | nil =>
      intro carry _
      exact ⟨[], carry, rfl, rfl, by simp; omega⟩
  | cons d src ih =>
      intro carry hCarry
      have hDigit := d.isLt
      generalize hSum : (d ^^^ ~~~0).toNat + carry = sum
      have hBound : sum ≤ 2 ^ 32 - d.toNat := by
        rw [toNat_xor_allOnes] at hSum
        omega
      have hSplit := toDigit_add_carry sum
      have hNext : sum >>> kDigitBits ≤ 1 := by
        rw [kDigitBits, Nat.shiftRight_eq_div_pow]
        omega
      obtain ⟨digits, carryOut, hRun, hLength, hValue⟩ := ih _ hNext
      refine ⟨toDigit sum :: digits, carryOut, ?_, by simp [hLength], ?_⟩
      · rw [complementLoop, hSum, doubleDigit_eq_some (by omega)]
        exact bind_of_eq_some hRun _
      · rw [toNat_xor_allOnes] at hSum
        have hUnit := base_pow_succ_mul 32 src.length 1
        rw [Nat.mul_one, Nat.mul_one] at hUnit
        rw [value_cons, value_cons, List.length_cons, base_pow_succ_mul,
          hUnit]
        omega

/-- The complement of a number that is not zero. -/
theorem bigintDigitsComplementInto_spec {src : List Digit}
    (hPos : 0 < value src) :
    ∃ digits, bigintDigitsComplementInto src = some digits ∧
      digits.length = src.length ∧
      value digits + value src = (2 ^ 32) ^ src.length := by
  obtain ⟨digits, carry, hRun, hLength, hValue⟩ :=
    complementLoop_spec src 1 le_rfl
  have hZero : carry = 0 := by
    by_contra hCarry
    have hWide : (2 ^ 32) ^ src.length ≤ (2 ^ 32) ^ src.length * carry :=
      Nat.le_mul_of_pos_right _ (Nat.pos_of_ne_zero hCarry)
    omega
  subst hZero
  refine ⟨digits, ?_, hLength, by omega⟩
  unfold bigintDigitsComplementInto
  refine (bind_of_eq_some hRun _).trans ?_
  exact check_bind (p := (0 : Nat) = 0) rfl _

/-- An operand's digits and sign hold it in two's complement. -/
theorem complementIfNegative_spec {view : ConstBigIntView} {n : Int}
    (h : Denotes view n) :
    ∃ digits, complementIfNegative view = some digits ∧
      digits.length = view.nDigits ∧
      signedValue (view.signum < 0) digits = n := by
  unfold complementIfNegative
  by_cases hSign : view.signum < 0
  · have hNeg : n < 0 := by
      rw [h.signum] at hSign
      exact Int.sign_neg_iff.mp hSign
    have hMagnitude : value view.digits = n.natAbs := h.magnitude
    have hNonzero : 0 < value view.digits := by omega
    obtain ⟨digits, hRun, hLength, hValue⟩ :=
      bigintDigitsComplementInto_spec hNonzero
    refine ⟨digits, (if_pos hSign).trans hRun, hLength, ?_⟩
    rw [decide_eq_true hSign, signedValue_true, hLength, ← hValue]
    push_cast
    omega
  · have hNonneg : 0 ≤ n := by
      rw [h.signum] at hSign
      exact Int.sign_nonneg_iff.mp (Int.not_lt.mp hSign)
    have hMagnitude : value view.digits = n.natAbs := h.magnitude
    refine ⟨view.digits, if_neg hSign, rfl, ?_⟩
    rw [decide_eq_false hSign, signedValue_false]
    omega

/-- The outcome's view holds the integer of its digits and sign. -/
theorem bitwiseResult_spec (negative : Bool) (digits : List Digit) :
    ∃ view, bitwiseResult negative digits = some view ∧
      Denotes view (signedValue negative digits) := by
  cases negative
  · obtain ⟨view, hRun, -, hDenotes⟩ := normalize_positive digits
    exact ⟨view, hRun, hDenotes⟩
  · have hBound := value_lt digits
    have hOnes : (~~~0 : Digit).toNat = 2 ^ 32 - 1 := by decide
    have hExtended : value (digits ++ [~~~0]) + (2 ^ 32) ^ digits.length =
        value digits + (2 ^ 32) ^ (digits ++ [(~~~0 : Digit)]).length := by
      rw [value_append, value_cons, value_nil, List.length_append,
        List.length_singleton, Nat.pow_succ, hOnes]
      omega
    have hNonzero : 0 < value (digits ++ [~~~0]) := by
      rw [value_append, value_cons, value_nil, hOnes]
      positivity
    obtain ⟨complemented, hRun, hLength, hValue⟩ :=
      bigintDigitsComplementInto_spec hNonzero
    have hMagnitude : value complemented + value digits =
        (2 ^ 32) ^ digits.length := by omega
    have hPos : 0 < value complemented := by omega
    obtain ⟨normalized, hNormalize, -, hDenotes⟩ :=
      normalize_positive complemented
    have hSome : normalized.nDigits ≠ 0 := hDenotes.nDigits_pos hPos |>.ne'
    have hResult := hDenotes.withSignum hPos (Or.inl rfl)
    refine ⟨{ normalized with signum := -1 }, ?_, ?_⟩
    · unfold bitwiseResult
      rw [if_pos rfl]
      refine (bind_of_eq_some hRun _).trans ?_
      refine (bind_of_eq_some hNormalize _).trans ?_
      rw [if_neg hSome]
    · have hSigned : signedValue true digits = -1 * (value complemented : Int) := by
        rw [signedValue_true, ← hMagnitude]
        push_cast
        ring
      rw [hSigned]
      exact hResult

/-! ## The operations -/

theorem testBit_zero (i : Nat) : (0 : Int).testBit i = false :=
  Nat.zero_testBit i

/-- The outcome has the operation's bits, at every place. -/
def YieldsBits (bit : Bool → Bool → Bool) (outcome : Option IntValue)
    (a b : Int) : Prop :=
  ∃ v, outcome = some v ∧ v.Canonical ∧
    ∀ i, v.toInt.testBit i = bit (a.testBit i) (b.testBit i)

/-- What makes an operation one on bits: its digits and its sign do the same
on every bit, and the operands may be exchanged. -/
structure BigIntOperation.Bitwise (operation : BigIntOperation)
    (bit : Bool → Bool → Bool) : Prop where
  sign : operation.resultNegative = bit
  pointwise : Pointwise bit operation.apply operation.tail
  comm : ∀ l r, bit l r = bit r l
  zero : bit false false = false

theorem bigIntAndOperation_bitwise : bigIntAndOperation.Bitwise and where
  sign := rfl
  pointwise :=
    { apply_bit := fun l r i _ => BitVec.getLsbD_and
      tail_bit := fun d negative i _ => by
        cases negative <;> simp [bigIntAndOperation] }
  comm := Bool.and_comm
  zero := rfl

theorem bigIntXorOperation_bitwise : bigIntXorOperation.Bitwise bne where
  sign := rfl
  pointwise :=
    { apply_bit := fun l r i _ => BitVec.getLsbD_xor
      tail_bit := fun d negative i hi => by
        cases negative
        · simp [bigIntXorOperation]
        · simp only [bigIntXorOperation, if_true, not_zero_eq_allOnes]
          rw [BitVec.getLsbD_xor, BitVec.getLsbD_allOnes]
          simp only [hi, decide_true, Bool.bne_true] }
  comm := by decide
  zero := rfl

theorem bigIntOrOperation_bitwise : bigIntOrOperation.Bitwise or where
  sign := rfl
  pointwise :=
    { apply_bit := fun l r i _ => BitVec.getLsbD_or
      tail_bit := fun d negative i hi => by
        cases negative
        · simp [bigIntOrOperation]
        · simp only [bigIntOrOperation, if_true, not_zero_eq_allOnes]
          rw [BitVec.getLsbD_allOnes]
          simp only [hi, decide_true, Bool.or_true] }
  comm := Bool.or_comm
  zero := rfl

section Bitwise

variable {operation : BigIntOperation} {bit : Bool → Bool → Bool}
  {left right : ConstBigIntView} {a b : Int}

theorem bigintBitwiseOrdered_yields (h : operation.Bitwise bit)
    (hl : Denotes left a) (hr : Denotes right b)
    (hLength : right.nDigits ≤ left.nDigits) :
    YieldsBits bit (bigintBitwiseOrdered operation left right) a b := by
  obtain ⟨leftDigits, hLeftRun, hLeftLength, hLeft⟩ :=
    complementIfNegative_spec hl
  obtain ⟨rightDigits, hRightRun, hRightLength, hRight⟩ :=
    complementIfNegative_spec hr
  unfold bigintBitwiseOrdered
  rw [bind_of_eq_some hLeftRun, bind_of_eq_some hRightRun]
  by_cases hEmpty : left.nDigits = 0
  · have ha : a = 0 :=
      hl.digits_eq_nil_iff.mp (List.length_eq_zero_iff.mp hEmpty)
    have hb : b = 0 := hr.digits_eq_nil_iff.mp
      (List.length_eq_zero_iff.mp (Nat.le_zero.mp (hEmpty ▸ hLength)))
    obtain ⟨v, hRun, hCanonical, hv⟩ := finalizeBigint_yields denotes_zero
    refine ⟨v, (if_pos hEmpty).trans hRun, hCanonical, fun i => ?_⟩
    rw [hv, ha, hb, testBit_zero, h.zero]
  · have hLonger : rightDigits.length ≤ leftDigits.length := by omega
    have hBits := h.pointwise.testBit_extendWith (left.signum < 0)
      (right.signum < 0) hLonger
    rw [hLeft, hRight, ← h.sign] at hBits
    obtain ⟨result, hResultRun, hResult⟩ := bitwiseResult_spec
      (operation.resultNegative (left.signum < 0) (right.signum < 0))
      (extendWith operation.apply operation.tail (right.signum < 0)
        leftDigits rightDigits)
    obtain ⟨v, hRun, hCanonical, hv⟩ := finalizeBigint_yields hResult
    refine ⟨v, ?_, hCanonical, fun i => ?_⟩
    · rw [if_neg hEmpty]
      refine (bind_of_eq_some hResultRun _).trans ?_
      exact (check_normalized hResult.normalized _).trans hRun
    · rw [hv, hBits, h.sign]

/-- A digitwise operation works on every bit of the two's complement
expansions. -/
theorem bigintBitwise_yields (h : operation.Bitwise bit)
    (hl : Denotes left a) (hr : Denotes right b) :
    YieldsBits bit (bigintBitwise operation left right) a b := by
  unfold bigintBitwise
  rw [check_normalized hl.normalized, check_normalized hr.normalized]
  by_cases hSwap : left.nDigits < right.nDigits
  · rw [if_pos hSwap]
    obtain ⟨v, hRun, hCanonical, hBits⟩ :=
      bigintBitwiseOrdered_yields h hr hl hSwap.le
    exact ⟨v, hRun, hCanonical, fun i => (hBits i).trans (h.comm _ _)⟩
  · rw [if_neg hSwap]
    exact bigintBitwiseOrdered_yields h hl hr (Nat.not_lt.mp hSwap)

end Bitwise

/-- The operations on any two integers yield the canonical value of the
bitwise operation on their two's complement expansions. -/
theorem bigint_bitwise_exact {left right : ConstBigIntView}
    (hl : Normalized left) (hr : Normalized right) :
    YieldsBits and (bigintAnd left right) left.toInt right.toInt ∧
    YieldsBits bne (bigintXor left right) left.toInt right.toInt ∧
    YieldsBits or (bigintOr left right) left.toInt right.toInt :=
  ⟨bigintBitwise_yields bigIntAndOperation_bitwise (denotes_self hl)
      (denotes_self hr),
    bigintBitwise_yields bigIntXorOperation_bitwise (denotes_self hl)
      (denotes_self hr),
    bigintBitwise_yields bigIntOrOperation_bitwise (denotes_self hl)
      (denotes_self hr)⟩

/-- A negative power of the digit base and a shorter negative operand. -/
theorem bigint_bitwise_exact_at_digit_base :
    YieldsBits and (bigintAnd ⟨-1, [0, 1]⟩ ⟨-1, [5]⟩) (-(2 ^ 32)) (-5) := by
  have hl : Normalized ⟨-1, [0, 1]⟩ :=
    (isNormalizedBigintView_iff _).mp (by decide)
  have hr : Normalized ⟨-1, [5]⟩ :=
    (isNormalizedBigintView_iff _).mp (by decide)
  exact (bigint_bitwise_exact hl hr).1

end CloverVM.BuiltinTypes.BigInt
