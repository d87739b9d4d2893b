import CloverVM.BuiltinTypes.BigInt
import CloverVM.Runtime.BuiltinException

/-!
# Integer division

Floor division and modulo of `builtin_types/bigint.cpp`.  A divisor of one
digit is divided by directly; for a longer one both numbers are shifted until
the top bit of the divisor is set, the quotient is found digit by digit from
estimates over the leading digits, and the remainder is shifted back.  The
dividend is reduced in place: a step takes the whole buffer and returns it.
-/

namespace CloverVM.BuiltinTypes.BigInt

open CloverVM.Machine CloverVM.Machine.Digits CloverVM.Runtime

def absBigintView (view : ConstBigIntView) : Option ConstBigIntView := do
  check (isNormalizedBigintView view)
  some (unsignedView view.digits)

/-- The loop from the top digit down: the quotient's digits and the
remainder. -/
def divmodU32Loop (divisor : Nat) : List Digit → Option (List Digit × Nat)
  | [] => some ([], 0)
  | d :: dividend => do
      let (quotient, remainder) ← divmodU32Loop divisor dividend
      let accumulator ← doubleDigit (remainder <<< kDigitBits ||| d.toNat)
      some (toDigit (accumulator / divisor) :: quotient, accumulator % divisor)

def divmodAbsByU32 (capacity : Nat) (dividend : ConstBigIntView)
    (divisor : Digit) : Option (ConstBigIntView × Digit) := do
  check (isNormalizedBigintView dividend)
  check (divisor ≠ 0)
  check (dividend.signum = 0 ∨ dividend.signum = 1)
  check (dividend.nDigits ≤ capacity)
  let (digits, remainder) ← divmodU32Loop divisor.toNat dividend.digits
  let quotient ← normalizeBigintView (unsignedView digits)
  some (quotient, toDigit remainder)

def mulDigitLoop (right : Digit) : List Digit → Nat →
    Option (List Digit × Nat)
  | [], carry => some ([], carry)
  | l :: left, carry => do
      let product ← doubleDigit (l.toNat * right.toNat + carry)
      let (digits, carryOut) ← mulDigitLoop right left (product >>> kDigitBits)
      some (toDigit product :: digits, carryOut)

def bigintAbsMulDigitInto (capacity : Nat) (left : ConstBigIntView)
    (right : Digit) : Option ConstBigIntView := do
  check (isNormalizedBigintView left)
  check (left.signum = 0 ∨ left.signum = 1)
  check (left.nDigits + 1 ≤ capacity)
  if left.signum = 0 ∨ right = 0 then
    some ⟨0, []⟩
  else
    let (digits, carry) ← mulDigitLoop right left.digits 0
    let dest : ConstBigIntView :=
      ⟨1, if carry ≠ 0 then digits ++ [toDigit carry] else digits⟩
    check (isNormalizedBigintView dest)
    some dest

/-- The digits left in the buffer of `left`, as many as there were. -/
def bigintAbsSubAliasLeft (left right : ConstBigIntView) :
    Option (List Digit) := do
  check (isNormalizedBigintView left)
  check (isNormalizedBigintView right)
  check (left.signum = 0 ∨ left.signum = 1)
  check (right.signum = 0 ∨ right.signum = 1)
  let order ← compareBigintAbs left right
  check (order ≥ 0)
  let (digits, borrow) ← absSubLoop left.digits right.digits 0
  check (borrow = 0)
  let _ ← normalizeBigintView ⟨left.signum, digits⟩
  some digits

def shiftLeftLoop (intraDigitShift : Nat) : List Digit → Digit →
    List Digit × Digit
  | [], carry => ([], carry)
  | digit :: src, carry =>
      let (digits, carryOut) := shiftLeftLoop intraDigitShift src
        (digit >>> (kDigitBits - intraDigitShift))
      ((digit <<< intraDigitShift ||| carry) :: digits, carryOut)

def bigintShiftLeftInto (capacity : Nat) (src : ConstBigIntView)
    (shiftAmount : Nat) : Option ConstBigIntView := do
  check (isNormalizedBigintView src)
  if src.signum = 0 then
    some ⟨0, []⟩
  else
    let wholeDigits := shiftAmount / kDigitBits
    check (wholeDigits ≤ 2 ^ 64 - 1 - src.nDigits - 1)
    let intraDigitShift := shiftAmount % kDigitBits
    check (src.nDigits + wholeDigits + 1 ≤ capacity)
    let zeros := List.replicate wholeDigits 0
    if intraDigitShift = 0 then
      some ⟨src.signum, zeros ++ src.digits⟩
    else
      let (digits, carry) := shiftLeftLoop intraDigitShift src.digits 0
      let dest : ConstBigIntView := ⟨src.signum, zeros ++
        if carry ≠ 0 then digits ++ [carry] else digits⟩
      check (isNormalizedBigintView dest)
      some dest

/-- The loop from the top digit down: the digits and the bits handed to the
digit below. -/
def shiftRightLoop (intraDigitShift : Nat) : List Digit →
    List Digit × Digit
  | [] => ([], 0)
  | digit :: src =>
      let (digits, carry) := shiftRightLoop intraDigitShift src
      ((digit >>> intraDigitShift ||| carry) :: digits,
        digit <<< (kDigitBits - intraDigitShift))

def bigintShiftRightAbsInto (capacity : Nat) (src : ConstBigIntView)
    (shiftAmount : Nat) : Option ConstBigIntView := do
  check (isNormalizedBigintView src)
  check (src.signum = 0 ∨ src.signum = 1)
  let wholeDigits := shiftAmount / kDigitBits
  if src.signum = 0 ∨ wholeDigits ≥ src.nDigits then
    some ⟨0, []⟩
  else
    let intraDigitShift := shiftAmount % kDigitBits
    check (src.nDigits - wholeDigits ≤ capacity)
    let kept := src.digits.drop wholeDigits
    normalizeBigintView ⟨1,
      if intraDigitShift = 0 then kept
      else (shiftRightLoop intraDigitShift kept).1⟩

/-! ## Long division -/

/-- The test that an estimate is too great, over the leading digits. -/
def estimateTooBig (divisorNext next qHat rHat : Nat) : Option Bool :=
  if qHat = kDigitBase then some true
  else do
    let left ← doubleDigit (qHat * divisorNext)
    let right ← doubleDigit (kDigitBase * rHat + next)
    some (decide (left > right))

/-- The loop that lowers the estimate `q_hat`, with its remainder `r_hat`. -/
def correctEstimate (divisorHigh divisorNext next : Nat) :
    Nat → Nat → Option Nat
  | 0, rHat => do
      let tooBig ← estimateTooBig divisorNext next 0 rHat
      if tooBig then none else some 0
  | qHat + 1, rHat => do
      let tooBig ← estimateTooBig divisorNext next (qHat + 1) rHat
      if tooBig then
        let rHat ← doubleDigit (rHat + divisorHigh)
        if rHat ≥ kDigitBase then some qHat
        else correctEstimate divisorHigh divisorNext next qHat rHat
      else some (qHat + 1)

/-- The loop that multiplies back and lowers the estimate until the product
can be taken from the segment; the quotient digit and the product. -/
def reduceEstimate (divisor segment : ConstBigIntView) :
    Nat → Option (Nat × ConstBigIntView)
  | 0 => do
      let product ← bigintAbsMulDigitInto (divisor.nDigits + 1) divisor
        (toDigit 0)
      let order ← compareBigintAbs segment product
      if order < 0 then none else some (0, product)
  | qHat + 1 => do
      let product ← bigintAbsMulDigitInto (divisor.nDigits + 1) divisor
        (toDigit (qHat + 1))
      let order ← compareBigintAbs segment product
      if order < 0 then reduceEstimate divisor segment qHat
      else some (qHat + 1, product)

/-- One round of the division loop at place `j`: the digit of the quotient
and the dividend it leaves. -/
def quotientStep (divisor : ConstBigIntView) (dividend : List Digit)
    (j : Nat) : Option (Digit × List Digit) := do
  let n := divisor.nDigits
  let divisorHigh := (divisor.digits.getD (n - 1) 0).toNat
  let divisorNext :=
    (if n ≥ 2 then divisor.digits.getD (n - 2) 0 else 0).toNat
  check (j + n < dividend.length)
  let highPair := ((dividend.getD (j + n) 0).toNat <<< kDigitBits) |||
    (dividend.getD (j + n - 1) 0).toNat
  let next := (if j + n ≥ 2 then dividend.getD (j + n - 2) 0 else 0).toNat
  let qHat ← correctEstimate divisorHigh divisorNext next
    (highPair / divisorHigh) (highPair % divisorHigh)
  let segment ← normalizeBigintView ⟨1, (dividend.drop j).take (n + 1)⟩
  let (digit, product) ← reduceEstimate divisor segment qHat
  let difference ← bigintAbsSubAliasLeft segment product
  some (toDigit digit,
    dividend.take j ++ difference ++ dividend.drop (j + segment.nDigits))

/-- The rounds from place `count - 1` down to place zero: the digits of the
quotient and the dividend that is left. -/
def quotientLoop (divisor : ConstBigIntView) :
    Nat → List Digit → Option (List Digit × List Digit)
  | 0, dividend => some ([], dividend)
  | j + 1, dividend => do
      let (digit, dividend) ← quotientStep divisor dividend j
      let (low, dividend) ← quotientLoop divisor j dividend
      some (low ++ [digit], dividend)

/-- The quotient and the remainder; both buffers have to hold what is written
to them. -/
def bigintAbsDivmodNormalizedInto (quotientCapacity remainderCapacity : Nat)
    (dividend divisor : ConstBigIntView) :
    Option (ConstBigIntView × ConstBigIntView) := do
  check (isNormalizedBigintView divisor)
  check (divisor.signum = 1)
  check (dividend.signum = 1)
  check (divisor.nDigits < dividend.nDigits)
  check (divisor.digits.getD (divisor.nDigits - 1) 0 &&& (1 <<< 31) ≠ 0)
  let m := dividend.nDigits - divisor.nDigits - 1
  check (m + 1 ≤ quotientCapacity)
  let (digits, rest) ← quotientLoop divisor (m + 1) dividend.digits
  let quotient ← normalizeBigintView (unsignedView digits)
  let remainder ← normalizeBigintView ⟨dividend.signum, rest⟩
  check (remainder.nDigits ≤ remainderCapacity)
  some (quotient, remainder)

/-- The bits above the top bit of a digit. -/
def countlZero (d : Digit) : Nat := d.clz.toNat

/-- The shifted dividend, with one digit more than the dividend. -/
def padDividend (capacity : Nat) (dividend shifted : ConstBigIntView) :
    Option ConstBigIntView :=
  if shifted.nDigits = dividend.nDigits then do
    check (shifted.nDigits < capacity)
    some { shifted with digits := shifted.digits ++ [0] }
  else some shifted

/-- The branch for a divisor of two digits or more. -/
def bigintAbsDivmodLong (quotientCapacity remainderCapacity : Nat)
    (dividend divisor : ConstBigIntView) :
    Option (ConstBigIntView × ConstBigIntView) := do
  let high := divisor.digits.getD (divisor.nDigits - 1) 0
  check (high ≠ 0)
  let normalizationShift := countlZero high
  let shifted ← bigintShiftLeftInto (dividend.nDigits + 1) dividend
    normalizationShift
  let normalizedDivisor ← bigintShiftLeftInto (divisor.nDigits + 1) divisor
    normalizationShift
  let normalizedDividend ← padDividend (dividend.nDigits + 1) dividend shifted
  let (quotient, normalizedRemainder) ← bigintAbsDivmodNormalizedInto
    quotientCapacity (divisor.nDigits + 1) normalizedDividend
    normalizedDivisor
  let remainder ← bigintShiftRightAbsInto remainderCapacity
    normalizedRemainder normalizationShift
  some (quotient, remainder)

/-- The branch for a divisor of one digit. -/
def bigintAbsDivmodShort (quotientCapacity remainderCapacity : Nat)
    (dividend divisor : ConstBigIntView) :
    Option (ConstBigIntView × ConstBigIntView) := do
  let (quotient, remainder) ← divmodAbsByU32 quotientCapacity dividend
    (divisor.digits.getD 0 0)
  if remainder = 0 then
    some (quotient, ⟨0, []⟩)
  else
    check (1 ≤ remainderCapacity)
    some (quotient, ⟨1, [remainder]⟩)

def bigintAbsDivmodInto (quotientCapacity remainderCapacity : Nat)
    (dividend divisor : ConstBigIntView) :
    Option (ConstBigIntView × ConstBigIntView) := do
  check (isNormalizedBigintView dividend)
  check (isNormalizedBigintView divisor)
  check (dividend.signum = 0 ∨ dividend.signum = 1)
  check (divisor.signum = 1)
  let order ← (if dividend.signum = 0 then some (-1)
    else compareBigintAbs dividend divisor)
  if order < 0 then
    let remainder ← copyBigintView remainderCapacity dividend
    some (⟨0, []⟩, remainder)
  else if divisor.nDigits = 1 then
    bigintAbsDivmodShort quotientCapacity remainderCapacity dividend divisor
  else
    bigintAbsDivmodLong quotientCapacity remainderCapacity dividend divisor

/-! ## Floor division -/

/-- The quotient rounded down: one more in magnitude when the signs differ
and the division leaves a remainder. -/
def adjustQuotient (capacity : Nat) (quotientSign : Int)
    (quotient remainder : ConstBigIntView) : Option ConstBigIntView := do
  let result ← (if remainder.signum ≠ 0 ∧ quotientSign < 0 then
      bigintAbsAddInto capacity quotient oneView
    else some quotient)
  some (if result.nDigits ≠ 0 then { result with signum := quotientSign }
    else result)

/-- The remainder with the sign of the divisor. -/
def adjustRemainder (capacity : Nat) (left right rightAbs
    remainder : ConstBigIntView) : Option ConstBigIntView := do
  let result ← (if remainder.signum ≠ 0 ∧ left.signum ≠ right.signum then
      bigintAbsSubInto capacity rightAbs remainder
    else some remainder)
  some (if result.nDigits ≠ 0 then { result with signum := right.signum }
    else result)

/-- The capacities of the buffers that floor division works in. -/
structure DivmodCapacities where
  quotient : Nat
  remainder : Nat
  adjustedQuotient : Nat
  adjustedRemainder : Nat

/-- The quotient and the remainder, over buffers of any capacities. -/
def bigintFloorDivmodViewsInto (capacities : DivmodCapacities)
    (left right : ConstBigIntView) :
    Option (ConstBigIntView × ConstBigIntView) := do
  check (isNormalizedBigintView left)
  check (isNormalizedBigintView right)
  check (right.signum ≠ 0)
  let leftAbs ← absBigintView left
  let rightAbs ← absBigintView right
  let (quotient, remainder) ← bigintAbsDivmodInto capacities.quotient
    capacities.remainder leftAbs rightAbs
  let quotientSign := left.signum * right.signum
  let quotientResult ← adjustQuotient capacities.adjustedQuotient
    quotientSign quotient remainder
  let remainderResult ← adjustRemainder capacities.adjustedRemainder left
    right rightAbs remainder
  some (quotientResult, remainderResult)

/-- The quotient and the remainder, over buffers of the capacities that `//` and
`%` give them. -/
def bigintFloorDivmodViews (left right : ConstBigIntView) :
    Option (ConstBigIntView × ConstBigIntView) :=
  bigintFloorDivmodViewsInto
    { quotient := left.nDigits
      remainder := max left.nDigits 1
      adjustedQuotient := left.nDigits + 1
      adjustedRemainder := right.nDigits } left right

def bigintFloorDiv (left right : ConstBigIntView) :
    Option (Except BuiltinException IntValue) := do
  if right.signum = 0 then
    some (.error zeroDivisionError)
  else
    let (quotient, _) ← bigintFloorDivmodViews left right
    let result ← finalizeBigint quotient
    some (.ok result)

def bigintMod (left right : ConstBigIntView) :
    Option (Except BuiltinException IntValue) := do
  if right.signum = 0 then
    some (.error zeroDivisionError)
  else
    let (_, remainder) ← bigintFloorDivmodViews left right
    let result ← finalizeBigint remainder
    some (.ok result)

end CloverVM.BuiltinTypes.BigInt
