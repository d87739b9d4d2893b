import CloverVM.Machine.Assertion
import CloverVM.Machine.Digits
import CloverVM.ObjectModel.Value

/-!
# Arbitrary-precision integers

The `int` objects of `builtin_types/bigint.cpp`: sign-and-magnitude numbers
whose magnitude is a string of 32-bit digits, the least significant first.
The arithmetic runs over views into digit buffers.  A view is its sign and
its digits, and a function that fills a buffer is given the capacity of the
buffer and returns the view it leaves there.

A function that asserts is an `Option`, with `none` where an assertion
fails, an index is out of bounds or a 64-bit intermediate wraps.
-/

namespace CloverVM.BuiltinTypes.BigInt

open CloverVM.Machine CloverVM.Machine.Digits CloverVM.ObjectModel

/-- `digit_t`. -/
abbrev Digit := BitVec 32

def kDigitBits : Nat := 32

def kDigitBase : Nat := 2 ^ 32

/-- `static_cast<digit_t>`. -/
def toDigit (n : Nat) : Digit := BitVec.ofNat 32 n

/-- A `double_digit_t` result; `none` when it wraps. -/
def doubleDigit (n : Nat) : Option Nat := do
  check (n < 2 ^ 64)
  some n

/-- A view of a number; `n_digits` is the length of its digits. -/
structure ConstBigIntView where
  signum : Int
  digits : List Digit
deriving DecidableEq, Repr

namespace ConstBigIntView

def nDigits (view : ConstBigIntView) : Nat := view.digits.length

/-- The absolute value of the number. -/
def magnitude (view : ConstBigIntView) : Nat := value view.digits

/-- The integer the view denotes. -/
def toInt (view : ConstBigIntView) : Int := view.signum * view.magnitude

end ConstBigIntView

def isNormalizedBigintView (view : ConstBigIntView) : Bool :=
  if view.nDigits = 0 then view.signum == 0
  else if view.signum != -1 && view.signum != 1 then false
  else view.digits.getLast? != some 0

def normalizeBigintView (view : ConstBigIntView) : Option ConstBigIntView :=
  let digits := trim view.digits
  if digits.length = 0 then some ⟨0, digits⟩
  else do
    check (view.signum = -1 ∨ view.signum = 1)
    some ⟨view.signum, digits⟩

/-! ## Small integers -/

/-- The magnitude of an SMI as it is computed before the digits are cut. -/
def smiMagnitude (decoded : Int) : Nat :=
  if decoded < 0 then (-(decoded + 1)).toNat + 1 else decoded.toNat

/-- The view of an SMI, over its two digits of storage. -/
def smiBigintView (decoded : Int) : Option ConstBigIntView := do
  check (valueSmiMin ≤ decoded)
  check (decoded ≤ valueSmiMax)
  let signum : Int := if decoded < 0 then -1 else if 0 < decoded then 1 else 0
  let magnitude ← doubleDigit (smiMagnitude decoded)
  let digit0 := toDigit magnitude
  let digit1 := toDigit (magnitude >>> kDigitBits)
  some ⟨signum,
    if digit1 ≠ 0 then [digit0, digit1]
    else if digit0 ≠ 0 then [digit0]
    else []⟩

def magnitudeToDoubleDigitUnchecked (view : ConstBigIntView) :
    Option Nat := do
  check (view.nDigits ≤ 2)
  some ((view.digits.getD 0 0).toNat |||
    ((view.digits.getD 1 0).toNat <<< kDigitBits))

/-- The SMI of a view, when it fits one. -/
def normalizedBigintViewToSmiIfFits (view : ConstBigIntView) :
    Option (Option Value) := do
  check (isNormalizedBigintView view)
  check (view.signum = 0 ∨ view.signum = -1 ∨ view.signum = 1)
  if view.signum = 0 then
    some (some (Value.ofInt 0))
  else if view.nDigits > 2 then
    some none
  else
    let magnitude ← magnitudeToDoubleDigitUnchecked view
    if view.signum > 0 then
      if magnitude > valueSmiMax.toNat then some none
      else some (some (Value.ofInt magnitude))
    else
      if magnitude > (-(valueSmiMin + 1)).toNat + 1 then some none
      else some (some (Value.ofInt (-magnitude)))

/-- An `int` value: an SMI word, or a `BigInt` object with its sign and
digits. -/
inductive IntValue where
  | smi (value : Value)
  | bigInt (object : ConstBigIntView)
deriving DecidableEq, Repr

/-- The value of a finished view; the digits are copied into the object. -/
def finalizeBigint (view : ConstBigIntView) : Option IntValue := do
  check (isNormalizedBigintView view)
  match ← normalizedBigintViewToSmiIfFits view with
  | some smi => some (.smi smi)
  | none => some (.bigInt view)

def exactIntValueBigintView : IntValue → Option ConstBigIntView
  | .smi value => smiBigintView value.smi
  | .bigInt object => some object

/-- The comparison loop, from the top digit down, over equally many
digits. -/
def compareDigits : List Digit → List Digit → Int
  | l :: left, r :: right =>
      let higher := compareDigits left right
      if higher ≠ 0 then higher
      else if l ≠ r then (if l < r then -1 else 1)
      else 0
  | _, _ => 0

def compareBigintAbs (left right : ConstBigIntView) : Option Int := do
  check (isNormalizedBigintView left)
  check (isNormalizedBigintView right)
  if left.nDigits ≠ right.nDigits then
    some (if left.nDigits < right.nDigits then -1 else 1)
  else
    some (compareDigits left.digits right.digits)

def compareBigint (left right : ConstBigIntView) : Option Int := do
  check (isNormalizedBigintView left)
  check (isNormalizedBigintView right)
  if left.signum ≠ right.signum then
    some (if left.signum < right.signum then -1 else 1)
  else if left.signum = 0 then
    some 0
  else
    let absCompare ← compareBigintAbs left right
    some (if left.signum > 0 then absCompare else -absCompare)

/-! ## Addition and subtraction -/

/-- The view with its sign set to zero or one, as magnitudes carry it. -/
def unsignedView (digits : List Digit) : ConstBigIntView :=
  ⟨if digits.length = 0 then 0 else 1, digits⟩

def copyBigintView (capacity : Nat) (src : ConstBigIntView) :
    Option ConstBigIntView := do
  check (isNormalizedBigintView src)
  check (src.nDigits ≤ capacity)
  some src

/-- `count` rounds of the addition loop; a digit past the end reads as
zero. -/
def absAddLoop : Nat → List Digit → List Digit → Nat →
    Option (List Digit × Nat)
  | 0, _, _, carry => some ([], carry)
  | count + 1, left, right, carry => do
      let sum ← doubleDigit
        ((left.headD 0).toNat + (right.headD 0).toNat + carry)
      let (digits, carryOut) ←
        absAddLoop count left.tail right.tail (sum >>> kDigitBits)
      some (toDigit sum :: digits, carryOut)

def bigintAbsAddInto (capacity : Nat) (left right : ConstBigIntView) :
    Option ConstBigIntView := do
  check (isNormalizedBigintView left)
  check (isNormalizedBigintView right)
  let maxDigits := max left.nDigits right.nDigits
  check (maxDigits + 1 ≤ capacity)
  let (digits, carry) ← absAddLoop maxDigits left.digits right.digits 0
  let dest := unsignedView
    (if carry ≠ 0 then digits ++ [toDigit carry] else digits)
  check (isNormalizedBigintView dest)
  some dest

/-- The subtraction loop over the digits of `left`. -/
def absSubLoop : List Digit → List Digit → Nat → Option (List Digit × Nat)
  | [], _, borrow => some ([], borrow)
  | l :: left, right, borrow => do
      let subtrahend ← doubleDigit ((right.headD 0).toNat + borrow)
      if l.toNat < subtrahend then
        let minuend ← doubleDigit (kDigitBase + l.toNat)
        check (subtrahend ≤ minuend)
        let (digits, borrowOut) ← absSubLoop left right.tail 1
        some (toDigit (minuend - subtrahend) :: digits, borrowOut)
      else
        let (digits, borrowOut) ← absSubLoop left right.tail 0
        some (toDigit (l.toNat - subtrahend) :: digits, borrowOut)

def bigintAbsSubInto (capacity : Nat) (left right : ConstBigIntView) :
    Option ConstBigIntView := do
  check (isNormalizedBigintView left)
  check (isNormalizedBigintView right)
  let order ← compareBigintAbs left right
  check (order ≥ 0)
  check (left.nDigits ≤ capacity)
  let (digits, borrow) ← absSubLoop left.digits right.digits 0
  check (borrow = 0)
  normalizeBigintView (unsignedView digits)

/-- The branches of `bigint_add_into`, each of which fills the buffer. -/
def bigintAddBranches (capacity : Nat) (left right : ConstBigIntView) :
    Option ConstBigIntView :=
  if left.signum = 0 then copyBigintView capacity right
  else if right.signum = 0 then copyBigintView capacity left
  else if left.signum = right.signum then do
    let sum ← bigintAbsAddInto capacity left right
    some { sum with signum := left.signum }
  else do
    let absCompare ← compareBigintAbs left right
    if absCompare = 0 then some ⟨0, []⟩
    else if absCompare > 0 then do
      let difference ← bigintAbsSubInto capacity left right
      some { difference with signum := left.signum }
    else do
      let difference ← bigintAbsSubInto capacity right left
      some { difference with signum := right.signum }

def bigintAddInto (capacity : Nat) (left right : ConstBigIntView) :
    Option ConstBigIntView := do
  check (isNormalizedBigintView left)
  check (isNormalizedBigintView right)
  let dest ← bigintAddBranches capacity left right
  check (isNormalizedBigintView dest)
  some dest

/-- The view with the opposite sign. -/
def ConstBigIntView.negated (view : ConstBigIntView) : ConstBigIntView :=
  { view with signum := -view.signum }

def bigintSubInto (capacity : Nat) (left right : ConstBigIntView) :
    Option ConstBigIntView := do
  check (isNormalizedBigintView right)
  bigintAddInto capacity left right.negated

/-- One row of the product, added into the buffer from the row's first place
on; the last carry is stored behind the row. -/
def mulRow (leftDigit : Digit) : List Digit → List Digit → Nat →
    Option (List Digit)
  | [], _ :: dest, carry => some (toDigit carry :: dest)
  | r :: right, d :: dest, carry => do
      let product ← doubleDigit (leftDigit.toNat * r.toNat + d.toNat + carry)
      let rest ← mulRow leftDigit right dest (product >>> kDigitBits)
      some (toDigit product :: rest)
  | _, [], _ => none

/-- The rows one after the other; a row starts one place above the one
before it and leaves the places below alone. -/
def mulLoop (right : List Digit) : List Digit → List Digit →
    Option (List Digit)
  | [], dest => some dest
  | l :: left, dest => do
      match ← mulRow l right dest 0 with
      | [] => none
      | d :: rest => do
          let high ← mulLoop right left rest
          some (d :: high)

def bigintMulInto (capacity : Nat) (left right : ConstBigIntView) :
    Option ConstBigIntView := do
  check (isNormalizedBigintView left)
  check (isNormalizedBigintView right)
  if left.signum = 0 ∨ right.signum = 0 then
    some ⟨0, []⟩
  else
    let resultCapacity := left.nDigits + right.nDigits
    check (resultCapacity ≤ capacity)
    let digits ←
      mulLoop right.digits left.digits (List.replicate resultCapacity 0)
    normalizeBigintView ⟨left.signum * right.signum, digits⟩

def bigintNegate (view : ConstBigIntView) : Option IntValue := do
  check (isNormalizedBigintView view)
  finalizeBigint view.negated

def bigintAdd (left right : ConstBigIntView) : Option IntValue := do
  let dest ← bigintAddInto (max left.nDigits right.nDigits + 1) left right
  finalizeBigint dest

def bigintSub (left right : ConstBigIntView) : Option IntValue := do
  let dest ← bigintSubInto (max left.nDigits right.nDigits + 1) left right
  finalizeBigint dest

def bigintMul (left right : ConstBigIntView) : Option IntValue := do
  let dest ← bigintMulInto (left.nDigits + right.nDigits) left right
  finalizeBigint dest

/-- The view of the number one. -/
def oneView : ConstBigIntView := ⟨1, [1]⟩

def bigintInvert (view : ConstBigIntView) : Option IntValue := do
  check (isNormalizedBigintView view)
  let dest ← bigintAddInto (max view.nDigits 1 + 1) view oneView
  finalizeBigint (if dest.nDigits ≠ 0 then dest.negated else dest)

end CloverVM.BuiltinTypes.BigInt
