import CloverVM.BuiltinTypes.BigIntView
import CloverVM.Runtime.BuiltinException

/-!
# Arguments that are indices

Slices and the searches of strings and bytes take indices that may be `None`,
a bool or an integer, and work on them as small integers: an integer that does
not fit one is an `OverflowError`, and an argument that is no integer an error
of the caller.
-/

namespace CloverVM.BuiltinTypes

open CloverVM.Machine CloverVM.ObjectModel CloverVM.Runtime
open CloverVM.BuiltinTypes.BigInt

/-- An argument, as far as the conversion to an index looks at it. -/
inductive IndexValue where
  | none
  | boolean (value : Bool)
  | integer (value : IntValue)
  | other
deriving DecidableEq

def IndexValue.isNone : IndexValue → Bool
  | .none => true
  | _ => false

/-- `bigint_to_smi`. -/
def bigintToSmi (view : ConstBigIntView) :
    Option (Except BuiltinException Int) := do
  check (isNormalizedBigintView view)
  match ← normalizedBigintViewToSmiIfFits view with
  | some smi => some (.ok smi.smi)
  | none => some (.error overflowError)

/-- `try_intlike_value_to_smi`, and the exception raised for its `NotInt`. -/
def requireSmi (notInt : BuiltinException) :
    IndexValue → Option (Except BuiltinException Int)
  | .boolean value => some (.ok (if value then 1 else 0))
  | .integer (.smi value) => some (.ok value.smi)
  | .integer (.bigInt object) => bigintToSmi object
  | .none | .other => some (.error notInt)

/-- An argument that is `None`, a bool or an integer of any size. -/
inductive Integral : IndexValue → Option Int → Prop
  | omitted : Integral .none none
  | boolean (value : Bool) :
      Integral (.boolean value) (some (if value then 1 else 0))
  | smi (value : Value) : Integral (.integer (.smi value)) (some value.smi)
  | bigInt {object : ConstBigIntView} (h : Normalized object) :
      Integral (.integer (.bigInt object)) (some object.toInt)

theorem Integral.isNone_eq_false {value : IndexValue} {i : Int}
    (h : Integral value (some i)) : value.isNone = false := by
  cases h <;> rfl

theorem Integral.isNone_iff {value : IndexValue} {i : Option Int}
    (h : Integral value i) : value.isNone = true ↔ i = none := by
  cases h <;> simp [IndexValue.isNone]

/-- An integer is itself when it fits, and an `OverflowError` when not. -/
theorem requireSmi_spec (notInt : BuiltinException) {value : IndexValue}
    {i : Int} (h : Integral value (some i)) :
    requireSmi notInt value =
      some (if SmiRange i then .ok i else .error overflowError) := by
  cases h with
  | boolean value => cases value <;> rfl
  | smi value =>
      rw [if_pos (smiRange_smi value)]
      rfl
  | @bigInt object hNormalized =>
      have hFits :=
        normalizedBigintViewToSmiIfFits_eq (denotes_self hNormalized)
      show bigintToSmi object = _
      rw [bigintToSmi, check_normalized hNormalized, bind_of_eq_some hFits]
      by_cases hRange : SmiRange object.toInt
      · rw [if_pos hRange, if_pos hRange]
        show some (Except.ok (Value.ofInt object.toInt).smi) = _
        rw [smi_ofInt hRange]
      · rw [if_neg hRange, if_neg hRange]

end CloverVM.BuiltinTypes
