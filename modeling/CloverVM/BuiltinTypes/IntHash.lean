import CloverVM.BuiltinTypes.BigIntShift
import CloverVM.Machine.MersenneFold

/-!
# Hashes of integers

The hash of an integer object is its magnitude modulo `2 ^ 58 - 1` under its
sign, computed digit by digit from the top.  What a `__hash__` method returns
is made canonical: a boolean is its number, an integer object is reduced, and
minus one, which marks an error, becomes minus two.  The handler that the call
site trusts for small integers and booleans skips the call.
-/

namespace CloverVM.BuiltinTypes.BigInt

open CloverVM.Machine CloverVM.Machine.Digits CloverVM.Machine.MersenneFold
open CloverVM.ObjectModel CloverVM.Runtime

def cloverHashModulusBits : Nat := 64 - valueTagBits - 1

def cloverHashModulus : Nat := 2 ^ cloverHashModulusBits - 1

/-- The loop of the reduction, from the top digit down. -/
def hashModulusLoop : List Digit → Option Nat
  | [] => some 0
  | d :: digits => do
      let magnitudeMod ← hashModulusLoop digits
      let low := magnitudeMod &&&
        ((1 <<< (cloverHashModulusBits - kDigitBits)) - 1)
      let high := magnitudeMod >>> (cloverHashModulusBits - kDigitBits)
      let shifted ← doubleDigit (low <<< kDigitBits)
      let folded ← doubleDigit (shifted + high)
      let appended ← doubleDigit (folded + d.toNat)
      some (if appended ≥ cloverHashModulus then appended - cloverHashModulus
        else appended)

def bigintHashModulus (view : ConstBigIntView) : Option Nat := do
  check (isNormalizedBigintView view)
  hashModulusLoop view.digits

def bigintHash (view : ConstBigIntView) : Option Value := do
  check (isNormalizedBigintView view)
  match ← normalizedBigintViewToSmiIfFits view with
  | some smi => some smi
  | none => do
      let magnitudeMod ← bigintHashModulus view
      let hash := BitVec.ofNat 64 magnitudeMod
      some (Value.fromSmi (if view.signum < 0 then -hash else hash))

def remapHashSentinel (hash : BitVec 64) : Value :=
  Value.fromSmi (if hash = -1 then -2 else hash)

def valueNotSmiOrBooleanMask : BitVec 64 := valueNotSmiMask &&& ~~~valueBooleanTag

def isBool (value : Value) : Bool :=
  value.integer &&& valueNotSmiMask == valueBooleanTag

/-- The words of `True` and `False`. -/
def fromBool (value : Bool) : Value :=
  ⟨if value then valueBooleanTag ||| (1#64 <<< valueTagBits)
    else valueBooleanTag⟩

/-- A value as the hashes tell values apart: a word without a pointer, an
integer object, or another object. -/
inductive HashOperand where
  | inline (value : Value)
  | bigInt (bigint : ConstBigIntView)
  | other
deriving DecidableEq, Repr

def hashNotIntegerError : BuiltinException :=
  { typeName := "TypeError"
    message := "__hash__ method should return an integer" }

def canonicalizeHashResult :
    HashOperand → Option (Except BuiltinException Value)
  | .inline value =>
      if isBool value then
        some (.ok ⟨value.integer &&& valueBooleanToIntegerMask⟩)
      else if value.isSmi then some (.ok (remapHashSentinel value.getSmi))
      else some (.error hashNotIntegerError)
  | .bigInt bigint => do
      let hash ← bigintHash bigint
      some (.ok (remapHashSentinel hash.getSmi))
  | .other => some (.error hashNotIntegerError)

def isSmiOrBoolValue (value : Value) : Bool :=
  value.integer &&& valueNotSmiOrBooleanMask == 0

def smiOrBoolAsInt (value : Value) : Option (BitVec 64) := do
  check (isSmiOrBoolValue value)
  let integerValue : Value := ⟨value.integer &&& valueBooleanToIntegerMask⟩
  check integerValue.isSmi
  some integerValue.getSmi

def trustedSmiOrBoolHash (value : Value) : Option Value := do
  let hash ← smiOrBoolAsInt value
  some (Value.fromSmi (if hash = -1 then -2 else hash))

theorem hashModulus_word {m : Nat} (hm : m < 2 ^ 58 - 1) (d : Digit) :
    fold 58 32 m d.toNat < 2 ^ 64 := by
  have hFold := fold_lt (by decide) hm d.isLt
  omega

/-- The loop computes the residue of the digits, and no word wraps. -/
theorem hashModulusLoop_spec (digits : List Digit) :
    hashModulusLoop digits = some (value digits % cloverHashModulus) := by
  induction digits with
  | nil => rfl
  | cons d digits ih =>
      have hBits : cloverHashModulusBits = 58 := rfl
      have hModulus : cloverHashModulus = 2 ^ 58 - 1 := rfl
      generalize hm : value digits % cloverHashModulus = m at ih
      have hSmall : m < 2 ^ 58 - 1 := by
        rw [← hm, hModulus]
        exact Nat.mod_lt _ (by decide)
      have hWord := hashModulus_word hSmall d
      rw [fold] at hWord
      have hLow : (m &&& ((1 <<< (58 - 32)) - 1)) <<< 32 =
          2 ^ 32 * (m % 2 ^ (58 - 32)) := by
        rw [Nat.shiftLeft_eq, Nat.one_shiftLeft,
          Nat.and_two_pow_sub_one_eq_mod, Nat.mul_comm]
      have hResidue := residue_append (by decide) hSmall d.isLt
      rw [hashModulusLoop]
      refine (bind_of_eq_some ih _).trans ?_
      simp only [hBits, kDigitBits, hLow, Nat.shiftRight_eq_div_pow]
      refine (bind_of_eq_some (doubleDigit_eq_some (by omega)) _).trans ?_
      refine (bind_of_eq_some (doubleDigit_eq_some (by omega)) _).trans ?_
      refine (bind_of_eq_some (doubleDigit_eq_some hWord) _).trans ?_
      rw [← fold, hModulus, hResidue, value_cons, ← hm, hModulus,
        Nat.add_comm d.toNat, Nat.add_mod, Nat.mul_mod_mod, ← Nat.add_mod]

/-- The reduction of a view. -/
theorem bigintHashModulus_eq {view : ConstBigIntView} (h : Normalized view) :
    bigintHashModulus view = some (view.magnitude % cloverHashModulus) := by
  unfold bigintHashModulus
  rw [check_normalized h]
  exact hashModulusLoop_spec view.digits

/-- The residue under a sign is a small integer. -/
theorem smiRange_sign_mul_residue (n : Int) (a : Nat) :
    SmiRange (n.sign * (a % cloverHashModulus : Nat)) := by
  have hResidue : a % cloverHashModulus < 2 ^ 58 - 1 :=
    Nat.mod_lt _ (by decide)
  simp only [SmiRange, valueSmiMin, valueSmiMax]
  rcases Int.sign_trichotomy n with hSign | hSign | hSign
  · rw [hSign, Int.one_mul]
    omega
  · rw [hSign, Int.zero_mul]
    omega
  · rw [hSign, Int.neg_one_mul]
    omega

/-- The hash of an object outside the small integers. -/
theorem bigintHash_eq {view : ConstBigIntView} {n : Int} (h : Denotes view n)
    (hRange : ¬ SmiRange n) :
    bigintHash view =
      some (Value.ofInt (n.sign * (n.natAbs % cloverHashModulus : Nat))) := by
  have hFits := normalizedBigintViewToSmiIfFits_eq h
  rw [if_neg hRange] at hFits
  unfold bigintHash
  rw [check_normalized h.normalized]
  refine (bind_of_eq_some hFits _).trans ?_
  refine (bind_of_eq_some (bigintHashModulus_eq h.normalized) _).trans ?_
  rw [h.magnitude, h.signum]
  generalize n.natAbs % cloverHashModulus = residue
  have hne : n ≠ 0 := by
    rintro rfl
    exact hRange (by decide)
  rcases Int.lt_or_gt_of_ne hne with hNegative | hPositive
  · rw [Int.sign_eq_neg_one_of_neg hNegative, Int.neg_one_mul, Value.ofInt,
      BitVec.ofInt_neg, BitVec.ofInt_natCast]
    rfl
  · rw [Int.sign_eq_one_of_pos hPositive, Int.one_mul, Value.ofInt,
      BitVec.ofInt_natCast]
    rfl

/-- Every object has a hash, which is a small integer. -/
theorem bigintHash_isSmi {view : ConstBigIntView} (h : Normalized view) :
    ∃ a, bigintHash view = some (Value.ofInt a) ∧ SmiRange a := by
  have hDenotes := denotes_self h
  by_cases hRange : SmiRange view.toInt
  · have hFits := normalizedBigintViewToSmiIfFits_eq hDenotes
    rw [if_pos hRange] at hFits
    refine ⟨view.toInt, ?_, hRange⟩
    unfold bigintHash
    rw [check_normalized h]
    exact bind_of_eq_some hFits _
  · exact ⟨_, bigintHash_eq hDenotes hRange, smiRange_sign_mul_residue _ _⟩

/-! ## The canonical hash -/

/-- The remapped hash is a small integer other than minus one. -/
theorem remapHashSentinel_ofInt {a : Int} (h : SmiRange a) :
    remapHashSentinel (Value.ofInt a).getSmi =
      Value.ofInt (if a = -1 then -2 else a) := by
  have hWord : BitVec.ofInt 64 a = -1 ↔ a = -1 := by
    constructor
    · intro hEq
      rw [← ofInt_toInt_of_smiRange h, hEq]
      rfl
    · rintro rfl
      rfl
  rw [getSmi_ofInt h, remapHashSentinel]
  simp only [hWord]
  split
  · rfl
  · rfl

/-- The operand of a hash that is an integer, and its number before it is
reduced: a boolean, a small integer or an integer object. -/
inductive IntOperand : HashOperand → Prop
  | bool (b : Bool) : IntOperand (.inline (fromBool b))
  | smi {value : Value} (hSmi : value.isSmi = true) :
      IntOperand (.inline value)
  | bigInt {bigint : ConstBigIntView} (hBigInt : Normalized bigint) :
      IntOperand (.bigInt bigint)

/-- The words that the trusted handler takes. -/
inductive SmiOrBool : Value → Int → Prop
  | bool (b : Bool) : SmiOrBool (fromBool b) (if b then 1 else 0)
  | smi {value : Value} (hSmi : value.isSmi = true) :
      SmiOrBool value value.smi

theorem isBool_eq_false_of_isSmi {value : Value} (h : value.isSmi = true) :
    isBool value = false := by
  have hTag : value.integer &&& valueNotSmiMask = 0#64 := by
    simpa [Value.isSmi] using h
  rw [isBool, hTag]
  rfl

theorem canonicalizeHashResult_smiOrBool {value : Value} {a : Int}
    (h : SmiOrBool value a) :
    canonicalizeHashResult (.inline value) =
      some (.ok (Value.ofInt (if a = -1 then -2 else a))) := by
  cases h with
  | bool b => cases b <;> rfl
  | smi hSmi =>
      have hRemap := remapHashSentinel_ofInt (smiRange_smi value)
      rw [ofInt_smi hSmi] at hRemap
      rw [canonicalizeHashResult, isBool_eq_false_of_isSmi hSmi, hSmi, hRemap]
      rfl

/-- The hash of an integer is a small integer other than minus one. -/
theorem canonicalizeHashResult_spec {operand : HashOperand}
    (h : IntOperand operand) :
    ∃ a, canonicalizeHashResult operand = some (.ok (Value.ofInt a)) ∧
      SmiRange a ∧ a ≠ -1 := by
  have hRemapped : ∀ a, SmiRange a →
      SmiRange (if a = -1 then -2 else a) ∧
        (if a = -1 then -2 else a) ≠ -1 := by
    intro a hRange
    split
    · exact ⟨by decide, by decide⟩
    · exact ⟨hRange, ‹_›⟩
  cases h with
  | bool b =>
      refine ⟨_, canonicalizeHashResult_smiOrBool (.bool b), hRemapped _ ?_⟩
      cases b <;> decide
  | smi hSmi =>
      exact ⟨_, canonicalizeHashResult_smiOrBool (.smi hSmi),
        hRemapped _ (smiRange_smi _)⟩
  | bigInt hBigInt =>
      obtain ⟨a, hHash, hRange⟩ := bigintHash_isSmi hBigInt
      refine ⟨_, ?_, hRemapped a hRange⟩
      rw [canonicalizeHashResult, ← remapHashSentinel_ofInt hRange]
      exact bind_of_eq_some hHash _

theorem and_not_of_and_eq_zero {x y : BitVec 64} (h : x &&& y = 0#64) :
    x &&& ~~~y = x := by
  ext i hi
  have hBit := congrArg (fun z : BitVec 64 => z[i]) h
  simp only [BitVec.getElem_and, BitVec.getElem_zero] at hBit
  simp only [BitVec.getElem_and, BitVec.getElem_not]
  cases hx : x[i] with
  | false => rfl
  | true => simpa [hx] using hBit

/-- The handler reads the number of its operand. -/
theorem smiOrBoolAsInt_spec {value : Value} {a : Int}
    (h : SmiOrBool value a) :
    smiOrBoolAsInt value = some (BitVec.ofInt 64 a) := by
  cases h with
  | bool b => cases b <;> rfl
  | smi hSmi =>
      have hTag : value.integer &&& valueNotSmiMask = 0#64 := by
        simpa [Value.isSmi] using hSmi
      have hKind : isSmiOrBoolValue value = true := by
        rw [isSmiOrBoolValue, valueNotSmiOrBooleanMask, ← BitVec.and_assoc,
          hTag]
        rfl
      have hBoolean : value.integer &&& valueBooleanTag = 0#64 := by
        have hPart : valueNotSmiMask &&& valueBooleanTag = valueBooleanTag :=
          rfl
        rw [← hPart, ← BitVec.and_assoc, hTag]
        rfl
      have hWord : value.integer &&& valueBooleanToIntegerMask =
          value.integer := and_not_of_and_eq_zero hBoolean
      have hPayload : value.getSmi = BitVec.ofInt 64 value.smi := by
        rw [← getSmi_ofInt (smiRange_smi value), ofInt_smi hSmi]
      unfold smiOrBoolAsInt
      rw [check_bind hKind, hWord, ← hPayload]
      exact check_bind hSmi _

/-- The trusted handler gives the hash that the method would. -/
theorem trustedSmiOrBoolHash_spec {value : Value} {a : Int}
    (h : SmiOrBool value a) :
    trustedSmiOrBoolHash value =
      some (Value.ofInt (if a = -1 then -2 else a)) := by
  have hRange : SmiRange a := by
    cases h with
    | bool b => cases b <;> decide
    | smi hSmi => exact smiRange_smi value
  have hRemap := remapHashSentinel_ofInt hRange
  rw [getSmi_ofInt hRange] at hRemap
  rw [← hRemap]
  exact bind_of_eq_some (smiOrBoolAsInt_spec h) _

/-- The reduction is the residue of the magnitude, the hash of an object is
the residue under its sign, no integer has the hash minus one, and the trusted
handler agrees. -/
theorem int_hash_exact :
    (∀ view, Normalized view → ¬ SmiRange view.toInt →
      bigintHashModulus view = some (view.toInt.natAbs % (2 ^ 58 - 1)) ∧
      ∃ hash, bigintHash view = some hash ∧ hash.isSmi = true ∧
        hash.smi =
          view.toInt.sign * (view.toInt.natAbs % (2 ^ 58 - 1) : Nat)) ∧
    (∀ operand, IntOperand operand →
      ∃ hash, canonicalizeHashResult operand = some (.ok hash) ∧
        hash.isSmi = true ∧ hash.smi ≠ -1) ∧
    (∀ value a, SmiOrBool value a →
      ∃ hash, trustedSmiOrBoolHash value = some hash ∧
        canonicalizeHashResult (.inline value) = some (.ok hash)) := by
  refine ⟨?_, ?_, ?_⟩
  · intro view hView hRange
    have hModulus := bigintHashModulus_eq hView
    rw [hView.magnitude_eq_natAbs] at hModulus
    refine ⟨hModulus, _, bigintHash_eq (denotes_self hView) hRange,
      isSmi_ofInt _, ?_⟩
    exact smi_ofInt (smiRange_sign_mul_residue _ _)
  · intro operand hOperand
    obtain ⟨a, hHash, hRange, hne⟩ := canonicalizeHashResult_spec hOperand
    refine ⟨_, hHash, isSmi_ofInt a, ?_⟩
    rw [smi_ofInt hRange]
    exact hne
  · intro value a h
    exact ⟨_, trustedSmiOrBoolHash_spec h, canonicalizeHashResult_smiOrBool h⟩

theorem int_hash_exact_two_pow_64 :
    ∃ hash, bigintHash ⟨-1, [0, 0, 1]⟩ = some hash ∧ hash.isSmi = true ∧
      hash.smi = -64 := by
  have hView : Normalized ⟨-1, [0, 0, 1]⟩ :=
    (isNormalizedBigintView_iff _).mp (by decide)
  have hNumber : ConstBigIntView.toInt ⟨-1, [0, 0, 1]⟩ = -2 ^ 64 := by
    decide +kernel
  have hRange : ¬ SmiRange (ConstBigIntView.toInt ⟨-1, [0, 0, 1]⟩) := by
    rw [hNumber]
    decide
  obtain ⟨hash, hRun, hSmi, hHash⟩ := (int_hash_exact.1 _ hView hRange).2
  rw [hNumber] at hHash
  exact ⟨hash, hRun, hSmi, hHash.trans (by decide)⟩

end CloverVM.BuiltinTypes.BigInt
