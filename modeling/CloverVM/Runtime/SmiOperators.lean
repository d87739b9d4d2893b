import CloverVM.ObjectModel.Value
import CloverVM.Runtime.BuiltinException

/-!
# Operator instructions with an inline SMI path

The operator instructions of `runtime/interpreter.cpp` that compute on tagged
words before they consult the operator dispatch tables.  Each is a function
from the accumulator and the frame registers to a step: it completes, raises,
or tail-calls its dispatch handler with the registers as it left them.

An overflowing addition, subtraction or negation has already written the
wrapped word to the accumulator when the overflow is noticed, so the operand
that was there has to be recovered before the dispatch handler runs.  How it
is recovered differs per instruction and is part of the model.
-/

namespace CloverVM.Runtime.SmiOperators

open CloverVM.ObjectModel
open CloverVM.Machine

/-- The accumulator and the frame registers an operand byte can name. -/
structure Registers where
  accumulator : Value
  fp : BitVec 8 → Value

/-- What an operator instruction does: complete, raise, or tail-call its
dispatch handler. -/
inductive Step where
  | complete (s : Registers)
  | raised (e : BuiltinException)
  | dispatch (s : Registers)

inductive BinaryOperator where
  | add | sub | mul | floordiv | mod | lshift | rshift | and | or | xor
deriving DecidableEq, Repr

inductive UnaryOperator where
  | negate | plus | invert
deriving DecidableEq, Repr

/-- An operator instruction with its operand byte.  The register form takes
the left operand from the frame and the right one from the accumulator; the
immediate form takes the left one from the accumulator. -/
inductive Instruction where
  | binaryReg (op : BinaryOperator) (reg : BitVec 8)
  | binarySmi (op : BinaryOperator) (imm : BitVec 8)
  | unary (op : UnaryOperator)
deriving DecidableEq, Repr

def aNotSmi (a : Value) : Bool := !(a.integer &&& valueNotSmiMask == 0#64)

def aOrBNotSmi (a b : Value) : Bool :=
  !((a.integer ||| b.integer) &&& valueNotSmiMask == 0#64)

/-- The value of an immediate operand byte. -/
def immediate (imm : BitVec 8) : Value := Value.fromSmi (imm.signExtend 64)

def opAdd (reg : BitVec 8) (s : Registers) : Step :=
  let a := s.fp reg
  let b := s.accumulator
  if aOrBNotSmi a b then .dispatch s
  else
    let sum := a.integer + b.integer
    if BitVec.saddOverflow a.integer b.integer then
      .dispatch { s with accumulator := ⟨sum - a.integer⟩ }
    else .complete { s with accumulator := ⟨sum⟩ }

def opAddSmi (imm : BitVec 8) (s : Registers) : Step :=
  let a := s.accumulator
  let b := immediate imm
  if aNotSmi a then .dispatch s
  else
    let sum := a.integer + b.integer
    if BitVec.saddOverflow a.integer b.integer then
      .dispatch { s with accumulator := ⟨sum - b.integer⟩ }
    else .complete { s with accumulator := ⟨sum⟩ }

/-- The undo adds the left operand to the wrapped difference; the accumulator
held the right one. -/
def opSub (reg : BitVec 8) (s : Registers) : Step :=
  let a := s.fp reg
  let b := s.accumulator
  if aOrBNotSmi a b then .dispatch s
  else
    let difference := a.integer - b.integer
    if BitVec.ssubOverflow a.integer b.integer then
      .dispatch { s with accumulator := ⟨difference + a.integer⟩ }
    else .complete { s with accumulator := ⟨difference⟩ }

def opSubSmi (imm : BitVec 8) (s : Registers) : Step :=
  let a := s.accumulator
  let b := immediate imm
  if aNotSmi a then .dispatch s
  else
    let difference := a.integer - b.integer
    if BitVec.ssubOverflow a.integer b.integer then
      .dispatch { s with accumulator := ⟨difference + b.integer⟩ }
    else .complete { s with accumulator := ⟨difference⟩ }

/-- The product goes to a separate destination, so nothing is undone. -/
def opMul (reg : BitVec 8) (s : Registers) : Step :=
  let a := s.fp reg
  let b := s.accumulator
  if aOrBNotSmi a b then .dispatch s
  else if BitVec.smulOverflow a.integer b.getSmi then .dispatch s
  else .complete { s with accumulator := ⟨a.integer * b.getSmi⟩ }

def opMulSmi (imm : BitVec 8) (s : Registers) : Step :=
  let a := s.accumulator
  let b := immediate imm
  if aNotSmi a then .dispatch s
  else if BitVec.smulOverflow a.integer b.getSmi then .dispatch s
  else .complete { s with accumulator := ⟨a.integer * b.getSmi⟩ }

/-- Floor division from the machine's truncating one. -/
def floorDivSmiValues (left right : BitVec 64) : BitVec 64 :=
  let quotient := left.sdiv right
  let remainder := left.srem right
  if remainder ≠ 0#64 ∧ (remainder.toInt < 0) ≠ (right.toInt < 0) then
    quotient - 1#64
  else quotient

def moduloSmiValues (left right : BitVec 64) : BitVec 64 :=
  let remainder := left.srem right
  if remainder ≠ 0#64 ∧ (remainder.toInt < 0) ≠ (right.toInt < 0) then
    remainder + right
  else remainder

/-- The inline path shared by both forms of floor division.  The only
quotient that is no SMI is `valueSmiMin / -1`. -/
def floordivSmiPath (a b : Value) (s : Registers) : Step :=
  let leftInt := a.getSmi
  let rightInt := b.getSmi
  if rightInt = 0#64 then .raised zeroDivisionError
  else
    let quotient := floorDivSmiValues leftInt rightInt
    if quotient = -BitVec.ofInt 64 valueSmiMin then .dispatch s
    else .complete { s with accumulator := Value.fromSmi quotient }

def opFloordiv (reg : BitVec 8) (s : Registers) : Step :=
  let a := s.fp reg
  let b := s.accumulator
  if aOrBNotSmi a b then .dispatch s else floordivSmiPath a b s

def opFloordivSmi (imm : BitVec 8) (s : Registers) : Step :=
  let a := s.accumulator
  let b := immediate imm
  if aNotSmi a then .dispatch s else floordivSmiPath a b s

/-- The inline path shared by both forms of the modulo operator. -/
def modSmiPath (a b : Value) (s : Registers) : Step :=
  let leftInt := a.getSmi
  let rightInt := b.getSmi
  if rightInt = 0#64 then .raised zeroDivisionError
  else
    .complete
      { s with
        accumulator := Value.fromSmi (moduloSmiValues leftInt rightInt) }

def opMod (reg : BitVec 8) (s : Registers) : Step :=
  let a := s.fp reg
  let b := s.accumulator
  if aOrBNotSmi a b then .dispatch s else modSmiPath a b s

def opModSmi (imm : BitVec 8) (s : Registers) : Step :=
  let a := s.accumulator
  let b := immediate imm
  if aNotSmi a then .dispatch s else modSmiPath a b s

/-! ## Shifts -/

/-- The number of bits below the sign bit that repeat it. -/
def countRedundantSignBits (value : BitVec 64) : Int :=
  let magnitudeBits := if value.toInt < 0 then ~~~value else value
  (magnitudeBits.clz.toNat : Int) - 1

def opLshift (reg : BitVec 8) (s : Registers) : Step :=
  let a := s.fp reg
  let b := s.accumulator
  if aOrBNotSmi a b then .dispatch s
  else
    let shiftCount := b.getSmi
    if shiftCount.toInt < 0 then .raised valueErrorNegativeShiftCount
    else
      let value := a.getSmi
      let signBits := countRedundantSignBits value
      if shiftCount.toNat ≥ 64 ∨
          (value ≠ 0#64 ∧ shiftCount.toInt + valueTagBits > signBits) then
        .dispatch s
      else .complete { s with accumulator := ⟨a.integer <<< shiftCount⟩ }

/-- The generator emits this form for shift counts from 0 to 63 only, so the
count is not checked again. -/
def opLshiftSmi (imm : BitVec 8) (s : Registers) : Step :=
  let a := s.accumulator
  let b := immediate imm
  if aNotSmi a then .dispatch s
  else
    let shiftCount := b.getSmi
    let value := a.getSmi
    let signBits := countRedundantSignBits value
    if value ≠ 0#64 ∧ shiftCount.toInt + valueTagBits > signBits then
      .dispatch s
    else .complete { s with accumulator := ⟨a.integer <<< shiftCount⟩ }

/-- The inline path shared by both forms of the right shift. -/
def rshiftSmiPath (a b : Value) (s : Registers) : Step :=
  let shiftCount := b.getSmi
  if shiftCount.toInt < 0 then .raised valueErrorNegativeShiftCount
  else if shiftCount.toInt ≥ 64 then
    .complete
      { s with
        accumulator :=
          Value.fromSmi (if a.getSmi.toInt < 0 then -1#64 else 0#64) }
  else
    .complete
      { s with
        accumulator :=
          ⟨a.integer.sshiftRight shiftCount.toNat &&& ~~~valueNotSmiMask⟩ }

def opRshift (reg : BitVec 8) (s : Registers) : Step :=
  let a := s.fp reg
  let b := s.accumulator
  if aOrBNotSmi a b then .dispatch s else rshiftSmiPath a b s

def opRshiftSmi (imm : BitVec 8) (s : Registers) : Step :=
  let a := s.accumulator
  let b := immediate imm
  if aNotSmi a then .dispatch s else rshiftSmiPath a b s

/-- The register form of a bitwise operator on tagged words. -/
def bitwiseReg (op : BitVec 64 → BitVec 64 → BitVec 64) (reg : BitVec 8)
    (s : Registers) : Step :=
  let a := s.fp reg
  let b := s.accumulator
  if aOrBNotSmi a b then .dispatch s
  else .complete { s with accumulator := ⟨op a.integer b.integer⟩ }

/-- The immediate form of a bitwise operator on tagged words. -/
def bitwiseSmi (op : BitVec 64 → BitVec 64 → BitVec 64) (imm : BitVec 8)
    (s : Registers) : Step :=
  let a := s.accumulator
  let b := immediate imm
  if aNotSmi a then .dispatch s
  else .complete { s with accumulator := ⟨op a.integer b.integer⟩ }

def opAnd := bitwiseReg (· &&& ·)
def opAndSmi := bitwiseSmi (· &&& ·)
def opXor := bitwiseReg (· ^^^ ·)
def opXorSmi := bitwiseSmi (· ^^^ ·)
def opOr := bitwiseReg (· ||| ·)
def opOrSmi := bitwiseSmi (· ||| ·)

/-! ## Unary operators -/

def opNegate (s : Registers) : Step :=
  let a := s.accumulator
  if aNotSmi a then .dispatch s
  else
    let negated := 0#64 - a.integer
    if BitVec.ssubOverflow 0#64 a.integer then
      .dispatch { s with accumulator := ⟨-negated⟩ }
    else .complete { s with accumulator := ⟨negated⟩ }

def opPlus (s : Registers) : Step :=
  let a := s.accumulator
  if aNotSmi a then .dispatch s else .complete s

def opInvert (s : Registers) : Step :=
  let a := s.accumulator
  if aNotSmi a then .dispatch s
  else
    .complete { s with accumulator := ⟨~~~a.integer &&& ~~~valueNotSmiMask⟩ }

/-- One operator instruction. -/
def step : Instruction → Registers → Step
  | .binaryReg .add reg => opAdd reg
  | .binaryReg .sub reg => opSub reg
  | .binaryReg .mul reg => opMul reg
  | .binaryReg .floordiv reg => opFloordiv reg
  | .binaryReg .mod reg => opMod reg
  | .binaryReg .lshift reg => opLshift reg
  | .binaryReg .rshift reg => opRshift reg
  | .binaryReg .and reg => opAnd reg
  | .binaryReg .or reg => opOr reg
  | .binaryReg .xor reg => opXor reg
  | .binarySmi .add imm => opAddSmi imm
  | .binarySmi .sub imm => opSubSmi imm
  | .binarySmi .mul imm => opMulSmi imm
  | .binarySmi .floordiv imm => opFloordivSmi imm
  | .binarySmi .mod imm => opModSmi imm
  | .binarySmi .lshift imm => opLshiftSmi imm
  | .binarySmi .rshift imm => opRshiftSmi imm
  | .binarySmi .and imm => opAndSmi imm
  | .binarySmi .or imm => opOrSmi imm
  | .binarySmi .xor imm => opXorSmi imm
  | .unary .negate => opNegate
  | .unary .plus => opPlus
  | .unary .invert => opInvert

/-- The immediate the code generator accepts for an operator's right operand,
when that is a numerical constant. -/
def checkBinaryAccSmiImmediate (op : BinaryOperator) (rhs : Value) :
    Option (BitVec 8) :=
  if !rhs.isSmi8 then none
  else
    let imm := rhs.getSmi.setWidth 8
    if op = .lshift ∧ (imm.toInt < 0 ∨ imm.toInt ≥ 64) then none
    else some imm

/-- The code generator emits the instruction. -/
def Instruction.Emitted : Instruction → Prop
  | .binaryReg _ _ => True
  | .binarySmi op imm => ∃ rhs, checkBinaryAccSmiImmediate op rhs = some imm
  | .unary _ => True

/-- How an integer operator can fail. -/
inductive ArithmeticError where
  | zeroDivision
  | negativeShiftCount
deriving DecidableEq, Repr

def ArithmeticError.exception : ArithmeticError → BuiltinException
  | .zeroDivision => zeroDivisionError
  | .negativeShiftCount => valueErrorNegativeShiftCount

/-- The operators on unbounded integers. -/
def BinaryOperator.exact : BinaryOperator → Int → Int →
    Except ArithmeticError Int
  | .add, a, b => .ok (a + b)
  | .sub, a, b => .ok (a - b)
  | .mul, a, b => .ok (a * b)
  | .floordiv, a, b => if b = 0 then .error .zeroDivision else .ok (a.fdiv b)
  | .mod, a, b => if b = 0 then .error .zeroDivision else .ok (a.fmod b)
  | .lshift, a, b =>
      if b < 0 then .error .negativeShiftCount else .ok (a * 2 ^ b.toNat)
  | .rshift, a, b =>
      if b < 0 then .error .negativeShiftCount else .ok (a >>> b.toNat)
  | .and, a, b => .ok (Int.land a b)
  | .or, a, b => .ok (Int.lor a b)
  | .xor, a, b => .ok (Int.xor a b)

def UnaryOperator.exact : UnaryOperator → Int → Except ArithmeticError Int
  | .negate, a => .ok (-a)
  | .plus, a => .ok a
  | .invert, a => .ok (-(a + 1))

/-- The exact result of an instruction on the operands in the registers. -/
def Instruction.exact (s : Registers) :
    Instruction → Except ArithmeticError Int
  | .binaryReg op reg => op.exact (s.fp reg).smi s.accumulator.smi
  | .binarySmi op imm => op.exact s.accumulator.smi (immediate imm).smi
  | .unary op => op.exact s.accumulator.smi

/-- The register operands of an instruction are SMIs. -/
def Instruction.SmiOperands (s : Registers) : Instruction → Prop
  | .binaryReg _ reg => (s.fp reg).isSmi = true ∧ s.accumulator.isSmi = true
  | .binarySmi _ _ => s.accumulator.isSmi = true
  | .unary _ => s.accumulator.isSmi = true

/-- A step does what the operator prescribes: it completes with the canonical
word of the exact result, raises the operator's exception, or dispatches with
the registers it was given. -/
def Step.Agrees (s : Registers) (expected : Except ArithmeticError Int) :
    Step → Prop
  | .complete s' =>
      ∃ n, expected = .ok n ∧ SmiRange n ∧ s'.accumulator = Value.ofInt n ∧
        s'.fp = s.fp
  | .raised e => ∃ err, expected = .error err ∧ e = err.exception
  | .dispatch s' => s'.accumulator = s.accumulator ∧ s'.fp = s.fp

section Words

variable {a b : Int}

@[simp] theorem aNotSmi_ofInt (a : Int) : aNotSmi (Value.ofInt a) = false := by
  have h := isSmi_ofInt a
  rw [Value.isSmi] at h
  rw [aNotSmi, h]
  rfl

@[simp] theorem aOrBNotSmi_ofInt (a b : Int) :
    aOrBNotSmi (Value.ofInt a) (Value.ofInt b) = false := by
  rw [aOrBNotSmi, ofInt_integer, ofInt_integer, ← tagMask_eq_valueNotSmiMask,
    Fixnum.or_and_tagMask]
  rfl

theorem immediate_eq_ofInt (imm : BitVec 8) :
    immediate imm = Value.ofInt imm.toInt := rfl

theorem smiRange_immediate (imm : BitVec 8) : SmiRange imm.toInt := by
  have hLow := BitVec.le_toInt imm
  have hHigh := BitVec.toInt_lt (x := imm)
  simp only [SmiRange, valueSmiMin, valueSmiMax]
  constructor
  · omega
  · omega

theorem saddOverflow_ofInt (ha : SmiRange a) (hb : SmiRange b) :
    BitVec.saddOverflow (Value.ofInt a).integer (Value.ofInt b).integer =
      !decide (SmiRange (a + b)) := by
  rw [ofInt_integer, ofInt_integer,
    Fixnum.saddOverflow_encode (by decide) ((fits_iff_smiRange a).mpr ha)
      ((fits_iff_smiRange b).mpr hb)]
  simp only [fits_iff_smiRange]

theorem ssubOverflow_ofInt (ha : SmiRange a) (hb : SmiRange b) :
    BitVec.ssubOverflow (Value.ofInt a).integer (Value.ofInt b).integer =
      !decide (SmiRange (a - b)) := by
  rw [ofInt_integer, ofInt_integer,
    Fixnum.ssubOverflow_encode (by decide) ((fits_iff_smiRange a).mpr ha)
      ((fits_iff_smiRange b).mpr hb)]
  simp only [fits_iff_smiRange]

theorem smulOverflow_ofInt (ha : SmiRange a) (hb : SmiRange b) :
    BitVec.smulOverflow (Value.ofInt a).integer (Value.ofInt b).getSmi =
      !decide (SmiRange (a * b)) := by
  rw [getSmi_ofInt hb, ofInt_integer,
    Fixnum.smulOverflow_encode (by decide) ((fits_iff_smiRange a).mpr ha)
      (ofInt_toInt_of_smiRange hb)]
  simp only [fits_iff_smiRange]

theorem add_ofInt (a b : Int) :
    (⟨(Value.ofInt a).integer + (Value.ofInt b).integer⟩ : Value) =
      Value.ofInt (a + b) :=
  congrArg Value.mk (Fixnum.add_encode a b)

theorem sub_ofInt (a b : Int) :
    (⟨(Value.ofInt a).integer - (Value.ofInt b).integer⟩ : Value) =
      Value.ofInt (a - b) :=
  congrArg Value.mk (Fixnum.sub_encode a b)

theorem mul_ofInt (a : Int) (hb : SmiRange b) :
    (⟨(Value.ofInt a).integer * (Value.ofInt b).getSmi⟩ : Value) =
      Value.ofInt (a * b) := by
  rw [getSmi_ofInt hb]
  exact congrArg Value.mk (Fixnum.mul_encode a b)

end Words

/-! ## One path at a time

`a` and `b` are the operands; each lemma says what one inline path does with
their canonical words. -/

section Paths

variable {s : Registers} {a b : Int}

/-- A checked operation agrees with the operator exactly when an overflow
puts back the accumulator it found. -/
theorem agrees_checked_iff {n : Int} {overflow : Bool} {word undone : Value}
    (hFlag : overflow = !decide (SmiRange n)) (hWord : word = Value.ofInt n) :
    Step.Agrees s (.ok n)
        (if overflow then .dispatch { s with accumulator := undone }
          else .complete { s with accumulator := word }) ↔
      (overflow = true → undone = s.accumulator) := by
  cases overflow with
  | true => simp [Step.Agrees]
  | false =>
      have hRange : SmiRange n := by simpa using hFlag
      simp [Step.Agrees, hRange, hWord]

theorem opAdd_agrees {reg : BitVec 8} (ha : SmiRange a) (hb : SmiRange b)
    (hLeft : s.fp reg = Value.ofInt a)
    (hRight : s.accumulator = Value.ofInt b) :
    Step.Agrees s (.ok (a + b)) (opAdd reg s) := by
  simp only [opAdd, hLeft, hRight, aOrBNotSmi_ofInt, Bool.false_eq_true,
    if_false]
  refine (agrees_checked_iff (saddOverflow_ofInt ha hb)
    (add_ofInt a b)).mpr fun _ => ?_
  rw [hRight, BitVec.add_comm, BitVec.add_sub_cancel]

theorem opAddSmi_agrees {imm : BitVec 8} (ha : SmiRange a)
    (hLeft : s.accumulator = Value.ofInt a) :
    Step.Agrees s (.ok (a + imm.toInt)) (opAddSmi imm s) := by
  simp only [opAddSmi, hLeft, immediate_eq_ofInt, aNotSmi_ofInt,
    Bool.false_eq_true, if_false]
  refine (agrees_checked_iff
    (saddOverflow_ofInt ha (smiRange_immediate imm))
    (add_ofInt a imm.toInt)).mpr fun _ => ?_
  rw [hLeft, BitVec.add_sub_cancel]

theorem opSubSmi_agrees {imm : BitVec 8} (ha : SmiRange a)
    (hLeft : s.accumulator = Value.ofInt a) :
    Step.Agrees s (.ok (a - imm.toInt)) (opSubSmi imm s) := by
  simp only [opSubSmi, hLeft, immediate_eq_ofInt, aNotSmi_ofInt,
    Bool.false_eq_true, if_false]
  refine (agrees_checked_iff
    (ssubOverflow_ofInt ha (smiRange_immediate imm))
    (sub_ofInt a imm.toInt)).mpr fun _ => ?_
  rw [hLeft, BitVec.sub_add_cancel]

/-- The undo of `op_sub` leaves `2 * a - b` where `b` was. -/
theorem opSub_undo (a b : Int) :
    (⟨(Value.ofInt a).integer - (Value.ofInt b).integer +
        (Value.ofInt a).integer⟩ : Value) = Value.ofInt (a - b + a) := by
  have hSub := congrArg Value.integer (sub_ofInt a b)
  rw [← add_ofInt, ← hSub]

/-- `op_sub` agrees with subtraction unless the difference leaves the SMI
range by more than one: `-2 ^ 58` and `2 ^ 58` share a word. -/
theorem opSub_agrees_iff {reg : BitVec 8} (ha : SmiRange a) (hb : SmiRange b)
    (hLeft : s.fp reg = Value.ofInt a)
    (hRight : s.accumulator = Value.ofInt b) :
    Step.Agrees s (.ok (a - b)) (opSub reg s) ↔
      -2 ^ 58 ≤ a - b ∧ a - b ≤ 2 ^ 58 := by
  simp only [opSub, hLeft, hRight, aOrBNotSmi_ofInt, Bool.false_eq_true,
    if_false]
  rw [agrees_checked_iff (ssubOverflow_ofInt ha hb) (sub_ofInt a b),
    opSub_undo, hRight, ofInt_eq_ofInt_iff, ssubOverflow_ofInt ha hb]
  simp only [Bool.not_eq_true', decide_eq_false_iff_not]
  simp only [SmiRange, valueSmiMin, valueSmiMax] at ha hb ⊢
  omega

theorem opMul_agrees {reg : BitVec 8} (ha : SmiRange a) (hb : SmiRange b)
    (hLeft : s.fp reg = Value.ofInt a)
    (hRight : s.accumulator = Value.ofInt b) :
    Step.Agrees s (.ok (a * b)) (opMul reg s) := by
  simp only [opMul, hLeft, hRight, aOrBNotSmi_ofInt, Bool.false_eq_true,
    if_false]
  rw [agrees_checked_iff (smulOverflow_ofInt ha hb) (mul_ofInt a hb)]
  exact fun _ => rfl

theorem opMulSmi_agrees {imm : BitVec 8} (ha : SmiRange a)
    (hLeft : s.accumulator = Value.ofInt a) :
    Step.Agrees s (.ok (a * imm.toInt)) (opMulSmi imm s) := by
  have hb := smiRange_immediate imm
  simp only [opMulSmi, hLeft, immediate_eq_ofInt, aNotSmi_ofInt,
    Bool.false_eq_true, if_false]
  rw [agrees_checked_iff (smulOverflow_ofInt ha hb) (mul_ofInt a hb)]
  exact fun _ => rfl

/-- Truncating quotient and remainder become the floor ones when the
remainder is nonzero and its sign differs from the divisor's. -/
theorem fdiv_fmod_eq_tdiv_tmod (a : Int) {b : Int} (hb : b ≠ 0) :
    a.fdiv b =
        (if ¬ a.tmod b = 0 ∧ ¬ (a.tmod b < 0) = (b < 0) then a.tdiv b - 1
          else a.tdiv b) ∧
      a.fmod b =
        (if ¬ a.tmod b = 0 ∧ ¬ (a.tmod b < 0) = (b < 0) then a.tmod b + b
          else a.tmod b) := by
  rw [Int.fdiv_eq_tdiv, Int.fmod_eq_tmod]
  by_cases hDvd : b ∣ a
  · simp [hDvd, Int.tmod_eq_zero_of_dvd hDvd]
  · have hRem : a.tmod b ≠ 0 := fun hZero =>
      hDvd (Int.dvd_of_tmod_eq_zero hZero)
    rcases le_or_gt 0 a with ha | ha
    · have hSign : ¬ a.tmod b < 0 := not_lt.mpr (Int.tmod_nonneg b ha)
      rcases lt_or_gt_of_ne hb with hNeg | hPos
      · simp [hDvd, hRem, hSign, ha, hNeg, not_le.mpr hNeg]
      · simp [hDvd, hSign, ha, hPos.le, not_lt.mpr hPos.le]
    · have hSign : a.tmod b < 0 := by
        have hFlip : (-a).tmod b = -a.tmod b := Int.neg_tmod a b
        have hNonneg := Int.tmod_nonneg b (show 0 ≤ -a by omega)
        omega
      rcases lt_or_gt_of_ne hb with hNeg | hPos
      · simp [hDvd, hSign, not_le.mpr ha, hNeg, not_le.mpr hNeg,
          Int.sign_eq_neg_one_of_neg hNeg, Int.toNat_of_nonpos hNeg.le]
      · simp [hDvd, hRem, hSign, not_le.mpr ha, hPos.le,
          not_lt.mpr hPos.le, Int.sign_eq_one_of_pos hPos,
          abs_of_pos hPos]

/-- The divisor as a machine word is zero only for the integer zero. -/
theorem ofInt_ne_zero (hb : SmiRange b) (hNe : b ≠ 0) :
    BitVec.ofInt 64 b ≠ 0#64 := by
  intro hZero
  apply hNe
  rw [← ofInt_toInt_of_smiRange hb, hZero]
  rfl

theorem toInt_sdiv_ofInt (ha : SmiRange a) (hb : SmiRange b) :
    ((BitVec.ofInt 64 a).sdiv (BitVec.ofInt 64 b)).toInt = a.tdiv b := by
  have hAbs := Int.natAbs_tdiv_le_natAbs a b
  rw [BitVec.toInt_sdiv, ofInt_toInt_of_smiRange ha,
    ofInt_toInt_of_smiRange hb]
  simp only [SmiRange, valueSmiMin, valueSmiMax] at ha
  exact Int.bmod_eq_of_le (by omega) (by omega)

theorem toInt_srem_ofInt (ha : SmiRange a) (hb : SmiRange b) :
    ((BitVec.ofInt 64 a).srem (BitVec.ofInt 64 b)).toInt = a.tmod b := by
  rw [BitVec.toInt_srem, ofInt_toInt_of_smiRange ha,
    ofInt_toInt_of_smiRange hb]

theorem eq_ofInt_of_toInt_eq {x : BitVec 64} {n : Int} (h : x.toInt = n) :
    x = BitVec.ofInt 64 n := by
  rw [← h, BitVec.ofInt_toInt]

theorem floorDivSmiValues_eq (ha : SmiRange a) (hb : SmiRange b)
    (hNe : b ≠ 0) :
    floorDivSmiValues (BitVec.ofInt 64 a) (BitVec.ofInt 64 b) =
      BitVec.ofInt 64 (a.fdiv b) := by
  have hQuotient := eq_ofInt_of_toInt_eq (toInt_sdiv_ofInt ha hb)
  have hRemainder := toInt_srem_ofInt ha hb
  have hZero : (BitVec.ofInt 64 a).srem (BitVec.ofInt 64 b) = 0#64 ↔
      a.tmod b = 0 := by
    rw [← hRemainder, ← BitVec.toInt_inj]
    rfl
  have hFloor := (fdiv_fmod_eq_tdiv_tmod a hNe).1
  have hOne : BitVec.ofInt 64 (a.tdiv b - 1) =
      BitVec.ofInt 64 (a.tdiv b) - 1#64 := by
    rw [Int.sub_eq_add_neg, BitVec.ofInt_add, BitVec.ofInt_neg,
      BitVec.sub_eq_add_neg]
    simp
  rw [hFloor]
  simp only [floorDivSmiValues, hQuotient, hRemainder, ne_eq, hZero,
    ofInt_toInt_of_smiRange hb]
  by_cases hAdjust : ¬ a.tmod b = 0 ∧ ¬ (a.tmod b < 0) = (b < 0)
  · rw [if_pos hAdjust, if_pos hAdjust, hOne]
  · rw [if_neg hAdjust, if_neg hAdjust]

theorem moduloSmiValues_eq (ha : SmiRange a) (hb : SmiRange b)
    (hNe : b ≠ 0) :
    moduloSmiValues (BitVec.ofInt 64 a) (BitVec.ofInt 64 b) =
      BitVec.ofInt 64 (a.fmod b) := by
  have hRemainder := toInt_srem_ofInt ha hb
  have hWord := eq_ofInt_of_toInt_eq hRemainder
  have hZero : (BitVec.ofInt 64 a).srem (BitVec.ofInt 64 b) = 0#64 ↔
      a.tmod b = 0 := by
    rw [← hRemainder, ← BitVec.toInt_inj]
    rfl
  have hFloor := (fdiv_fmod_eq_tdiv_tmod a hNe).2
  rw [hFloor]
  simp only [moduloSmiValues, hRemainder, ne_eq, hZero,
    ofInt_toInt_of_smiRange hb]
  by_cases hAdjust : ¬ a.tmod b = 0 ∧ ¬ (a.tmod b < 0) = (b < 0)
  · rw [if_pos hAdjust, if_pos hAdjust, hWord, ← BitVec.ofInt_add]
  · rw [if_neg hAdjust, if_neg hAdjust, hWord]

theorem floordivSmiPath_agrees (ha : SmiRange a) (hb : SmiRange b) :
    Step.Agrees s (BinaryOperator.floordiv.exact a b)
      (floordivSmiPath (Value.ofInt a) (Value.ofInt b) s) := by
  simp only [floordivSmiPath, getSmi_ofInt ha, getSmi_ofInt hb,
    BinaryOperator.exact]
  by_cases hNe : b = 0
  · subst hNe
    exact ⟨.zeroDivision, rfl, rfl⟩
  · rw [if_neg (ofInt_ne_zero hb hNe), floorDivSmiValues_eq ha hb hNe,
      if_neg hNe]
    split
    · exact ⟨rfl, rfl⟩
    · rename_i hQuotient
      have hAbs := Int.natAbs_fdiv_le_natAbs a b
      have hLimit : a.fdiv b ≠ 2 ^ 58 := by
        intro hEq
        apply hQuotient
        rw [hEq]
        rfl
      refine ⟨a.fdiv b, rfl, ?_, rfl, rfl⟩
      simp only [SmiRange, valueSmiMin, valueSmiMax] at ha ⊢
      omega

theorem modSmiPath_agrees (ha : SmiRange a) (hb : SmiRange b) :
    Step.Agrees s (BinaryOperator.mod.exact a b)
      (modSmiPath (Value.ofInt a) (Value.ofInt b) s) := by
  simp only [modSmiPath, getSmi_ofInt ha, getSmi_ofInt hb,
    BinaryOperator.exact]
  by_cases hNe : b = 0
  · subst hNe
    exact ⟨.zeroDivision, rfl, rfl⟩
  · rw [if_neg (ofInt_ne_zero hb hNe), moduloSmiValues_eq ha hb hNe,
      if_neg hNe]
    refine ⟨a.fmod b, rfl, ?_, rfl, rfl⟩
    simp only [SmiRange, valueSmiMin, valueSmiMax] at hb ⊢
    rcases lt_or_gt_of_ne hNe with hNeg | hPos
    · have hFlip : (-a).fmod (-b) = -a.fmod b := Int.neg_fmod_neg a b
      have hLow := Int.fmod_nonneg_of_pos (-a) (show 0 < -b by omega)
      have hHigh := Int.fmod_lt_of_pos (-a) (show 0 < -b by omega)
      omega
    · have hLow := Int.fmod_nonneg_of_pos a hPos
      have hHigh := Int.fmod_lt_of_pos a hPos
      omega

/-- The shift check of a nonzero SMI is the range check of the result. -/
theorem signBits_lt_iff (ha : SmiRange a) (hNe : a ≠ 0) (n : Nat) :
    countRedundantSignBits (BitVec.ofInt 64 a) < n + valueTagBits ↔
      ¬ SmiRange (a * 2 ^ n) := by
  have hWord := ofInt_toInt_of_smiRange ha
  have hClz := Fixnum.lt_clz_signMagnitude_iff (BitVec.ofInt 64 a)
    (by rw [hWord]; exact hNe) (n + valueTagBits)
  rw [hWord, pow_add, ← mul_assoc] at hClz
  have hRange := hClz.trans (fits_iff_smiRange (a * 2 ^ n))
  have hBits : countRedundantSignBits (BitVec.ofInt 64 a) =
      ((Fixnum.signMagnitude (BitVec.ofInt 64 a)).clz.toNat : Int) - 1 := rfl
  rw [hBits, ← hRange]
  omega

theorem shiftLeft_ofInt (a : Int) {n : Nat} (hn : n < 64) :
    (⟨(Value.ofInt a).integer <<< BitVec.ofInt 64 n⟩ : Value) =
      Value.ofInt (a * 2 ^ n) := by
  have hCount : (BitVec.ofInt 64 n).toNat = n := by
    rw [BitVec.ofInt_natCast, BitVec.toNat_ofNat]
    omega
  rw [BitVec.shiftLeft_eq', hCount]
  exact congrArg Value.mk (Fixnum.encode_shiftLeft a n)

/-- The checked part of a left shift by a count below the word size. -/
theorem lshift_agrees_of_lt (ha : SmiRange a) {n : Nat} (hn : n < 64) :
    Step.Agrees s (.ok (a * 2 ^ n))
      (if BitVec.ofInt 64 a ≠ 0#64 ∧
            (n : Int) + valueTagBits >
              countRedundantSignBits (BitVec.ofInt 64 a) then
        .dispatch s
      else
        .complete
          { s with
            accumulator :=
              ⟨(Value.ofInt a).integer <<< BitVec.ofInt 64 n⟩ }) := by
  split
  · exact ⟨rfl, rfl⟩
  · rename_i hCheck
    refine ⟨a * 2 ^ n, rfl, ?_, shiftLeft_ofInt a hn, rfl⟩
    by_cases hNe : a = 0
    · subst hNe
      simp only [zero_mul]
      decide
    · by_contra hRange
      exact hCheck ⟨ofInt_ne_zero ha hNe, (signBits_lt_iff ha hNe n).mpr hRange⟩

theorem opLshift_agrees {reg : BitVec 8} (ha : SmiRange a) (hb : SmiRange b)
    (hLeft : s.fp reg = Value.ofInt a)
    (hRight : s.accumulator = Value.ofInt b) :
    Step.Agrees s (BinaryOperator.lshift.exact a b) (opLshift reg s) := by
  simp only [opLshift, hLeft, hRight, aOrBNotSmi_ofInt, Bool.false_eq_true,
    if_false, getSmi_ofInt ha, getSmi_ofInt hb, ofInt_toInt_of_smiRange hb,
    BinaryOperator.exact]
  by_cases hNeg : b < 0
  · rw [if_pos hNeg, if_pos hNeg]
    exact ⟨.negativeShiftCount, rfl, rfl⟩
  · rw [if_neg hNeg, if_neg hNeg]
    obtain ⟨n, rfl⟩ := Int.eq_ofNat_of_zero_le (not_lt.mp hNeg)
    have hCount : (BitVec.ofInt 64 (n : Int)).toNat = n := by
      have hInt := ofInt_toInt_of_smiRange hb
      rw [BitVec.toInt_eq_toNat_cond] at hInt
      split at hInt
      · omega
      · omega
    rw [hCount, Int.toNat_natCast]
    by_cases hLarge : n ≥ 64
    · rw [if_pos (Or.inl hLarge)]
      exact ⟨rfl, rfl⟩
    · simp only [hLarge, false_or]
      exact lshift_agrees_of_lt ha (not_le.mp hLarge)

theorem opLshiftSmi_agrees {imm : BitVec 8} (ha : SmiRange a)
    (hLeft : s.accumulator = Value.ofInt a) (hLow : 0 ≤ imm.toInt)
    (hHigh : imm.toInt < 64) :
    Step.Agrees s (BinaryOperator.lshift.exact a imm.toInt)
      (opLshiftSmi imm s) := by
  have hb := smiRange_immediate imm
  obtain ⟨n, hn⟩ := Int.eq_ofNat_of_zero_le hLow
  rw [hn] at hb hHigh
  simp only [opLshiftSmi, hLeft, immediate_eq_ofInt, aNotSmi_ofInt,
    Bool.false_eq_true, if_false, hn, getSmi_ofInt ha, getSmi_ofInt hb,
    ofInt_toInt_of_smiRange hb, BinaryOperator.exact]
  rw [if_neg (by omega), Int.toNat_natCast]
  exact lshift_agrees_of_lt ha (by omega)

theorem smiRange_shiftRight (ha : SmiRange a) (n : Nat) :
    SmiRange (a >>> n) := by
  simp only [SmiRange, valueSmiMin, valueSmiMax] at ha ⊢
  rcases le_or_gt 0 a with hNonneg | hNeg
  · have hLow := Int.le_shiftRight_of_nonneg (s := n) hNonneg
    have hHigh := Int.shiftRight_le_of_nonneg (s := n) hNonneg
    omega
  · have hLow := Int.le_shiftRight_of_nonpos (s := n) hNeg.le
    have hHigh := Int.shiftRight_le_of_nonpos (s := n) hNeg.le
    omega

/-- A shift by at least the word size leaves only the sign. -/
theorem shiftRight_of_le (ha : SmiRange a) {n : Nat} (hn : 64 ≤ n) :
    a >>> n = if a < 0 then -1 else 0 := by
  have hPow : 2 ^ 64 ≤ 2 ^ n := Nat.pow_le_pow_right (by norm_num) hn
  simp only [SmiRange, valueSmiMin, valueSmiMax] at ha
  rw [Int.shiftRight_eq_div_pow]
  generalize 2 ^ n = m at hPow
  split
  · have hShift : (a + m * 1) / (m : Int) = a / m + 1 :=
      Int.add_mul_ediv_left a 1 (by omega)
    have hZero : (a + m * 1) / (m : Int) = 0 :=
      Int.ediv_eq_zero_of_lt (by omega) (by omega)
    omega
  · exact Int.ediv_eq_zero_of_lt (by omega) (by omega)

theorem rshiftSmiPath_agrees (ha : SmiRange a) (hb : SmiRange b) :
    Step.Agrees s (BinaryOperator.rshift.exact a b)
      (rshiftSmiPath (Value.ofInt a) (Value.ofInt b) s) := by
  simp only [rshiftSmiPath, getSmi_ofInt ha, getSmi_ofInt hb,
    ofInt_toInt_of_smiRange ha, ofInt_toInt_of_smiRange hb,
    BinaryOperator.exact]
  by_cases hNeg : b < 0
  · rw [if_pos hNeg, if_pos hNeg]
    exact ⟨.negativeShiftCount, rfl, rfl⟩
  · rw [if_neg hNeg, if_neg hNeg]
    by_cases hLarge : b ≥ 64
    · rw [if_pos hLarge, shiftRight_of_le ha (show 64 ≤ b.toNat by omega)]
      split
      · exact ⟨-1, rfl, by decide, rfl, rfl⟩
      · exact ⟨0, rfl, by decide, rfl, rfl⟩
    · have hCount : (BitVec.ofInt 64 b).toNat = b.toNat := by
        rw [BitVec.toNat_ofInt]
        omega
      rw [if_neg hLarge, hCount]
      refine ⟨a >>> b.toNat, rfl, smiRange_shiftRight ha _, ?_, rfl⟩
      exact congrArg Value.mk (Fixnum.sshiftRight_encode (by decide)
        ((fits_iff_smiRange a).mpr ha) b.toNat)

/-- Both forms of a bitwise operator complete with the word of the operator on
the integers. -/
theorem bitwise_agrees (op : BitVec 64 → BitVec 64 → BitVec 64)
    {f : Bool → Bool → Bool} (ha : SmiRange a) (hb : SmiRange b)
    (hOp : op (Value.ofInt a).integer (Value.ofInt b).integer =
      (Value.ofInt (Int.bitwise f a b)).integer) :
    Step.Agrees s (.ok (Int.bitwise f a b))
      (.complete
        { s with
          accumulator :=
            ⟨op (Value.ofInt a).integer (Value.ofInt b).integer⟩ }) := by
  refine ⟨Int.bitwise f a b, rfl, ?_, congrArg Value.mk hOp, rfl⟩
  simp only [SmiRange, valueSmiMin, valueSmiMax] at ha hb ⊢
  have hRange := Fixnum.bitwise_mem_range f (a := a) (b := b) (n := 58)
    (by omega) (by omega)
  omega

theorem and_agrees (ha : SmiRange a) (hb : SmiRange b) :
    Step.Agrees s (BinaryOperator.and.exact a b)
      (.complete
        { s with
          accumulator :=
            ⟨(Value.ofInt a).integer &&& (Value.ofInt b).integer⟩ }) := by
  simp only [BinaryOperator.exact, ← Int.bitwise_and]
  refine bitwise_agrees (· &&& ·) ha hb ?_
  rw [Int.bitwise_and]
  exact Fixnum.and_encode a b

theorem or_agrees (ha : SmiRange a) (hb : SmiRange b) :
    Step.Agrees s (BinaryOperator.or.exact a b)
      (.complete
        { s with
          accumulator :=
            ⟨(Value.ofInt a).integer ||| (Value.ofInt b).integer⟩ }) := by
  simp only [BinaryOperator.exact, ← Int.bitwise_or]
  refine bitwise_agrees (· ||| ·) ha hb ?_
  rw [Int.bitwise_or]
  exact Fixnum.or_encode a b

theorem xor_agrees (ha : SmiRange a) (hb : SmiRange b) :
    Step.Agrees s (BinaryOperator.xor.exact a b)
      (.complete
        { s with
          accumulator :=
            ⟨(Value.ofInt a).integer ^^^ (Value.ofInt b).integer⟩ }) := by
  simp only [BinaryOperator.exact, ← Int.bitwise_xor]
  refine bitwise_agrees (· ^^^ ·) ha hb ?_
  rw [Int.bitwise_xor]
  exact Fixnum.xor_encode a b

theorem opNegate_agrees (ha : SmiRange a)
    (hLeft : s.accumulator = Value.ofInt a) :
    Step.Agrees s (.ok (-a)) (opNegate s) := by
  have hZero : (0#64 : BitVec 64) = (Value.ofInt 0).integer := rfl
  simp only [opNegate, hLeft, aNotSmi_ofInt, Bool.false_eq_true, if_false,
    hZero]
  rw [← Int.zero_sub]
  refine (agrees_checked_iff (ssubOverflow_ofInt (by decide) ha)
    (sub_ofInt 0 a)).mpr fun _ => ?_
  rw [hLeft, ← hZero, BitVec.zero_sub, BitVec.neg_neg]

theorem lnot_eq_neg_succ (a : Int) : Int.lnot a = -(a + 1) := by
  cases a with
  | ofNat n =>
      simp only [Int.ofNat_eq_natCast, Int.lnot, Int.negSucc_eq]
  | negSucc n =>
      simp only [Int.lnot, Int.negSucc_eq]
      omega

theorem opInvert_agrees (ha : SmiRange a)
    (hLeft : s.accumulator = Value.ofInt a) :
    Step.Agrees s (.ok (-(a + 1))) (opInvert s) := by
  simp only [opInvert, hLeft, aNotSmi_ofInt, Bool.false_eq_true, if_false]
  rw [← lnot_eq_neg_succ]
  refine ⟨Int.lnot a, rfl, ?_, congrArg Value.mk (Fixnum.not_encode a), rfl⟩
  rw [lnot_eq_neg_succ]
  simp only [SmiRange, valueSmiMin, valueSmiMax] at ha ⊢
  omega

end Paths

/-! ## All instructions -/

/-- The operands of an overflowing `op_sub`: the difference leaves the SMI
range by more than one. -/
def Instruction.SubOverflows (s : Registers) : Instruction → Prop
  | .binaryReg .sub reg =>
      (s.fp reg).smi - s.accumulator.smi < -2 ^ 58 ∨
        2 ^ 58 < (s.fp reg).smi - s.accumulator.smi
  | _ => False

/-- An emitted left shift by an immediate has a count below the word size. -/
theorem Instruction.Emitted.lshift_count {imm : BitVec 8}
    (h : (Instruction.binarySmi .lshift imm).Emitted) :
    0 ≤ imm.toInt ∧ imm.toInt < 64 := by
  obtain ⟨rhs, hCheck⟩ := h
  rw [checkBinaryAccSmiImmediate] at hCheck
  split at hCheck
  · exact absurd hCheck (by simp)
  · simp only [true_and] at hCheck
    split at hCheck
    · exact absurd hCheck (by simp)
    · rename_i hCount
      obtain rfl := Option.some.inj hCheck
      omega

/-- Register forms on SMI operands: every operator but `op_sub` agrees, and
`op_sub` agrees unless it overflows. -/
theorem binaryReg_agrees_iff (op : BinaryOperator) (reg : BitVec 8)
    (s : Registers) (h : (Instruction.binaryReg op reg).SmiOperands s) :
    Step.Agrees s ((Instruction.binaryReg op reg).exact s)
        (step (.binaryReg op reg) s) ↔
      ¬ (Instruction.binaryReg op reg).SubOverflows s := by
  obtain ⟨hLeft, hRight⟩ := h
  have ha := smiRange_smi (s.fp reg)
  have hb := smiRange_smi s.accumulator
  have hLeftWord := ofInt_smi hLeft
  have hRightWord := ofInt_smi hRight
  have hTag : aOrBNotSmi (s.fp reg) s.accumulator = false := by
    rw [← hLeftWord, ← hRightWord, aOrBNotSmi_ofInt]
  cases op with
  | add =>
      exact iff_of_true (opAdd_agrees ha hb hLeftWord.symm hRightWord.symm) id
  | sub =>
      refine (opSub_agrees_iff ha hb hLeftWord.symm hRightWord.symm).trans ?_
      simp only [Instruction.SubOverflows]
      omega
  | mul =>
      exact iff_of_true (opMul_agrees ha hb hLeftWord.symm hRightWord.symm) id
  | floordiv =>
      have hPath := floordivSmiPath_agrees (s := s) ha hb
      rw [hLeftWord, hRightWord] at hPath
      refine iff_of_true ?_ id
      simpa only [step, opFloordiv, hTag, Bool.false_eq_true, if_false,
        Instruction.exact] using hPath
  | mod =>
      have hPath := modSmiPath_agrees (s := s) ha hb
      rw [hLeftWord, hRightWord] at hPath
      refine iff_of_true ?_ id
      simpa only [step, opMod, hTag, Bool.false_eq_true, if_false,
        Instruction.exact] using hPath
  | lshift =>
      exact iff_of_true
        (opLshift_agrees ha hb hLeftWord.symm hRightWord.symm) id
  | rshift =>
      have hPath := rshiftSmiPath_agrees (s := s) ha hb
      rw [hLeftWord, hRightWord] at hPath
      refine iff_of_true ?_ id
      simpa only [step, opRshift, hTag, Bool.false_eq_true, if_false,
        Instruction.exact] using hPath
  | and =>
      have hPath := and_agrees (s := s) ha hb
      rw [hLeftWord, hRightWord] at hPath
      refine iff_of_true ?_ id
      simpa only [step, opAnd, bitwiseReg, hTag, Bool.false_eq_true, if_false,
        Instruction.exact] using hPath
  | or =>
      have hPath := or_agrees (s := s) ha hb
      rw [hLeftWord, hRightWord] at hPath
      refine iff_of_true ?_ id
      simpa only [step, opOr, bitwiseReg, hTag, Bool.false_eq_true, if_false,
        Instruction.exact] using hPath
  | xor =>
      have hPath := xor_agrees (s := s) ha hb
      rw [hLeftWord, hRightWord] at hPath
      refine iff_of_true ?_ id
      simpa only [step, opXor, bitwiseReg, hTag, Bool.false_eq_true, if_false,
        Instruction.exact] using hPath

/-- Every emitted immediate form agrees on an SMI operand. -/
theorem binarySmi_agrees (op : BinaryOperator) (imm : BitVec 8)
    (s : Registers) (hEmitted : (Instruction.binarySmi op imm).Emitted)
    (h : (Instruction.binarySmi op imm).SmiOperands s) :
    Step.Agrees s ((Instruction.binarySmi op imm).exact s)
      (step (.binarySmi op imm) s) := by
  have ha := smiRange_smi s.accumulator
  have hb := smiRange_immediate imm
  have hWord := ofInt_smi h
  have hTag : aNotSmi s.accumulator = false := by
    rw [← hWord, aNotSmi_ofInt]
  have hExact : (Instruction.binarySmi op imm).exact s =
      op.exact s.accumulator.smi imm.toInt := by
    rw [Instruction.exact, immediate_eq_ofInt, smi_ofInt hb]
  rw [hExact]
  cases op with
  | add => exact opAddSmi_agrees ha hWord.symm
  | sub => exact opSubSmi_agrees ha hWord.symm
  | mul => exact opMulSmi_agrees ha hWord.symm
  | floordiv =>
      have hPath := floordivSmiPath_agrees (s := s) ha hb
      rw [hWord] at hPath
      simpa only [step, opFloordivSmi, hTag, Bool.false_eq_true,
        if_false, immediate_eq_ofInt] using hPath
  | mod =>
      have hPath := modSmiPath_agrees (s := s) ha hb
      rw [hWord] at hPath
      simpa only [step, opModSmi, hTag, Bool.false_eq_true,
        if_false, immediate_eq_ofInt] using hPath
  | lshift =>
      obtain ⟨hLow, hHigh⟩ := hEmitted.lshift_count
      exact opLshiftSmi_agrees ha hWord.symm hLow hHigh
  | rshift =>
      have hPath := rshiftSmiPath_agrees (s := s) ha hb
      rw [hWord] at hPath
      simpa only [step, opRshiftSmi, hTag, Bool.false_eq_true,
        if_false, immediate_eq_ofInt] using hPath
  | and =>
      have hPath := and_agrees (s := s) ha hb
      rw [hWord] at hPath
      simpa only [step, opAndSmi, bitwiseSmi, hTag, Bool.false_eq_true,
        if_false, immediate_eq_ofInt] using hPath
  | or =>
      have hPath := or_agrees (s := s) ha hb
      rw [hWord] at hPath
      simpa only [step, opOrSmi, bitwiseSmi, hTag, Bool.false_eq_true,
        if_false, immediate_eq_ofInt] using hPath
  | xor =>
      have hPath := xor_agrees (s := s) ha hb
      rw [hWord] at hPath
      simpa only [step, opXorSmi, bitwiseSmi, hTag, Bool.false_eq_true,
        if_false, immediate_eq_ofInt] using hPath

theorem unary_agrees (op : UnaryOperator) (s : Registers)
    (h : (Instruction.unary op).SmiOperands s) :
    Step.Agrees s ((Instruction.unary op).exact s) (step (.unary op) s) := by
  have ha := smiRange_smi s.accumulator
  have hWord := ofInt_smi h
  cases op with
  | negate => exact opNegate_agrees ha hWord.symm
  | plus =>
      have hTag : aNotSmi s.accumulator = false := by
        rw [← hWord, aNotSmi_ofInt]
      simp only [step, opPlus, hTag, Bool.false_eq_true, if_false]
      exact ⟨s.accumulator.smi, rfl, ha, hWord.symm, rfl⟩
  | invert => exact opInvert_agrees ha hWord.symm

theorem step_agrees_iff (i : Instruction) (s : Registers)
    (hEmitted : i.Emitted) (h : i.SmiOperands s) :
    Step.Agrees s (i.exact s) (step i s) ↔ ¬ i.SubOverflows s := by
  cases i with
  | binaryReg op reg => exact binaryReg_agrees_iff op reg s h
  | binarySmi op imm =>
      exact iff_of_true (binarySmi_agrees op imm s hEmitted h) id
  | unary op => exact iff_of_true (unary_agrees op s h) id

/-! ## Instructions together with their dispatch handlers -/

/-- A dispatch handler computes the operator on the registers it is given. -/
def ComputesOperator
    (handler : Instruction → Registers → Except ArithmeticError Int) : Prop :=
  ∀ i s, i.SmiOperands s → handler i s = i.exact s

/-- The integer or exception an instruction ends with, when its dispatch
handler is `handler`. -/
def run (handler : Instruction → Registers → Except ArithmeticError Int)
    (i : Instruction) (s : Registers) : Except BuiltinException Int :=
  match step i s with
  | .complete s' => .ok s'.accumulator.smi
  | .raised e => .error e
  | .dispatch s' => (handler i s').mapError ArithmeticError.exception

/-- An instruction that agrees yields the mathematical result under every
handler that computes the operator. -/
theorem run_eq_exact {i : Instruction} {s : Registers}
    {handler : Instruction → Registers → Except ArithmeticError Int}
    (hHandler : ComputesOperator handler) (h : i.SmiOperands s)
    (hAgrees : Step.Agrees s (i.exact s) (step i s)) :
    run handler i s = (i.exact s).mapError ArithmeticError.exception := by
  rw [run]
  cases hStep : step i s with
  | complete s' =>
      rw [hStep] at hAgrees
      obtain ⟨n, hExact, hRange, hWord, -⟩ := hAgrees
      simp only [hExact, hWord, smi_ofInt hRange]
      rfl
  | raised e =>
      rw [hStep] at hAgrees
      obtain ⟨err, hExact, rfl⟩ := hAgrees
      rw [hExact]
      rfl
  | dispatch s' =>
      rw [hStep] at hAgrees
      obtain ⟨hAcc, hFp⟩ := hAgrees
      have hSame : s' = s := by
        cases s'
        cases s
        simp_all
      simp only [hSame, hHandler i s h]

/-- The fast path of an instruction is right: it agrees with its operator,
and with any dispatch handlers that compute the operator the result is the
mathematical one. -/
def FastPathCorrect (i : Instruction) (s : Registers) : Prop :=
  Step.Agrees s (i.exact s) (step i s) ∧
    ∀ handler, ComputesOperator handler →
      run handler i s = (i.exact s).mapError ArithmeticError.exception

/-- On SMI operands the fast path of every emitted operator instruction is
right, except that of a register-form subtraction whose difference leaves the
SMI range by more than one. -/
theorem fastPathCorrect_iff_not_subOverflows (i : Instruction)
    (s : Registers) (hEmitted : i.Emitted) (h : i.SmiOperands s) :
    FastPathCorrect i s ↔ ¬ i.SubOverflows s := by
  rw [← step_agrees_iff i s hEmitted h]
  constructor
  · exact fun hCorrect => hCorrect.1
  · exact fun hAgrees =>
      ⟨hAgrees, fun _ hHandler => run_eq_exact hHandler h hAgrees⟩

/-- The greatest SMI in register 0 and `-2` in the accumulator. -/
def overflowingSub : Registers :=
  { accumulator := Value.ofInt (-2), fp := fun _ => Value.ofInt valueSmiMax }

theorem overflowingSub_smiOperands :
    (Instruction.binaryReg .sub 0#8).SmiOperands overflowingSub :=
  ⟨isSmi_ofInt valueSmiMax, isSmi_ofInt (-2)⟩

theorem fastPathCorrect_iff_overflowingSub :
    FastPathCorrect (.binaryReg .sub 0#8) overflowingSub ↔
      ¬ (Instruction.binaryReg .sub 0#8).SubOverflows overflowingSub :=
  fastPathCorrect_iff_not_subOverflows _ _ trivial overflowingSub_smiOperands

/-- Not every fast path is right on SMI operands: `(2 ^ 58 - 1) - (-2)`
dispatches with `0` where the right operand `-2` was. -/
theorem not_forall_fastPathCorrect :
    ¬ ∀ (i : Instruction) (s : Registers), i.Emitted → i.SmiOperands s →
      FastPathCorrect i s := by
  intro hAll
  have hAgrees := (hAll (.binaryReg .sub 0#8) overflowingSub trivial
    overflowingSub_smiOperands).1
  have hStep : step (.binaryReg .sub 0#8) overflowingSub =
      .dispatch { overflowingSub with accumulator := Value.ofInt 0 } := rfl
  rw [hStep] at hAgrees
  exact absurd hAgrees.1 (by decide)

end CloverVM.Runtime.SmiOperators
