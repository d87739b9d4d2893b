import CloverVM.BuiltinTypes.IntHash
import CloverVM.Machine.FloatFormat
import CloverVM.Runtime.OperatorProtocol

/-!
# Operators on integers and floats

The comparisons and the true division of the classes `int` and `float`, and
the handlers their resolvers give the operator walk in place of the methods.
The class `int` leaves a float operand to the class `float`, and the class
`float` takes small integers and booleans only.

A value is a word without a pointer or a pointer into the heap, which holds
integer objects and floats.  The operations on doubles are a parameter.
-/

namespace CloverVM.BuiltinTypes.NumberOperators

open CloverVM.Machine CloverVM.ObjectModel CloverVM.Runtime
open CloverVM.BuiltinTypes.BigInt
open CloverVM.Runtime.OperatorTables CloverVM.Runtime.OperatorWalk
open CloverVM.Runtime.OperatorProtocol

/-- A comparison of two elements of an order. -/
def holds {α : Type} [LinearOrder α] (a b : α) : Comparison → Bool
  | .eq => a = b
  | .ne => a ≠ b
  | .lt => a < b
  | .le => a ≤ b
  | .gt => a > b
  | .ge => a ≥ b

/-- The operations on doubles of the compiled code: `static_cast<double>` of
an `int64_t`, the comparisons, and division. -/
structure DoubleMachine (δ : Type) where
  zero : δ
  ofInt64 : BitVec 64 → δ
  compare : Comparison → δ → δ → Bool
  divide : δ → δ → δ

/-- The result of a function on two doubles. -/
inductive FloatResult (δ : Type) where
  | truth (b : Bool)
  | number (d : δ)

section FloatFunctions

variable {δ : Type} (machine : DoubleMachine δ) (left right : δ)

/-- A comparison of two doubles. -/
def floatComparison (op : Comparison) :
    Except BuiltinException (FloatResult δ) :=
  .ok (.truth (machine.compare op left right))

def floatEqual := floatComparison machine left right .eq
def floatNotEqual := floatComparison machine left right .ne
def floatLess := floatComparison machine left right .lt
def floatLessEqual := floatComparison machine left right .le
def floatGreater := floatComparison machine left right .gt
def floatGreaterEqual := floatComparison machine left right .ge

def floatTrueDivide : Except BuiltinException (FloatResult δ) :=
  if machine.compare .eq right machine.zero then .error zeroDivisionError
  else .ok (.number (machine.divide left right))

def floatReverseTrueDivide : Except BuiltinException (FloatResult δ) :=
  if machine.compare .eq left machine.zero then .error zeroDivisionError
  else .ok (.number (machine.divide right left))

end FloatFunctions

/-- The functions that the operations of the class `float` are made of. -/
inductive FloatFunction where
  | equal | notEqual | less | lessEqual | greater | greaterEqual
  | trueDivide | reverseTrueDivide
deriving DecidableEq, Repr

def FloatFunction.run {δ : Type} (machine : DoubleMachine δ) :
    FloatFunction → δ → δ → Except BuiltinException (FloatResult δ)
  | .equal => floatEqual machine
  | .notEqual => floatNotEqual machine
  | .less => floatLess machine
  | .lessEqual => floatLessEqual machine
  | .greater => floatGreater machine
  | .greaterEqual => floatGreaterEqual machine
  | .trueDivide => floatTrueDivide machine
  | .reverseTrueDivide => floatReverseTrueDivide machine

/-- The function whose handlers stand in for a reflected method. -/
def FloatFunction.reflected : FloatFunction → FloatFunction
  | .equal => .equal
  | .notEqual => .notEqual
  | .less => .greater
  | .lessEqual => .greaterEqual
  | .greater => .less
  | .greaterEqual => .lessEqual
  | .trueDivide => .reverseTrueDivide
  | .reverseTrueDivide => .trueDivide

def FloatFunction.receiverError : FloatFunction → String
  | .equal => "float.__eq__ expects a float receiver"
  | .notEqual => "float.__ne__ expects a float receiver"
  | .less => "float.__lt__ expects a float receiver"
  | .lessEqual => "float.__le__ expects a float receiver"
  | .greater => "float.__gt__ expects a float receiver"
  | .greaterEqual => "float.__ge__ expects a float receiver"
  | .trueDivide => "float.__truediv__ expects a float receiver"
  | .reverseTrueDivide => "float.__rtruediv__ expects a float receiver"

/-! ## Values -/

/-- A word without a pointer, or a pointer into the heap. -/
inductive Reference where
  | inline (word : Value)
  | pointer (address : Nat)
deriving DecidableEq, Repr

inductive HeapObject (δ : Type) where
  | bigInt (view : ConstBigIntView)
  | float (value : δ)

abbrev Heap (δ : Type) := List (HeapObject δ)

/-- What a method raises, or an assertion that fails. -/
inductive Failure where
  | raised (e : BuiltinException)
  | assertion
deriving DecidableEq, Repr

def typeError (message : String) : Failure :=
  .raised { typeName := "TypeError", message := message }

section Methods

variable {δ : Type} (machine : DoubleMachine δ) (heap : Heap δ)

/-- `can_convert_to<Float>`, and the number of the object. -/
def asFloat : Reference → Option δ
  | .inline _ => none
  | .pointer address =>
      match heap[address]? with
      | some (.float value) => some value
      | _ => none

/-- `can_convert_to<BigInt>`, and the view of the object. -/
def asBigInt : Reference → Option ConstBigIntView
  | .inline _ => none
  | .pointer address =>
      match heap[address]? with
      | some (.bigInt view) => some view
      | _ => none

def isSmiOrBool : Reference → Bool
  | .inline word => isSmiOrBoolValue word
  | .pointer _ => false

def isIntlikeValue (value : Reference) : Bool :=
  isSmiOrBool value || (asBigInt heap value).isSome

/-- `smi_or_bool_as_int`, where the value is a small integer or a boolean. -/
def tryGetSmiOrBool : Reference → Option (BitVec 64)
  | .inline word =>
      if isSmiOrBoolValue word then smiOrBoolAsInt word else none
  | .pointer _ => none

def smiOrBoolAsDouble (value : Reference) : Option δ :=
  (tryGetSmiOrBool value).map machine.ofInt64

def tryGetFloatOrSmiOrBool (value : Reference) : Option δ :=
  if isSmiOrBool value then smiOrBoolAsDouble machine value
  else asFloat heap value

def intlikeValueBigintView (value : Reference) : Option ConstBigIntView :=
  if isSmiOrBool value then do
    let decoded ← tryGetSmiOrBool value
    smiBigintView decoded.toInt
  else asBigInt heap value

/-- How a method or a handler ends, and the heap afterwards. -/
abbrev MethodResult (δ : Type) := Outcome Reference Failure × Heap δ

/-- Return a truth value, or a new float. -/
def boxed : Except BuiltinException (FloatResult δ) → MethodResult δ
  | .ok (.truth b) => (.value (.inline (fromBool b)), heap)
  | .ok (.number d) => (.value (.pointer heap.length), heap ++ [.float d])
  | .error e => (.exception (.raised e), heap)

/-- A result that an assertion guards. -/
def asserted : Option (MethodResult δ) → MethodResult δ
  | some result => result
  | none => (.exception .assertion, heap)

/-- `FloatBinaryOperation::native`. -/
def floatNative (function : FloatFunction) (self other : Reference) :
    MethodResult δ :=
  match asFloat heap self with
  | none => (.exception (typeError function.receiverError), heap)
  | some left =>
      match tryGetFloatOrSmiOrBool machine heap other with
      | none => (.notImplemented, heap)
      | some right => boxed heap (function.run machine left right)

inductive FloatBinaryAdaptation where
  | floatFloat
  | floatIntlike
  | intlikeFloat
deriving DecidableEq, Repr

/-- `trusted_adapted_float_binary_operation`. -/
def adaptedFloatOperation (function : FloatFunction)
    (adaptation : FloatBinaryAdaptation) (left right : Reference) :
    MethodResult δ :=
  asserted heap <|
    match adaptation with
    | .floatFloat => do
        let l ← asFloat heap left
        let r ← asFloat heap right
        some (boxed heap (function.run machine l r))
    | .floatIntlike => do
        let l ← asFloat heap left
        let r ← smiOrBoolAsDouble machine right
        some (boxed heap (function.run machine l r))
    | .intlikeFloat => do
        let l ← smiOrBoolAsDouble machine left
        let r ← asFloat heap right
        some (boxed heap (function.run machine l r))

def intCompareReceiverError : Comparison → String
  | .eq => "int.__eq__ expects an int receiver"
  | .ne => "int.__ne__ expects an int receiver"
  | .lt => "int.__lt__ expects an int receiver"
  | .le => "int.__le__ expects an int receiver"
  | .gt => "int.__gt__ expects an int receiver"
  | .ge => "int.__ge__ expects an int receiver"

/-- `native_int_compare_operator` -/
def nativeIntCompareOperator (op : Comparison) (self other : Reference) :
    MethodResult δ :=
  if !isIntlikeValue heap self then
    (.exception (typeError (intCompareReceiverError op)), heap)
  else if !isIntlikeValue heap other then (.notImplemented, heap)
  else asserted heap do
    let left ← intlikeValueBigintView heap self
    let right ← intlikeValueBigintView heap other
    let sign ← compareBigint left right
    some (.value (.inline (fromBool (holds sign 0 op))), heap)

def smiTrueDivOperator (left right : BitVec 64) :
    Except BuiltinException (FloatResult δ) :=
  if right = 0 then .error zeroDivisionError
  else .ok (.number
    (machine.divide (machine.ofInt64 left) (machine.ofInt64 right)))

def smiRTrueDivOperator (left right : BitVec 64) :
    Except BuiltinException (FloatResult δ) :=
  smiTrueDivOperator machine right left

/-- `native_int_binary_operator` -/
def nativeIntBinaryOperator
    (operator : BitVec 64 → BitVec 64 →
      Except BuiltinException (FloatResult δ))
    (receiverError : String) (self other : Reference) : MethodResult δ :=
  match tryGetSmiOrBool self with
  | none => (.exception (typeError receiverError), heap)
  | some left =>
      match tryGetSmiOrBool other with
      | none => (.notImplemented, heap)
      | some right => boxed heap (operator left right)

/-- `trusted_intlike_intlike_operator` -/
def intlikeIntlikeOperator
    (operator : BitVec 64 → BitVec 64 →
      Except BuiltinException (FloatResult δ))
    (left right : Reference) : MethodResult δ :=
  asserted heap do
    let l ← tryGetSmiOrBool left
    let r ← tryGetSmiOrBool right
    some (boxed heap (operator l r))

end Methods

/-! ## The object model -/

inductive NumberClass where
  | objectClass
  | intClass
  | boolClass
  | floatClass
deriving DecidableEq, Repr

/-- The shape keys that the resolvers tell apart. -/
inductive NumberKey where
  | smi
  | bool
  | bigInt
  | float
  | other
deriving DecidableEq, Repr

/-- The methods; no number is a container, and the membership functions are
not among those the operators of numbers call. -/
inductive Method where
  | intCompare (op : Comparison)
  | intTrueDiv
  | intRTrueDiv
  | floatOperation (function : FloatFunction)
  | membershipFallback
deriving DecidableEq, Repr

inductive Handler where
  | floatBinary (function : FloatFunction) (adaptation : FloatBinaryAdaptation)
  | smiTrueDiv
  | smiRTrueDiv
deriving DecidableEq, Repr

def intMethod : String → Option Method
  | "__eq__" => some (.intCompare .eq)
  | "__ne__" => some (.intCompare .ne)
  | "__lt__" => some (.intCompare .lt)
  | "__le__" => some (.intCompare .le)
  | "__gt__" => some (.intCompare .gt)
  | "__ge__" => some (.intCompare .ge)
  | "__truediv__" => some .intTrueDiv
  | "__rtruediv__" => some .intRTrueDiv
  | _ => none

def floatMethod : String → Option Method
  | "__eq__" => some (.floatOperation .equal)
  | "__ne__" => some (.floatOperation .notEqual)
  | "__lt__" => some (.floatOperation .less)
  | "__le__" => some (.floatOperation .lessEqual)
  | "__gt__" => some (.floatOperation .greater)
  | "__ge__" => some (.floatOperation .greaterEqual)
  | "__truediv__" => some (.floatOperation .trueDivide)
  | "__rtruediv__" => some (.floatOperation .reverseTrueDivide)
  | _ => none

def NumberKey.isSmiOrBool (key : NumberKey) : Bool :=
  key == .smi || key == .bool

/-- `FloatBinaryResolver::resolve_handlers` -/
def resolveFloatHandlers (function : FloatFunction) :
    NumberKey → NumberKey → TrustedResolution Handler
  | .float, .float => .trustedHandler (.floatBinary function .floatFloat)
  | .float, key =>
      if key.isSmiOrBool then
        .trustedHandler (.floatBinary function .floatIntlike)
      else .noTrustedHandlerCallUntrusted
  | key, .float =>
      if key.isSmiOrBool then
        .trustedHandler (.floatBinary function .intlikeFloat)
      else .noTrustedHandlerCallUntrusted
  | _, _ => .noTrustedHandlerCallUntrusted

/-- `resolve_trusted_int_binary_handler` -/
def resolveTrustedIntBinaryHandler (handler : Handler)
    (key0 key1 : NumberKey) : TrustedResolution Handler :=
  if key0.isSmiOrBool && key1.isSmiOrBool then .trustedHandler handler
  else if (key0.isSmiOrBool && key1 == .float) ||
      (key0 == .float && key1.isSmiOrBool) then
    .knownNotImplementedSkipMethod
  else .noTrustedHandlerCallUntrusted

/-- A resolver by the handlers of the normal and of the reflected order. -/
def binaryResolver
    (normal reflected : NumberKey → NumberKey → TrustedResolution Handler)
    (key0 key1 : NumberKey) (order : OperandOrder)
    (arity : TrustedHandlerArity) : TrustedResolution Handler :=
  if arity ≠ .binary then .noTrustedHandlerCallUntrusted
  else
    match order with
    | .normal => normal key0 key1
    | .reflected => reflected key0 key1

/-- The comparisons of the class `int` have no resolver. -/
def methodResolver : Method →
    Option (NumberKey → NumberKey → OperandOrder → TrustedHandlerArity →
      TrustedResolution Handler)
  | .intTrueDiv =>
      some (binaryResolver (resolveTrustedIntBinaryHandler .smiTrueDiv)
        (resolveTrustedIntBinaryHandler .smiRTrueDiv))
  | .intRTrueDiv =>
      some (binaryResolver (resolveTrustedIntBinaryHandler .smiRTrueDiv)
        (resolveTrustedIntBinaryHandler .smiTrueDiv))
  | .floatOperation function =>
      some (binaryResolver (resolveFloatHandlers function)
        (resolveFloatHandlers function.reflected))
  | _ => none

section Model

variable {δ : Type} (machine : DoubleMachine δ)

def classOf (heap : Heap δ) : Reference → NumberClass
  | .inline word =>
      if word.isSmi then .intClass
      else if isBool word then .boolClass
      else .objectClass
  | .pointer address =>
      match heap[address]? with
      | some (.bigInt _) => .intClass
      | some (.float _) => .floatClass
      | none => .objectClass

def keyOf (heap : Heap δ) : Reference → NumberKey
  | .inline word =>
      if word.isSmi then .smi else if isBool word then .bool else .other
  | .pointer address =>
      match heap[address]? with
      | some (.bigInt _) => .bigInt
      | some (.float _) => .float
      | none => .other

def callMethod (method : Method) (args : List Reference) (heap : Heap δ) :
    MethodResult δ :=
  match args with
  | [self, other] =>
      match method with
      | .intCompare op => nativeIntCompareOperator heap op self other
      | .intTrueDiv =>
          nativeIntBinaryOperator heap (smiTrueDivOperator machine)
            "int.__truediv__ expects an int receiver" self other
      | .intRTrueDiv =>
          nativeIntBinaryOperator heap (smiRTrueDivOperator machine)
            "int.__rtruediv__ expects an int receiver" self other
      | .floatOperation function =>
          floatNative machine heap function self other
      | .membershipFallback => (.exception .assertion, heap)
  | _ => (.exception .assertion, heap)

def callHandler (handler : Handler) (args : List Reference)
    (heap : Heap δ) : MethodResult δ :=
  match args with
  | [left, right] =>
      match handler with
      | .floatBinary function adaptation =>
          adaptedFloatOperation machine heap function adaptation left right
      | .smiTrueDiv =>
          intlikeIntlikeOperator heap (smiTrueDivOperator machine) left right
      | .smiRTrueDiv =>
          intlikeIntlikeOperator heap (smiRTrueDivOperator machine) left right
  | _ => (.exception .assertion, heap)

/-- The numbers of a program, with the methods that compare and divide
them. -/
def numberModel :
    ObjectModel NumberClass Reference Method Handler Failure (Heap δ)
      NumberKey where
  classOf := classOf
  mro _ cls :=
    match cls with
    | .objectClass => [.objectClass]
    | .intClass => [.intClass, .objectClass]
    | .boolClass => [.boolClass, .intClass, .objectClass]
    | .floatClass => [.floatClass, .objectClass]
  presentAttribute _ cls name :=
    match cls with
    | .intClass => (intMethod name).map .function
    | .floatClass => (floatMethod name).map .function
    | _ => none
  shapeKey := keyOf
  isTuple _ _ := false
  acceptsPositionalOnlyCallArity _ nArgs := nArgs == 2
  trustedHandlerResolver := methodResolver
  membershipIterFallbackFunction := .membershipFallback
  membershipSequenceFallbackFunction := .membershipFallback
  call := callMethod machine
  runHandler := callHandler machine

/-- How an operator ends, and the heap and the calls made. -/
abbrev OperatorResult (δ : Type) :=
  Option (Final Reference Failure × RunState Reference Method (Heap δ))

def smiOrBoolComparisonValue (word : Value) : Int :=
  (word.integer &&& ~~~valueBooleanTag).toInt

def bothSmiOrBool (a b : Value) : Bool :=
  (a.integer ||| b.integer) &&& valueNotSmiOrBooleanMask == 0#64

/-- The bits in which two words differ, once the tag of the booleans is
cleared. -/
def wordDifference (a b : Value) : BitVec 64 :=
  (a.integer ^^^ b.integer) &&& valueBooleanToIntegerMask

/-- What the comparison instructions answer without a dispatch. -/
def inlineComparison (a b : Value) : Comparison → Option Bool
  | .eq => some (wordDifference a b == 0#64)
  | .ne => some (wordDifference a b != 0#64)
  | op =>
      if bothSmiOrBool a b then
        some (holds (smiOrBoolComparisonValue a) (smiOrBoolComparisonValue b)
          op)
      else none

/-- The operands of a binary operator. -/
def operands (left right : Reference) : Operands Reference :=
  ⟨left, right, left⟩

/-- `op_eq`, `op_ne`, `op_lt`, `op_le`, `op_gt` and `op_ge`. -/
def compareInstruction (op : Comparison) (left right : Reference)
    (heap : Heap δ) : OperatorResult δ :=
  let dispatch := (numberModel machine).runOperator op.tableId
    (operands left right) ⟨heap, []⟩
  match left, right with
  | .inline a, .inline b =>
      match inlineComparison a b op with
      | some truth => some (.truth truth, ⟨heap, []⟩)
      | none => dispatch
  | _, _ => dispatch

/-- `op_truediv_dispatch` -/
def opTrueDiv (left right : Reference) (heap : Heap δ) : OperatorResult δ :=
  (numberModel machine).runOperator .trueDiv (operands left right) ⟨heap, []⟩

end Model

end CloverVM.BuiltinTypes.NumberOperators
