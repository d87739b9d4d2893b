import CloverVM.Runtime.BuiltinException
import CloverVM.Runtime.OperatorTables

/-!
# Walking an operator dispatch table

`walk_operator_table` steps through a dispatch table from a given row: it
looks up the row's method on the receiver's class, asks the trusted-handler
resolver of the function it finds, and stops at the first row that calls a
function, calls a trusted handler, or ends the operator.  A called function
that returns `NotImplemented` resumes the walk at the row after its own.

Classes, functions, values and the world they live in are parameters.  Method
lookups read the current world, since a method may change classes before it
returns.
-/

namespace CloverVM.Runtime.OperatorWalk

open CloverVM.Runtime.OperatorTables

/-- What a lookup on a class finds: a function, which binds the receiver; a
value whose type has `__get__`; or any other value. -/
inductive ClassAttribute (F : Type) where
  | function (f : F)
  | descriptorGet
  | other
deriving DecidableEq

inductive OperandOrder where
  | normal
  | reflected
deriving DecidableEq, Repr

inductive TrustedHandlerArity where
  | unary
  | binary
  | ternary
deriving DecidableEq, Repr

/-- The answer of a trusted-handler resolver. -/
inductive TrustedResolution (H : Type) where
  | noTrustedHandlerCallUntrusted
  | trustedHandler (handler : H)
  | knownNotImplementedSkipMethod

/-- How a method call ends. -/
inductive Outcome (V E : Type) where
  | value (v : V)
  | notImplemented
  | exception (e : E)

/-- The classes `C`, values `V`, functions `F`, trusted handlers `H`,
exceptions `E`, worlds `W` and shape keys `K` of a running program. -/
structure ObjectModel (C V F H E W K : Type) where
  classOf : W → V → C
  mro : W → C → List C
  presentAttribute : W → C → String → Option (ClassAttribute F)
  shapeKey : W → V → K
  isTuple : W → V → Bool
  acceptsPositionalOnlyCallArity : F → Nat → Bool
  trustedHandlerResolver : F →
    Option (K → K → OperandOrder → TrustedHandlerArity → TrustedResolution H)
  membershipIterFallbackFunction : F
  membershipSequenceFallbackFunction : F
  call : F → List V → W → Outcome V E × W
  runHandler : H → List V → W → Outcome V E × W

/-- The operands of an operator; the third is used by ternary actions only. -/
structure Operands (V : Type) where
  operand0 : V
  operand1 : V
  operand2 : V

/-- What one call of the walk ends with. -/
inductive WalkDescriptor (V F H : Type) where
  | callUntrustedFunction (resumeIndex : Nat) (function : F) (args : List V)
  | callTrustedHandler (handler : H) (args : List V)
  | nativeResult (truth : Bool)
  | propagatePendingException (e : BuiltinException)
  | tableExhausted

/-- What one row does: not apply, or stop the walk. -/
inductive RowResult (V F H : Type) where
  | failedApplicability
  | callUntrusted (function : F) (args : List V)
  | callTrusted (handler : H) (args : List V)
  | native (truth : Bool)
  | raise (e : BuiltinException)

section Walk

variable {C V F H E W K : Type} [DecidableEq C] [DecidableEq V]

namespace ObjectModel

variable (m : ObjectModel C V F H E W K)

/-- The first class of an MRO that has the attribute provides it. -/
def lookupChain (w : W) (chain : List C) (name : String) :
    Option (ClassAttribute F) :=
  chain.findSome? fun c => m.presentAttribute w c name

/-- `resolve_special_method_read_descriptor`: the receiver's own attributes
are not consulted. -/
def resolveSpecialMethod (w : W) (receiver : V) (name : String) :
    Option (ClassAttribute F) :=
  m.lookupChain w (m.mro w (m.classOf w receiver)) name

/-- `resolve_reflected_priority_special_method_read_descriptor`: only the
classes before the alternate's class in the receiver's MRO are searched. -/
def resolveReflectedPrioritySpecialMethod (w : W) (receiver alternate : V)
    (name : String) : Option (ClassAttribute F) :=
  let receiverClass := m.classOf w receiver
  let alternateClass := m.classOf w alternate
  if receiverClass = alternateClass then none
  else
    let mro := m.mro w receiverClass
    if alternateClass ∈ mro then
      m.lookupChain w (mro.takeWhile (· ≠ alternateClass)) name
    else none

def isSubclassOf (w : W) (cls base : C) : Prop :=
  cls = base ∨ base ∈ m.mro w cls

instance (w : W) (cls base : C) : Decidable (m.isSubclassOf w cls base) :=
  inferInstanceAs (Decidable (_ ∨ _))

/-- `resolve_applicable_operator_method`. -/
def resolveApplicableOperatorMethod (w : W) (step : OperatorStep)
    (receiver : V) (ops : Operands V) : Option (ClassAttribute F) :=
  match step.applicability with
  | .always => m.resolveSpecialMethod w receiver step.dunderName
  | .ifMethodFound => m.resolveSpecialMethod w receiver step.dunderName
  | .ifMethodFoundAndOperands01TypesDiffer =>
      if m.classOf w ops.operand0 = m.classOf w ops.operand1 then none
      else m.resolveSpecialMethod w receiver step.dunderName
  | .ifArithmeticReflectedPriority =>
      m.resolveReflectedPrioritySpecialMethod w receiver ops.operand0
        step.dunderName
  | .ifRichComparisonReflectedPriority =>
      let leftClass := m.classOf w ops.operand0
      let rightClass := m.classOf w ops.operand1
      if leftClass = rightClass ∨ ¬ m.isSubclassOf w rightClass leftClass then
        none
      else m.resolveSpecialMethod w receiver step.dunderName

/-- The function to call for a found attribute, with the receiver as its
first argument. -/
def callTarget (attr : ClassAttribute F) (nArgs : Nat) :
    Except BuiltinException F :=
  match attr with
  | .descriptorGet =>
      .error ⟨"TypeError", "descriptor __get__ requires interpreter dispatch"⟩
  | .other => .error ⟨"TypeError", "object is not callable"⟩
  | .function f =>
      if m.acceptsPositionalOnlyCallArity f nArgs then .ok f
      else .error ⟨"TypeError", "wrong number of arguments"⟩

/-- The resolver's answer for a function, none when it has no resolver. -/
def resolveTrusted (w : W) (f : F) (ops : Operands V) (order : OperandOrder)
    (arity : TrustedHandlerArity) : TrustedResolution H :=
  match m.trustedHandlerResolver f with
  | none => .noTrustedHandlerCallUntrusted
  | some resolver =>
      resolver (m.shapeKey w ops.operand0) (m.shapeKey w ops.operand1) order
        arity

/-- The error of an operator no method implements. -/
def raiseUnsupportedError (w : W) (tableId : OperatorDispatchTableId)
    (operand0 : V) : BuiltinException :=
  let message :=
    match tableId with
    | .add => "unsupported operand type(s) for +"
    | .sub => "unsupported operand type(s) for -"
    | .mul => "unsupported operand type(s) for *"
    | .matMul => "unsupported operand type(s) for @"
    | .binaryPow | .ternaryPow => "unsupported operand type(s) for **"
    | .trueDiv => "unsupported operand type(s) for /"
    | .floorDiv => "unsupported operand type(s) for //"
    | .mod => "unsupported operand type(s) for %"
    | .lShift | .rShift => "unsupported operand type(s) for shift"
    | .and => "unsupported operand type(s) for &"
    | .xor => "unsupported operand type(s) for ^"
    | .or => "unsupported operand type(s) for |"
    | .neg | .pos | .invert =>
        "unsupported operand type for unary arithmetic"
    | .getItem => "object is not subscriptable"
    | .setItem =>
        if m.isTuple w operand0 then
          "'tuple' object does not support item assignment"
        else "object is not subscriptable"
    | .delItem =>
        if m.isTuple w operand0 then
          "'tuple' object does not support item deletion"
        else "object is not subscriptable"
    -- the comparison and membership tables have no such row
    | .compareEq | .compareNe | .compareLt | .compareLe | .compareGt
    | .compareGe | .contains => ""
  ⟨"TypeError", message⟩

/-- The arguments a call row passes, receiver first. -/
def callArguments (ops : Operands V) : OperatorStepAction → List V
  | .callUnary => [ops.operand0]
  | .callBinary => [ops.operand0, ops.operand1]
  | .callBinaryReflected => [ops.operand1, ops.operand0]
  | .callTernary => [ops.operand0, ops.operand1, ops.operand2]
  | .callTernaryReflected => [ops.operand1, ops.operand0, ops.operand2]
  | _ => [ops.operand0, ops.operand1]

/-- The operands a trusted handler takes, always in source order. -/
def handlerArguments (ops : Operands V) : TrustedHandlerArity → List V
  | .unary => [ops.operand0]
  | .binary => [ops.operand0, ops.operand1]
  | .ternary => [ops.operand0, ops.operand1, ops.operand2]

/-- A row that calls a method. -/
def walkCallRow (w : W) (step : OperatorStep) (arity : TrustedHandlerArity)
    (ops : Operands V) : RowResult V F H :=
  let reflected := step.action.isReflected
  let order := if reflected then .reflected else .normal
  let receiver := if reflected then ops.operand1 else ops.operand0
  let args := callArguments ops step.action
  match m.resolveApplicableOperatorMethod w step receiver ops with
  | none => .failedApplicability
  | some attr =>
      match m.callTarget attr args.length with
      | .error e => .raise e
      | .ok f =>
          match m.resolveTrusted w f ops order arity with
          | .noTrustedHandlerCallUntrusted => .callUntrusted f args
          | .trustedHandler handler =>
              .callTrusted handler (handlerArguments ops arity)
          | .knownNotImplementedSkipMethod => .failedApplicability

/-- A row that calls one of the membership fallback functions. -/
def walkMembershipFallbackRow (w : W) (step : OperatorStep) (f : F)
    (ops : Operands V) : RowResult V F H :=
  match m.resolveApplicableOperatorMethod w step ops.operand0 ops with
  | none => .failedApplicability
  | some _ =>
      if m.acceptsPositionalOnlyCallArity f 2 then
        .callUntrusted f [ops.operand0, ops.operand1]
      else .raise ⟨"TypeError", "wrong number of arguments"⟩

/-- One row of the walk. -/
def walkRow (w : W) (tableId : OperatorDispatchTableId) (ops : Operands V)
    (step : OperatorStep) : RowResult V F H :=
  match step.action with
  | .identityEq => .native (decide (ops.operand0 = ops.operand1))
  | .identityNe => .native (decide (ops.operand0 ≠ ops.operand1))
  | .raiseOrdering =>
      .raise ⟨"TypeError", "unsupported operand type(s) for comparison"⟩
  | .raiseUnsupported =>
      .raise (m.raiseUnsupportedError w tableId ops.operand0)
  | .callIterMembershipFallback =>
      m.walkMembershipFallbackRow w step m.membershipIterFallbackFunction ops
  | .callSequenceMembershipFallback =>
      m.walkMembershipFallbackRow w step m.membershipSequenceFallbackFunction
        ops
  | .callUnary => m.walkCallRow w step .unary ops
  | .callBinary => m.walkCallRow w step .binary ops
  | .callBinaryReflected => m.walkCallRow w step .binary ops
  | .callTernary => m.walkCallRow w step .ternary ops
  | .callTernaryReflected => m.walkCallRow w step .ternary ops

/-- The walk over the rows from `index` on, of which the next `skip` are
passed over. -/
def walkRows (w : W) (tableId : OperatorDispatchTableId) (ops : Operands V) :
    List OperatorStep → (skip index : Nat) → WalkDescriptor V F H
  | [], _, _ => .tableExhausted
  | _ :: rest, skip + 1, index => walkRows w tableId ops rest skip (index + 1)
  | step :: rest, 0, index =>
      match m.walkRow w tableId ops step with
      | .failedApplicability =>
          walkRows w tableId ops rest step.elseSkip (index + 1)
      | .callUntrusted f args => .callUntrustedFunction (index + 1) f args
      | .callTrusted handler args => .callTrustedHandler handler args
      | .native truth => .nativeResult truth
      | .raise e => .propagatePendingException e

/-- `walk_operator_table`. -/
def walkOperatorTable (w : W) (tableId : OperatorDispatchTableId)
    (startIndex : Nat) (ops : Operands V) : WalkDescriptor V F H :=
  m.walkRows w tableId ops ((operatorDispatchTable tableId).drop startIndex) 0
    startIndex

end ObjectModel

/-! ## Running an operator -/

/-- A method call the operator made: the function and its arguments, receiver
first. -/
structure Call (V F : Type) where
  function : F
  args : List V
deriving DecidableEq

/-- The world and the calls made so far. -/
structure RunState (V F W : Type) where
  world : W
  trace : List (Call V F)
deriving DecidableEq

/-- How an operator ends. -/
inductive Final (V E : Type) where
  | value (v : V)
  | truth (b : Bool)
  | exception (e : E)
  | raised (e : BuiltinException)
deriving DecidableEq

namespace ObjectModel

variable (m : ObjectModel C V F H E W K)

/-- Call a method and record the call. -/
def callRecorded (f : F) (args : List V) (s : RunState V F W) :
    Outcome V E × RunState V F W :=
  let (outcome, world) := m.call f args s.world
  (outcome, { world := world, trace := s.trace ++ [⟨f, args⟩] })

/-- Act on a walk's descriptor; a called function that returns
`NotImplemented` continues with `resume`. -/
def dispatchWalkResult
    (resume : Nat → RunState V F W → Option (Final V E × RunState V F W))
    (s : RunState V F W) :
    WalkDescriptor V F H → Option (Final V E × RunState V F W)
  | .callUntrustedFunction resumeIndex f args =>
      match m.callRecorded f args s with
      | (.value v, s') => some (.value v, s')
      | (.exception e, s') => some (.exception e, s')
      | (.notImplemented, s') => resume resumeIndex s'
  | .callTrustedHandler handler args =>
      match m.runHandler handler args s.world with
      | (.value v, world) => some (.value v, { s with world := world })
      | (.exception e, world) =>
          some (.exception e, { s with world := world })
      -- excluded by an assertion at the call
      | (.notImplemented, _) => none
  | .nativeResult truth => some (.truth truth, s)
  | .propagatePendingException e => some (.raised e, s)
  | .tableExhausted => none

/-- Walk the table from `index` and resume after each `NotImplemented`, at
most `fuel` times; `none` when the walk runs off the table. -/
def runFrom (tableId : OperatorDispatchTableId) (ops : Operands V) :
    Nat → Nat → RunState V F W → Option (Final V E × RunState V F W)
  | 0, _, _ => none
  | fuel + 1, index, s =>
      m.dispatchWalkResult (runFrom tableId ops fuel) s
        (m.walkOperatorTable s.world tableId index ops)

/-- A reflectable operator, one whose calls return into a `NotImplemented`
check, from its first row. -/
def runOperator (tableId : OperatorDispatchTableId) (ops : Operands V)
    (s : RunState V F W) : Option (Final V E × RunState V F W) :=
  m.runFrom tableId ops ((operatorDispatchTable tableId).length + 1) 0 s

end ObjectModel

end Walk

end CloverVM.Runtime.OperatorWalk
