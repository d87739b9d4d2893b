/-!
# Operator dispatch tables

The dispatch tables the virtual machine installs for its operators: rows of an
action, a method name, a condition under which the row applies, and how many
further rows to skip when it does not.  The rows and the helpers that build
them follow `runtime/operator_dispatch.h` and
`VirtualMachine::initialize_operator_dispatch_tables`.
-/

namespace CloverVM.Runtime.OperatorTables

/-- What a row does once it applies. -/
inductive OperatorStepAction where
  | callBinary
  | callBinaryReflected
  | identityEq
  | identityNe
  | raiseUnsupported
  | raiseOrdering
  | callUnary
  | callTernary
  | callTernaryReflected
  | callIterMembershipFallback
  | callSequenceMembershipFallback
deriving DecidableEq, Repr

/-- Reflected call actions take the receiver from the second operand. -/
def OperatorStepAction.isReflected : OperatorStepAction → Bool
  | .callBinaryReflected => true
  | .callTernaryReflected => true
  | _ => false

/-- When a row applies. -/
inductive OperatorStepApplicability where
  | always
  | ifMethodFound
  | ifMethodFoundAndOperands01TypesDiffer
  | ifArithmeticReflectedPriority
  | ifRichComparisonReflectedPriority
deriving DecidableEq, Repr

inductive OperatorDispatchTableId where
  | compareEq | compareNe | compareLt | compareLe | compareGt | compareGe
  | add | sub | mul | matMul | trueDiv | floorDiv | binaryPow | ternaryPow
  | mod | lShift | rShift | and | xor | or | neg | pos | invert | getItem
  | setItem | delItem | contains
deriving DecidableEq, Repr

/-- One row of a dispatch table; fallback rows have no method name. -/
structure OperatorStep where
  dunderName : String
  action : OperatorStepAction
  applicability : OperatorStepApplicability
  elseSkip : Nat := 0
deriving DecidableEq, Repr

def callBinary (dunderName : String)
    (applicability : OperatorStepApplicability) (elseSkip : Nat := 0) :
    OperatorStep :=
  ⟨dunderName, .callBinary, applicability, elseSkip⟩

def callBinaryReflected (dunderName : String)
    (applicability : OperatorStepApplicability) (elseSkip : Nat := 0) :
    OperatorStep :=
  ⟨dunderName, .callBinaryReflected, applicability, elseSkip⟩

def callUnary (dunderName : String)
    (applicability : OperatorStepApplicability) : OperatorStep :=
  ⟨dunderName, .callUnary, applicability, 0⟩

def callTernary (dunderName : String)
    (applicability : OperatorStepApplicability) : OperatorStep :=
  ⟨dunderName, .callTernary, applicability, 0⟩

def callTernaryReflected (dunderName : String)
    (applicability : OperatorStepApplicability) (elseSkip : Nat := 0) :
    OperatorStep :=
  ⟨dunderName, .callTernaryReflected, applicability, elseSkip⟩

def identityEq : OperatorStep := ⟨"", .identityEq, .always, 0⟩
def identityNe : OperatorStep := ⟨"", .identityNe, .always, 0⟩
def raiseOrdering : OperatorStep := ⟨"", .raiseOrdering, .always, 0⟩
def raiseUnsupported : OperatorStep := ⟨"", .raiseUnsupported, .always, 0⟩

def callIterMembershipFallback (dunderName : String) : OperatorStep :=
  ⟨dunderName, .callIterMembershipFallback, .ifMethodFound, 0⟩

def callSequenceMembershipFallback (dunderName : String) : OperatorStep :=
  ⟨dunderName, .callSequenceMembershipFallback, .ifMethodFound, 0⟩

/-! ## Tables -/

/-- The first three rows try the reflected method first, the last three the
normal one. -/
def binaryArithmeticOperatorTable (normalDunder reflectedDunder : String) :
    List OperatorStep :=
  [ callBinaryReflected reflectedDunder .ifArithmeticReflectedPriority 2
  , callBinary normalDunder .ifMethodFound
  , raiseUnsupported
  , callBinary normalDunder .ifMethodFound
  , callBinaryReflected reflectedDunder .ifMethodFoundAndOperands01TypesDiffer
  , raiseUnsupported ]

def ternaryArithmeticOperatorTable (normalDunder reflectedDunder : String) :
    List OperatorStep :=
  [ callTernaryReflected reflectedDunder .ifArithmeticReflectedPriority 2
  , callTernary normalDunder .ifMethodFound
  , raiseUnsupported
  , callTernary normalDunder .ifMethodFound
  , callTernaryReflected reflectedDunder
      .ifMethodFoundAndOperands01TypesDiffer
  , raiseUnsupported ]

def unaryOperatorTable (dunder : String) : List OperatorStep :=
  [callUnary dunder .ifMethodFound, raiseUnsupported]

def receiverBinaryOperatorTable (dunder : String) : List OperatorStep :=
  [callBinary dunder .ifMethodFound, raiseUnsupported]

def receiverTernaryOperatorTable (dunder : String) : List OperatorStep :=
  [callTernary dunder .ifMethodFound, raiseUnsupported]

def membershipOperatorTable (dunder dunderIter dunderGetitem : String) :
    List OperatorStep :=
  [ callBinary dunder .ifMethodFound
  , callIterMembershipFallback dunderIter
  , callSequenceMembershipFallback dunderGetitem
  , raiseUnsupported ]

def richCompareTable (normalDunder reflectedDunder : String)
    (fallback : OperatorStep) : List OperatorStep :=
  [ callBinaryReflected reflectedDunder .ifRichComparisonReflectedPriority 2
  , callBinary normalDunder .ifMethodFound
  , fallback
  , callBinary normalDunder .ifMethodFound
  , callBinaryReflected reflectedDunder .ifMethodFound
  , fallback ]

/-- The table of each operator. -/
def operatorDispatchTable : OperatorDispatchTableId → List OperatorStep
  | .add => binaryArithmeticOperatorTable "__add__" "__radd__"
  | .sub => binaryArithmeticOperatorTable "__sub__" "__rsub__"
  | .mul => binaryArithmeticOperatorTable "__mul__" "__rmul__"
  | .matMul => binaryArithmeticOperatorTable "__matmul__" "__rmatmul__"
  | .binaryPow => binaryArithmeticOperatorTable "__pow__" "__rpow__"
  | .ternaryPow => ternaryArithmeticOperatorTable "__pow__" "__rpow__"
  | .trueDiv => binaryArithmeticOperatorTable "__truediv__" "__rtruediv__"
  | .floorDiv => binaryArithmeticOperatorTable "__floordiv__" "__rfloordiv__"
  | .mod => binaryArithmeticOperatorTable "__mod__" "__rmod__"
  | .lShift => binaryArithmeticOperatorTable "__lshift__" "__rlshift__"
  | .rShift => binaryArithmeticOperatorTable "__rshift__" "__rrshift__"
  | .and => binaryArithmeticOperatorTable "__and__" "__rand__"
  | .xor => binaryArithmeticOperatorTable "__xor__" "__rxor__"
  | .or => binaryArithmeticOperatorTable "__or__" "__ror__"
  | .neg => unaryOperatorTable "__neg__"
  | .pos => unaryOperatorTable "__pos__"
  | .invert => unaryOperatorTable "__invert__"
  | .getItem => receiverBinaryOperatorTable "__getitem__"
  | .setItem => receiverTernaryOperatorTable "__setitem__"
  | .delItem => receiverBinaryOperatorTable "__delitem__"
  | .contains =>
      membershipOperatorTable "__contains__" "__iter__" "__getitem__"
  | .compareEq => richCompareTable "__eq__" "__eq__" identityEq
  | .compareNe => richCompareTable "__ne__" "__ne__" identityNe
  | .compareLt => richCompareTable "__lt__" "__gt__" raiseOrdering
  | .compareLe => richCompareTable "__le__" "__ge__" raiseOrdering
  | .compareGt => richCompareTable "__gt__" "__lt__" raiseOrdering
  | .compareGe => richCompareTable "__ge__" "__le__" raiseOrdering

end CloverVM.Runtime.OperatorTables
