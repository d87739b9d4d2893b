import CloverVM.Jit.Instruction

/-!
# Executing a graph

A block is entered with a value for each of its parameters, and runs until a
guard leaves it or its terminator does.  What the compiled code calls, the
floating-point arithmetic and the heap are a parameter.  An instruction has no
execution on operands that its kind is not defined on: SMI arithmetic on
values that are not SMIs, or a shape loaded from a value that is not a
pointer.
-/

namespace CloverVM.Jit

open CloverVM.ObjectModel

/-- The mask of `Value::is_truthy`. -/
def valueTruthyMask : BitVec 64 := 0xffffffffffffffe0#64

def isTruthy (v : Value) : Bool := v.integer &&& valueTruthyMask != 0#64

def valueTrue : Value := ⟨0x24#64⟩
def valueFalse : Value := ⟨0x04#64⟩
def valueNotImplementedWord : Value := ⟨0x25#64⟩

theorem tagOf_of_isSmi {v : Value} (h : v.isSmi = true) : tagOf v = 0#5 := by
  have hMask : v.integer &&& valueNotSmiMask = 0#64 := by
    simpa [Value.isSmi] using h
  have hLow : BitVec.setWidth 5 (v.integer &&& valueNotSmiMask) =
      BitVec.setWidth 5 v.integer := by
    rw [BitVec.setWidth_and]
    exact BitVec.and_allOnes
  rw [tagOf, ← hLow, hMask]
  rfl

theorem tagOf_ofInt (a : Int) : tagOf (Value.ofInt a) = 0#5 :=
  tagOf_of_isSmi (isSmi_ofInt a)

/-- A word with the tag of SMIs. -/
def TaggedValue.ofSmi (v : Value) (h : tagOf v = 0#5) : TaggedValue :=
  ⟨v, by rw [h]; decide⟩

def TaggedValue.ofBool (b : Bool) : TaggedValue :=
  ⟨if b then valueTrue else valueFalse, by cases b <;> decide⟩

inductive ProgramValue where
  | tagged (v : TaggedValue)
  | f64 (bits : BitVec 64)
  | pointer (address : BitVec 64)
deriving DecidableEq

def ProgramValue.representation : ProgramValue → Representation
  | .tagged _ => .taggedValue
  | .f64 _ => .f64
  | .pointer _ => .pointer

structure Snapshot where
  resumePcOffset : Nat
  capturedValues : List ProgramValue
deriving DecidableEq

/-- What a definition stands for when the code runs. -/
inductive DefinitionValue where
  | program (v : ProgramValue)
  | snapshot (s : Snapshot)
deriving DecidableEq

def DefinitionValue.program? : DefinitionValue → Option ProgramValue
  | .program v => some v
  | .snapshot _ => none

def DefinitionValue.tagged? : DefinitionValue → Option TaggedValue
  | .program (.tagged v) => some v
  | _ => none

/-- The ways out of the compiled code. -/
inductive Exit where
  | snapshot (s : Snapshot)
  | sideExit (region : SideExitRegionId) (arguments : List ProgramValue)
  | returned (values : List ProgramValue)
deriving DecidableEq

/-! ## The runtime -/

/-- The shapes of objects.  Those marked immutable stay with their object. -/
structure Shapes (Shape : Type) where
  isImmutable : Shape → Bool
  /-- The root shape of the instances of the float class. -/
  floatShape : Shape
  floatShape_isImmutable : isImmutable floatShape = true

/-- An object with an immutable shape keeps it: `set_shape` asserts so, and
floats never change theirs.  The word of a pointer is the name of an object
here: an object that the collector lets take the address of another one has a
word of its own. -/
def KeepsShapes {Shape World : Type} (shapes : Shapes Shape)
    (shapeOf : World → Value → Shape) (world next : World) : Prop :=
  ∀ v, isPtr v = true → shapes.isImmutable (shapeOf world v) = true →
    shapeOf next v = shapeOf world v

/-- What compiled code uses of the rest of the system. -/
structure Runtime (Shape Cell Handler World : Type) extends Shapes Shape where
  shapeOf : World → Value → Shape
  isValid : World → Cell → Bool
  boxF64 : World → BitVec 64 → TaggedValue × World
  unboxF64 : World → Value → Option (BitVec 64)
  negF64 : BitVec 64 → BitVec 64
  binaryArithmeticF64 :
    BinaryArithmeticF64 → BitVec 64 → BitVec 64 → BitVec 64
  binaryComparisonF64 : BinaryComparison → BitVec 64 → BitVec 64 → Bool
  /-- The value that stands for a slot that has not been written. -/
  uninitialized : World → TaggedValue
  saveLinkRegisterToFrame : World → World
  restoreLinkRegisterFromFrame : World → World
  trustedHandlerCall :
    World → Handler → List TaggedValue → Option (TaggedValue × World)
  pythonCall :
    World → Nat → TaggedValue → List TaggedValue →
      Option (TaggedValue × World)
  isPtr_boxF64 : ∀ world bits,
    isPtr (boxF64 world bits).1.value = true
  shapeOf_boxF64 : ∀ world bits,
    shapeOf (boxF64 world bits).2 (boxF64 world bits).1.value = floatShape
  boxF64_keeps : ∀ world bits,
    KeepsShapes toShapes shapeOf world (boxF64 world bits).2
  saveLinkRegisterToFrame_keeps : ∀ world,
    KeepsShapes toShapes shapeOf world (saveLinkRegisterToFrame world)
  restoreLinkRegisterFromFrame_keeps : ∀ world,
    KeepsShapes toShapes shapeOf world (restoreLinkRegisterFromFrame world)
  trustedHandlerCall_keeps : ∀ world handler arguments result next,
    trustedHandlerCall world handler arguments = some (result, next) →
      KeepsShapes toShapes shapeOf world next
  pythonCall_keeps : ∀ world pc callable arguments result next,
    pythonCall world pc callable arguments = some (result, next) →
      KeepsShapes toShapes shapeOf world next

def BinaryArithmeticSmi.apply : BinaryArithmeticSmi → Int → Int → Int
  | .addSmi, lhs, rhs => lhs + rhs
  | .subSmi, lhs, rhs => lhs - rhs
  | .mulSmi, lhs, rhs => lhs * rhs

def BinaryLogicalSmi.apply :
    BinaryLogicalSmi → BitVec 64 → BitVec 64 → BitVec 64
  | .andSmi, lhs, rhs => lhs &&& rhs
  | .orrSmi, lhs, rhs => lhs ||| rhs
  | .eorSmi, lhs, rhs => lhs ^^^ rhs

def BinaryComparison.apply : BinaryComparison → Int → Int → Bool
  | .equal, lhs, rhs => lhs == rhs
  | .notEqual, lhs, rhs => lhs != rhs
  | .less, lhs, rhs => decide (lhs < rhs)
  | .lessEqual, lhs, rhs => decide (lhs ≤ rhs)
  | .greater, lhs, rhs => decide (lhs > rhs)
  | .greaterEqual, lhs, rhs => decide (lhs ≥ rhs)

def IsComparison.apply : IsComparison → Value → Value → Bool
  | .is, lhs, rhs => lhs == rhs
  | .isNot, lhs, rhs => lhs != rhs

theorem BinaryLogicalSmi.tagOf_apply (subkind : BinaryLogicalSmi)
    {lhs rhs : Value} (hLhs : tagOf lhs = 0#5) (hRhs : tagOf rhs = 0#5) :
    tagOf ⟨subkind.apply lhs.integer rhs.integer⟩ = 0#5 := by
  simp only [tagOf] at hLhs hRhs ⊢
  cases subkind with
  | andSmi => rw [apply, BitVec.setWidth_and, hLhs, hRhs]; rfl
  | orrSmi => rw [apply, BitVec.setWidth_or, hLhs, hRhs]; rfl
  | eorSmi => rw [apply, BitVec.setWidth_xor, hLhs, hRhs]; rfl

/-- The code goes on, or leaves. -/
inductive Flow (World α : Type) where
  | next (result : α) (world : World)
  | exit (e : Exit) (world : World)
deriving DecidableEq

section Execution

variable {Shape Cell Handler World : Type} [DecidableEq Shape]

/-- A guard hands its value on, or leaves. -/
def guardFlow (passes : Bool) (v : TaggedValue) (e : Exit) (world : World) :
    Flow World (Option DefinitionValue) :=
  if passes then .next (some (.program (.tagged v))) world else .exit e world

/-- The shape is loaded from a pointer only. -/
def shapeGuardPasses (R : Runtime Shape Cell Handler World) (world : World)
    (expectedShape : Shape) (v : Value) : ShapeGuardSubkind → Option Bool
  | .pointerAndShapeGuard =>
      some (isPtr v && R.shapeOf world v == expectedShape)
  | .shapeOnlyGuard =>
      if isPtr v then some (R.shapeOf world v == expectedShape) else none

/-- The sum, the difference or the product, or an exit on overflow. -/
def arithmeticSmiFlow (subkind : BinaryArithmeticSmi) (lhs rhs : Value)
    (e : Exit) (world : World) :
    Option (Flow World (Option DefinitionValue)) :=
  if lhs.isSmi && rhs.isSmi then
    let result := subkind.apply lhs.smi rhs.smi
    if SmiRange result then
      some (.next (some (.program (.tagged
        (.ofSmi (Value.ofInt result) (tagOf_ofInt result))))) world)
    else some (.exit e world)
  else none

def programOperand (representation : Representation) :
    List DefinitionValue → Option ProgramValue
  | [.program v] => if v.representation = representation then some v else none
  | _ => none

def taggedOperand : List DefinitionValue → Option TaggedValue
  | [.program (.tagged v)] => some v
  | _ => none

def f64Operand : List DefinitionValue → Option (BitVec 64)
  | [.program (.f64 bits)] => some bits
  | _ => none

def taggedOperands : List DefinitionValue → Option (TaggedValue × TaggedValue)
  | [.program (.tagged lhs), .program (.tagged rhs)] => some (lhs, rhs)
  | _ => none

def f64Operands : List DefinitionValue → Option (BitVec 64 × BitVec 64)
  | [.program (.f64 lhs), .program (.f64 rhs)] => some (lhs, rhs)
  | _ => none

/-- The value of a guard, and the exit by its snapshot. -/
def guardOperands : List DefinitionValue → Option (TaggedValue × Exit)
  | [.program (.tagged v), .snapshot s] => some (v, .snapshot s)
  | _ => none

/-- The value of a guard, and the exit through its region. -/
def guardOperandsWithSideExit (region : SideExitRegionId) :
    List DefinitionValue → Option (TaggedValue × Exit)
  | .program (.tagged v) :: rest => do
      let arguments ← rest.mapM DefinitionValue.program?
      return (v, .sideExit region arguments)
  | _ => none

def arithmeticOperands :
    List DefinitionValue → Option (TaggedValue × TaggedValue × Exit)
  | [.program (.tagged lhs), .program (.tagged rhs), .snapshot s] =>
      some (lhs, rhs, .snapshot s)
  | _ => none

def arithmeticOperandsWithSideExit (region : SideExitRegionId) :
    List DefinitionValue → Option (TaggedValue × TaggedValue × Exit)
  | .program (.tagged lhs) :: .program (.tagged rhs) :: rest => do
      let arguments ← rest.mapM DefinitionValue.program?
      return (lhs, rhs, .sideExit region arguments)
  | _ => none

def callOperands :
    List DefinitionValue → Option (TaggedValue × List TaggedValue)
  | .program (.tagged callable) :: .snapshot _ :: rest => do
      let arguments ← rest.mapM DefinitionValue.tagged?
      return (callable, arguments)
  | _ => none

def noOperands : List DefinitionValue → Option Unit
  | [] => some ()
  | _ => none

/-! ### One instruction -/

/-- A result, in a heap that has not changed. -/
def resultFlow (v : ProgramValue) (world : World) :
    Flow World (Option DefinitionValue) :=
  .next (some (.program v)) world

/-- One instruction on the values of its operands. -/
def execute (R : Runtime Shape Cell Handler World)
    (kind : InstructionKind Shape Cell Handler)
    (operands : List DefinitionValue) (world : World) :
    Option (Flow World (Option DefinitionValue)) :=
  match kind with
  | .mov representation => do
      let source ← programOperand representation operands
      return resultFlow source world
  | .loadStack representation => do
      let source ← programOperand representation operands
      return resultFlow source world
  | .storeStack representation => do
      let source ← programOperand representation operands
      return resultFlow source world
  | .binaryArithmeticSmiWithSnapshot subkind => do
      let (lhs, rhs, e) ← arithmeticOperands operands
      arithmeticSmiFlow subkind lhs.value rhs.value e world
  | .binaryArithmeticSmiWithSideExit subkind region => do
      let (lhs, rhs, e) ← arithmeticOperandsWithSideExit region operands
      arithmeticSmiFlow subkind lhs.value rhs.value e world
  | .binaryLogicalSmi subkind => do
      let (lhs, rhs) ← taggedOperands operands
      if h : lhs.value.isSmi = true ∧ rhs.value.isSmi = true then
        return resultFlow (.tagged (.ofSmi
          ⟨subkind.apply lhs.value.integer rhs.value.integer⟩
          (subkind.tagOf_apply (tagOf_of_isSmi h.1) (tagOf_of_isSmi h.2))))
          world
      else none
  | .binaryComparisonSmi subkind => do
      let (lhs, rhs) ← taggedOperands operands
      if lhs.value.isSmi && rhs.value.isSmi then
        return resultFlow (.tagged
          (.ofBool (subkind.apply lhs.value.smi rhs.value.smi))) world
      else none
  | .binaryComparisonF64 subkind => do
      let (lhs, rhs) ← f64Operands operands
      return resultFlow (.tagged
        (.ofBool (R.binaryComparisonF64 subkind lhs rhs))) world
  | .isComparison subkind => do
      let (lhs, rhs) ← taggedOperands operands
      return resultFlow (.tagged
        (.ofBool (subkind.apply lhs.value rhs.value))) world
  | .negF64 => do
      let source ← f64Operand operands
      return resultFlow (.f64 (R.negF64 source)) world
  | .binaryArithmeticF64 subkind => do
      let (lhs, rhs) ← f64Operands operands
      return resultFlow (.f64 (R.binaryArithmeticF64 subkind lhs rhs)) world
  | .boxF64 => do
      let source ← f64Operand operands
      return resultFlow (.tagged (R.boxF64 world source).1)
        (R.boxF64 world source).2
  | .unboxF64 => do
      let source ← taggedOperand operands
      let bits ← R.unboxF64 world source.value
      return resultFlow (.f64 bits) world
  | .shapeGuard subkind expectedShape => do
      let (object, e) ← guardOperands operands
      let passes ←
        shapeGuardPasses R world expectedShape object.value subkind
      return guardFlow passes object e world
  | .shapeGuardWithSideExit subkind expectedShape region => do
      let (object, e) ← guardOperandsWithSideExit region operands
      let passes ←
        shapeGuardPasses R world expectedShape object.value subkind
      return guardFlow passes object e world
  | .validityCellGuard validity => do
      let (v, e) ← guardOperands operands
      return guardFlow (R.isValid world validity) v e world
  | .validityCellGuardWithSideExit validity region => do
      let (v, e) ← guardOperandsWithSideExit region operands
      return guardFlow (R.isValid world validity) v e world
  | .inlineTagGuard expectedClass => do
      let (v, e) ← guardOperands operands
      return guardFlow (expectedClass.accepts (tagOf v.value)) v e world
  | .inlineTagGuardWithSideExit expectedClass region => do
      let (v, e) ← guardOperandsWithSideExit region operands
      return guardFlow (expectedClass.accepts (tagOf v.value)) v e world
  | .const constant => do
      noOperands operands
      return resultFlow (.tagged constant) world
  | .uninitialized => do
      noOperands operands
      return resultFlow (.tagged (R.uninitialized world)) world
  | .saveLinkRegisterToFrame => do
      noOperands operands
      return .next none (R.saveLinkRegisterToFrame world)
  | .restoreLinkRegisterFromFrame => do
      noOperands operands
      return .next none (R.restoreLinkRegisterFromFrame world)
  | .trustedHandlerCall handler => do
      let arguments ← operands.mapM DefinitionValue.tagged?
      let (result, next) ← R.trustedHandlerCall world handler arguments
      return resultFlow (.tagged result) next
  | .pythonCall pc => do
      let (callable, arguments) ← callOperands operands
      let (result, next) ← R.pythonCall world pc callable arguments
      return resultFlow (.tagged result) next
  | .checkNotImplemented => do
      let (v, e) ← guardOperands operands
      return guardFlow (v.value != valueNotImplementedWord) v e world
  | .snapshot pc => do
      let capturedValues ← operands.mapM DefinitionValue.program?
      return .next (some (.snapshot ⟨pc, capturedValues⟩)) world

/-! ## Blocks -/

/-- The values of the definitions that a block has made so far. -/
abbrev Environment := InstructionId → Option DefinitionValue

/-- An instruction without a result defines nothing. -/
def Environment.define (ρ : Environment) (id : InstructionId) :
    Option DefinitionValue → Environment
  | none => ρ
  | some v => Function.update ρ id (some v)

def runInstructions (R : Runtime Shape Cell Handler World) :
    List (Instruction Shape Cell Handler) → Environment → World →
      Option (Flow World Environment)
  | [], ρ, world => some (.next ρ world)
  | instruction :: rest, ρ, world => do
      let operands ← instruction.operands.mapM ρ
      match ← execute R instruction.kind operands world with
      | .exit e world => return .exit e world
      | .next result world =>
          runInstructions R rest (ρ.define instruction.id result) world

/-- A value for each parameter, of its representation. -/
def bindParameters :
    List Parameter → List ProgramValue → Option Environment
  | [], [] => some fun _ => none
  | parameter :: parameters, argument :: arguments =>
      if argument.representation = parameter.representation then do
        let ρ ← bindParameters parameters arguments
        return Function.update ρ parameter.id (some (.program argument))
      else none
  | _, _ => none

/-- Where a terminator goes. -/
inductive Destination where
  | edge (edge : BlockEdge)
  | exit (e : Exit)
deriving DecidableEq

def TerminatorKind.execute :
    TerminatorKind → List DefinitionValue → Option Destination
  | .resumeInInterpreter, [.snapshot s] => some (.exit (.snapshot s))
  | .resumeInInterpreterWithSideExit region, operands => do
      let arguments ← operands.mapM DefinitionValue.program?
      return .exit (.sideExit region arguments)
  | .conditionalBranch trueEdge falseEdge, [.program (.tagged condition)] =>
      some (.edge (if isTruthy condition.value then trueEdge else falseEdge))
  | .unconditionalBranch edge, [] => some (.edge edge)
  | .bareReturn, [.program v] => some (.exit (.returned [v]))
  | .ret, [.program v, .program frame, .program code, .program pc] =>
      some (.exit (.returned [v, frame, code, pc]))
  | _, _ => none

/-- A block with the values of its parameters. -/
structure BlockEntry (World : Type) where
  block : Nat
  arguments : List ProgramValue
  world : World
deriving DecidableEq

inductive ExecutionState (World : Type) where
  | running (entry : BlockEntry World)
  | exited (e : Exit) (world : World)
deriving DecidableEq

/-- The terminator, with what the block has defined. -/
def runTerminator (terminator : Terminator) (ρ : Environment)
    (world : World) : Option (ExecutionState World) := do
  let operands ← terminator.operands.mapM ρ
  match ← terminator.kind.execute operands with
  | .exit e => return .exited e world
  | .edge edge =>
      let values ← edge.arguments.mapM ρ
      let arguments ← values.mapM DefinitionValue.program?
      return .running ⟨edge.target, arguments, world⟩

def runBlock (R : Runtime Shape Cell Handler World)
    (block : Block Shape Cell Handler) (arguments : List ProgramValue)
    (world : World) : Option (ExecutionState World) := do
  let ρ ← bindParameters block.parameters arguments
  match ← runInstructions R block.instructions ρ world with
  | .exit e world => return .exited e world
  | .next ρ world => runTerminator block.terminator ρ world

/-- At most `n` blocks. -/
def run (R : Runtime Shape Cell Handler World)
    (graph : Graph Shape Cell Handler) :
    Nat → BlockEntry World → Option (ExecutionState World)
  | 0, entry => some (.running entry)
  | n + 1, entry => do
      let block ← graph.blocks[entry.block]?
      match ← runBlock R block entry.arguments entry.world with
      | .exited e world => return .exited e world
      | .running next => run R graph n next

end Execution

end CloverVM.Jit
