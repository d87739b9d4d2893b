import CloverVM.Bytecode.Frame
import CloverVM.Jit.ParallelAssignment
import CloverVM.Jit.TransitionProgram

/-!
# Emitting transition programs

A side exit captures the values that the interpreter is to find in its
accumulator and in the slots of its frame.  The emitter has them assigned all at
once, and makes a transfer of each move.
-/

namespace CloverVM.Jit

open CloverVM.Machine
open CloverVM.Bytecode.Frame

/-- The counts of a code object, from which its frame is laid out. -/
structure FrameCounts where
  nParameters : Nat
  nLocals : Nat
  nTemporaries : Nat

namespace FrameCounts

def highestFrameOffset (counts : FrameCounts) : Int :=
  if counts.nParameters = 0 then frameHeaderReturnPcOffset
  else encodeReg (roundUpToAbiAlignment counts.nParameters) 0

/-- `-int32_t(n_locals_ + n_temporaries_)`. -/
def lowestFrameOffset (counts : FrameCounts) : Int :=
  -((counts.nLocals + counts.nTemporaries : Nat) : Int).bmod (2 ^ 32)

end FrameCounts

/-- The order of the captured values: the accumulator, and then the slots of the
frame, from the highest offset down.  The header is among the slots, since
`make_entry_state` asks for its positions and `position_for_frame_offset` stops
at an offset outside the order. -/
structure BytecodeStateOrder extends FrameCounts where
  codeObject : ResumableCode
  header_le : frameHeaderReturnPcOffset ≤ toFrameCounts.highestFrameOffset
  le_header : toFrameCounts.lowestFrameOffset ≤ frameHeaderPreviousFpOffset

namespace BytecodeStateOrder

def accumulatorPosition : Nat := 0
def firstFramePosition : Nat := 1

/-- `size_t(highest - lowest) + 1`. -/
def frameSlotCount (order : BytecodeStateOrder) : Nat :=
  ((order.highestFrameOffset - order.lowestFrameOffset + 1) % 2 ^ 64).toNat

def size (order : BytecodeStateOrder) : Nat :=
  (firstFramePosition + order.frameSlotCount) % 2 ^ 64

def frameOffsetAt (order : BytecodeStateOrder) (position : Nat) :
    Option Int := do
  check (firstFramePosition ≤ position ∧ position < order.size)
  return order.highestFrameOffset -
    ((position - firstFramePosition : Nat) : Int).bmod (2 ^ 32)

end BytecodeStateOrder

inductive ValueRepresentation where
  | none
  | taggedValue
  | f64
  | pointer
  | count
deriving DecidableEq, Repr

def registerClassForRepresentation :
    ValueRepresentation → Option RegisterClass
  | .taggedValue => some .gpr
  | .pointer => some .gpr
  | .f64 => some .simd
  | .none => Option.none
  | .count => Option.none

abbrev InstructionId := Nat

/-- `OperandCountMask`: the operand count of an instruction has fifteen bits. -/
def operandCountMask : Nat := 2 ^ 15 - 1

structure ExitToInterpreter where
  capturedValues : List InstructionId
  resumePcOffset : Nat
  operandCount_le : capturedValues.length ≤ operandCountMask

/-- What the emitter asks of the instructions: whether one is an exit, and the
representation of its value. -/
structure CompilationStorage where
  exitToInterpreter : InstructionId → Option ExitToInterpreter
  valueRepresentation : InstructionId → ValueRepresentation

/-! ## The emitter -/

structure SideExitTransitionEmitter where
  storage : CompilationStorage
  stateOrder : BytecodeStateOrder
  valueLocations : InstructionId → Option TransitionLocation

namespace SideExitTransitionEmitter

variable (emitter : SideExitTransitionEmitter)

def makeAssignment (value : InstructionId) (destination : TransitionLocation) :
    Option (ParallelAssignment TransitionLocation) := do
  let registerClass ← registerClassForRepresentation
    (emitter.storage.valueRepresentation value)
  let source ← emitter.valueLocations value
  return { source, destination, registerClass }

/-- Whether the offset fits in an `int16_t`. -/
def Encodable (frameOffset : Int) : Prop :=
  -2 ^ 15 ≤ frameOffset ∧ frameOffset ≤ int16Max

instance (frameOffset : Int) : Decidable (Encodable frameOffset) :=
  inferInstanceAs (Decidable (_ ∧ _))

def frameLocation (position : Nat) : Option TransitionLocation := do
  let frameOffset ← emitter.stateOrder.frameOffsetAt position
  check (Encodable frameOffset)
  return .stack (Int16.ofInt frameOffset)

/-- The assignments to the slots of the frame, from `position` on. -/
def frameAssignments : Nat → List InstructionId →
    Option (List (ParallelAssignment TransitionLocation))
  | _, [] => some []
  | position, value :: rest => do
      let destination ← emitter.frameLocation position
      let assignment ← emitter.makeAssignment value destination
      let others ← frameAssignments (position + 1) rest
      return assignment :: others

def emplaceTransfers :
    List (OrderedMove TransitionLocation) →
      TransitionProgramBuilder ResumableCode →
      Option (TransitionProgramBuilder ResumableCode)
  | [], builder => some builder
  | move :: rest, builder => do
      let builder ← builder.emplaceTransfer move.destination move.sourceLocation
      emplaceTransfers rest builder

def appendExitToInterpreter (exit : ExitToInterpreter)
    (builder : TransitionProgramBuilder ResumableCode) :
    Option (TransitionProgramBuilder ResumableCode) := do
  check (exit.capturedValues.length = emitter.stateOrder.size)
  let nextScratch := max builder.nextScratchSlot 1
  check (nextScratch ≤ int16Max)
  let moveScratch := TransitionLocation.scratch (Int16.ofNat nextScratch)
  let value ←
    exit.capturedValues[BytecodeStateOrder.accumulatorPosition]?
  let accumulator ← emitter.makeAssignment value (.scratch 0)
  let others ← emitter.frameAssignments BytecodeStateOrder.firstFramePosition
    (exit.capturedValues.drop BytecodeStateOrder.firstFramePosition)
  match orderParallelAssignments (accumulator :: others)
      (fun _ _ => some moveScratch) with
  | some (.ok ordered) => do
      let builder ← emplaceTransfers ordered.result.moves builder
      builder.emplaceResumeInterpreter (some emitter.stateOrder.codeObject)
        exit.resumePcOffset
  | _ => none

def appendInstructions : List InstructionId →
    TransitionProgramBuilder ResumableCode →
    Option (TransitionProgramBuilder ResumableCode)
  | [], builder => some builder
  | id :: rest, builder => do
      let exit ← emitter.storage.exitToInterpreter id
      let builder ← emitter.appendExitToInterpreter exit builder
      appendInstructions rest builder

def build (instructions : List InstructionId) :
    Option (List (TransitionInstruction ResumableCode)) := do
  let builder ← emitter.appendInstructions instructions .make
  builder.finalize

end SideExitTransitionEmitter

end CloverVM.Jit
