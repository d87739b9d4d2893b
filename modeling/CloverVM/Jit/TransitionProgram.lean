import CloverVM.Machine.Assertion

/-!
# Transition programs

A transition program moves words from where compiled code has them to where the
interpreter expects them: a header, transfers between locations, and a last
instruction that resumes the interpreter.  `none` is a call of `fatal` or an
assertion that fails.
-/

namespace CloverVM.Jit

open CloverVM.Machine

inductive TransitionLocationArea where
  | registerFile
  | stack
  | scratch
deriving DecidableEq, Repr

@[ext]
structure TransitionLocation where
  area : TransitionLocationArea
  offset : Int16
deriving DecidableEq

namespace TransitionLocation

def registerFile (index : Int16) : TransitionLocation :=
  ⟨.registerFile, index⟩

def stack (frameOffset : Int16) : TransitionLocation :=
  ⟨.stack, frameOffset⟩

def scratch (index : Int16) : TransitionLocation :=
  ⟨.scratch, index⟩

/-- The offset as a `size_t`. -/
def index (location : TransitionLocation) : Nat :=
  (location.offset.toInt % 2 ^ 64).toNat

/-- The offset as a `uint32_t`. -/
def index32 (location : TransitionLocation) : Nat :=
  (location.offset.toInt % 2 ^ 32).toNat

end TransitionLocation

/-- An instruction of a program that belongs to code of type `Code`.  The other
kinds differ here only in whether they have a result. -/
inductive TransitionInstruction (Code : Type) where
  | beginTransition (scratchSlotCount : Nat)
  | transfer (destination source : TransitionLocation)
  | resumeInterpreter (codeObject : Option Code) (resumePcOffset : Nat)
  | other (hasResult : Bool)

variable {Code : Type}

def hasImplicitOutput : TransitionInstruction Code → Bool
  | .other hasResult => hasResult
  | _ => false

def int16Max : Nat := 2 ^ 15 - 1

/-- The instructions so far: the header, with its number of scratch slots, and
those after it. -/
structure TransitionProgramBuilder (Code : Type) where
  scratchSlotCount : Nat
  body : List (TransitionInstruction Code)

namespace TransitionProgramBuilder

def make : TransitionProgramBuilder Code where
  scratchSlotCount := 0
  body := []

def nextScratchSlot (b : TransitionProgramBuilder Code) : Nat :=
  b.scratchSlotCount

def requireScratchSlot (b : TransitionProgramBuilder Code) (slot : Nat) :
    TransitionProgramBuilder Code :=
  let required := (slot + 1) % 2 ^ 32
  if b.scratchSlotCount < required then
    { b with scratchSlotCount := required }
  else
    b

/-- A transfer needs the scratch slot that it writes. -/
def requireDestination (b : TransitionProgramBuilder Code) :
    TransitionInstruction Code → TransitionProgramBuilder Code
  | .transfer destination _ =>
      if destination.area = .scratch then
        b.requireScratchSlot destination.index32
      else
        b
  | _ => b

def appendInstruction (b : TransitionProgramBuilder Code)
    (instruction : TransitionInstruction Code) :
    Option (TransitionProgramBuilder Code) := do
  let entryIndex := b.body.length + 1
  let b ←
    if hasImplicitOutput instruction then do
      check (entryIndex ≤ int16Max)
      pure (b.requireScratchSlot entryIndex)
    else
      pure b
  let b := b.requireDestination instruction
  return { b with body := b.body ++ [instruction] }

def emplaceTransfer (b : TransitionProgramBuilder Code)
    (destination source : TransitionLocation) :
    Option (TransitionProgramBuilder Code) :=
  b.appendInstruction (.transfer destination source)

def emplaceResumeInterpreter (b : TransitionProgramBuilder Code)
    (codeObject : Option Code) (resumePcOffset : Nat) :
    Option (TransitionProgramBuilder Code) :=
  (b.requireScratchSlot 0).appendInstruction
    (.resumeInterpreter codeObject resumePcOffset)

def instructions (b : TransitionProgramBuilder Code) :
    List (TransitionInstruction Code) :=
  .beginTransition b.scratchSlotCount :: b.body

end TransitionProgramBuilder

def requireInitializedScratch (location : TransitionLocation)
    (initialized : List Bool) : Option Unit :=
  if location.area ≠ .scratch then
    some ()
  else
    check (initialized[location.index]? = some true)

def requireDeclaredScratch (location : TransitionLocation)
    (scratchSlotCount : Nat) : Option Unit :=
  check (¬ (location.area = .scratch ∧ scratchSlotCount ≤ location.index32))

/-- The scratch slots that are initialized after a transfer. -/
def initializedAfter (initialized : List Bool)
    (destination : TransitionLocation) : List Bool :=
  if destination.area = .scratch then
    initialized.set destination.index true
  else
    initialized

/-- The loop over the instructions from `index` on. -/
def verifyFrom (scratchSlotCount : Nat) :
    List Bool → Nat → List (TransitionInstruction Code) → Option Unit
  | _, _, [] => some ()
  | _, _, .beginTransition _ :: _ => none
  | initialized, index, .transfer destination source :: rest => do
      requireInitializedScratch source initialized
      requireDeclaredScratch source scratchSlotCount
      requireDeclaredScratch destination scratchSlotCount
      check (destination.area ≠ .registerFile)
      verifyFrom scratchSlotCount (initializedAfter initialized destination)
        (index + 1) rest
  | initialized, index, .resumeInterpreter codeObject _ :: rest => do
      requireInitializedScratch (.scratch 0) initialized
      check codeObject.isSome
      check rest.isEmpty
      verifyFrom scratchSlotCount initialized (index + 1) rest
  | initialized, index, .other hasResult :: rest => do
      check (hasResult = true)
      check (index < scratchSlotCount)
      verifyFrom scratchSlotCount (initialized.set index true) (index + 1) rest

/-- Whether the last instruction resumes the interpreter. -/
def endsInTerminal (instructions : List (TransitionInstruction Code)) : Bool :=
  match instructions.getLast? with
  | some (.resumeInterpreter ..) => true
  | _ => false

def verifyTransitionProgram :
    List (TransitionInstruction Code) → Option Unit
  | .beginTransition scratchSlotCount :: body => do
      check (body.length ≠ 0)
      verifyFrom scratchSlotCount (List.replicate scratchSlotCount false) 1 body
      check (endsInTerminal body)
  | _ => none

def TransitionProgramBuilder.finalize (b : TransitionProgramBuilder Code) :
    Option (List (TransitionInstruction Code)) := do
  verifyTransitionProgram b.instructions
  return b.instructions

/-! ## Execution -/

def registerFileSlotCount : Nat := 64

/-- A code object, as far as resuming in it goes. -/
structure ResumableCode where
  address : Nat
  code : List UInt8
deriving DecidableEq

section Execution

variable (registerFile : List Word) (slotCount : Nat)

end Execution

end CloverVM.Jit
