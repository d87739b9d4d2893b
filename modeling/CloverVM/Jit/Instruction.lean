import CloverVM.Jit.TaggedValueFacts
import CloverVM.Jit.TransitionProgramEmitter

/-!
# The instructions of the compiler

A graph is a list of blocks, the first of which is its entry.  A block has
parameters, instructions, and a terminator whose edges pass arguments to the
parameters of their targets.  An operand is the id of a definition, and a
definition is used in its own block only.

The schema says of each kind of instruction what its result is, what its
operands have to be, and whether its result is its first operand.
-/

namespace CloverVM.Jit

open CloverVM.ObjectModel

/-! ## The schema -/

/-- The representations that a program value can have. -/
inductive Representation where
  | taggedValue
  | f64
  | pointer
deriving DecidableEq, Repr

/-- The class of a result, and its representation where it is a program
value. -/
inductive ResultClass where
  | none
  | programValue (representation : Representation)
  | snapshot
deriving DecidableEq, Repr

/-- What an operand has to refer to; `any` stands for a program value of any
representation. -/
inductive OperandClass where
  | programValue (representation : Representation)
  | any
  | snapshot
deriving DecidableEq, Repr

/-- `representation_matches`, together with the comparison of the classes. -/
def OperandClass.matches : OperandClass → ResultClass → Bool
  | .programValue required, .programValue representation =>
      required == representation
  | .any, .programValue _ => true
  | .snapshot, .snapshot => true
  | _, _ => false

inductive ResultDefinitionKind where
  | noDef
  | plainDef
  | forwardingDef
deriving DecidableEq, Repr

inductive BinaryArithmeticSmi where
  | addSmi
  | subSmi
  | mulSmi
deriving DecidableEq, Repr

inductive BinaryLogicalSmi where
  | andSmi
  | orrSmi
  | eorSmi
deriving DecidableEq, Repr

inductive BinaryComparison where
  | equal
  | notEqual
  | less
  | lessEqual
  | greater
  | greaterEqual
deriving DecidableEq, Repr

inductive IsComparison where
  | is
  | isNot
deriving DecidableEq, Repr

inductive BinaryArithmeticF64 where
  | addF64
  | subF64
  | mulF64
  | divF64
deriving DecidableEq, Repr

inductive ShapeGuardSubkind where
  | pointerAndShapeGuard
  | shapeOnlyGuard
deriving DecidableEq, Repr

abbrev SideExitRegionId := Nat

/-- The kinds of instruction in the body of a block, with their attributes. -/
inductive InstructionKind (Shape Cell Handler : Type) where
  | mov (representation : Representation)
  | loadStack (representation : Representation)
  | storeStack (representation : Representation)
  | binaryArithmeticSmiWithSnapshot (subkind : BinaryArithmeticSmi)
  | binaryArithmeticSmiWithSideExit (subkind : BinaryArithmeticSmi)
      (sideExitRegion : SideExitRegionId)
  | binaryLogicalSmi (subkind : BinaryLogicalSmi)
  | binaryComparisonSmi (subkind : BinaryComparison)
  | binaryComparisonF64 (subkind : BinaryComparison)
  | isComparison (subkind : IsComparison)
  | negF64
  | binaryArithmeticF64 (subkind : BinaryArithmeticF64)
  | boxF64
  | unboxF64
  | shapeGuard (subkind : ShapeGuardSubkind) (expectedShape : Shape)
  | shapeGuardWithSideExit (subkind : ShapeGuardSubkind)
      (expectedShape : Shape) (sideExitRegion : SideExitRegionId)
  | validityCellGuard (validity : Cell)
  | validityCellGuardWithSideExit (validity : Cell)
      (sideExitRegion : SideExitRegionId)
  | inlineTagGuard (expectedClass : TaggedValueClass)
  | inlineTagGuardWithSideExit (expectedClass : TaggedValueClass)
      (sideExitRegion : SideExitRegionId)
  | const (constant : TaggedValue)
  | uninitialized
  | saveLinkRegisterToFrame
  | restoreLinkRegisterFromFrame
  | trustedHandlerCall (handler : Handler)
  | pythonCall (interpreterReturnPcOffset : Nat)
  | checkNotImplemented
  | snapshot (resumePcOffset : Nat)
deriving DecidableEq

section Schema

variable {Shape Cell Handler : Type}

namespace InstructionKind

def resultClass : InstructionKind Shape Cell Handler → ResultClass
  | .mov representation => .programValue representation
  | .loadStack representation => .programValue representation
  | .storeStack representation => .programValue representation
  | .binaryArithmeticSmiWithSnapshot _ => .programValue .taggedValue
  | .binaryArithmeticSmiWithSideExit _ _ => .programValue .taggedValue
  | .binaryLogicalSmi _ => .programValue .taggedValue
  | .binaryComparisonSmi _ => .programValue .taggedValue
  | .binaryComparisonF64 _ => .programValue .taggedValue
  | .isComparison _ => .programValue .taggedValue
  | .negF64 => .programValue .f64
  | .binaryArithmeticF64 _ => .programValue .f64
  | .boxF64 => .programValue .taggedValue
  | .unboxF64 => .programValue .f64
  | .shapeGuard _ _ => .programValue .taggedValue
  | .shapeGuardWithSideExit _ _ _ => .programValue .taggedValue
  | .validityCellGuard _ => .programValue .taggedValue
  | .validityCellGuardWithSideExit _ _ => .programValue .taggedValue
  | .inlineTagGuard _ => .programValue .taggedValue
  | .inlineTagGuardWithSideExit _ _ => .programValue .taggedValue
  | .const _ => .programValue .taggedValue
  | .uninitialized => .programValue .taggedValue
  | .saveLinkRegisterToFrame => .none
  | .restoreLinkRegisterFromFrame => .none
  | .trustedHandlerCall _ => .programValue .taggedValue
  | .pythonCall _ => .programValue .taggedValue
  | .checkNotImplemented => .programValue .taggedValue
  | .snapshot _ => .snapshot

def resultDefinitionKind :
    InstructionKind Shape Cell Handler → ResultDefinitionKind
  | .shapeGuard _ _ => .forwardingDef
  | .shapeGuardWithSideExit _ _ _ => .forwardingDef
  | .validityCellGuard _ => .forwardingDef
  | .validityCellGuardWithSideExit _ _ => .forwardingDef
  | .inlineTagGuard _ => .forwardingDef
  | .inlineTagGuardWithSideExit _ _ => .forwardingDef
  | .checkNotImplemented => .forwardingDef
  | .saveLinkRegisterToFrame => .noDef
  | .restoreLinkRegisterFromFrame => .noDef
  | .snapshot _ => .noDef
  | _ => .plainDef

def fixedOperands : InstructionKind Shape Cell Handler → List OperandClass
  | .mov representation => [.programValue representation]
  | .loadStack representation => [.programValue representation]
  | .storeStack representation => [.programValue representation]
  | .binaryArithmeticSmiWithSnapshot _ =>
      [.programValue .taggedValue, .programValue .taggedValue, .snapshot]
  | .binaryArithmeticSmiWithSideExit _ _ =>
      [.programValue .taggedValue, .programValue .taggedValue]
  | .binaryLogicalSmi _ =>
      [.programValue .taggedValue, .programValue .taggedValue]
  | .binaryComparisonSmi _ =>
      [.programValue .taggedValue, .programValue .taggedValue]
  | .binaryComparisonF64 _ => [.programValue .f64, .programValue .f64]
  | .isComparison _ =>
      [.programValue .taggedValue, .programValue .taggedValue]
  | .negF64 => [.programValue .f64]
  | .binaryArithmeticF64 _ => [.programValue .f64, .programValue .f64]
  | .boxF64 => [.programValue .f64]
  | .unboxF64 => [.programValue .taggedValue]
  | .shapeGuard _ _ => [.programValue .taggedValue, .snapshot]
  | .shapeGuardWithSideExit _ _ _ => [.programValue .taggedValue]
  | .validityCellGuard _ => [.programValue .taggedValue, .snapshot]
  | .validityCellGuardWithSideExit _ _ => [.programValue .taggedValue]
  | .inlineTagGuard _ => [.programValue .taggedValue, .snapshot]
  | .inlineTagGuardWithSideExit _ _ => [.programValue .taggedValue]
  | .const _ => []
  | .uninitialized => []
  | .saveLinkRegisterToFrame => []
  | .restoreLinkRegisterFromFrame => []
  | .trustedHandlerCall _ => []
  | .pythonCall _ => [.programValue .taggedValue, .snapshot]
  | .checkNotImplemented => [.programValue .taggedValue, .snapshot]
  | .snapshot _ => []

/-- The class of the operands past the fixed ones, if there may be any. -/
def trailingOperands :
    InstructionKind Shape Cell Handler → Option OperandClass
  | .binaryArithmeticSmiWithSideExit _ _ => some .any
  | .shapeGuardWithSideExit _ _ _ => some .any
  | .validityCellGuardWithSideExit _ _ => some .any
  | .inlineTagGuardWithSideExit _ _ => some .any
  | .trustedHandlerCall _ => some (.programValue .taggedValue)
  | .pythonCall _ => some (.programValue .taggedValue)
  | .snapshot _ => some .any
  | _ => Option.none

end InstructionKind

end Schema

/-! ## Graphs -/

/-- `Parameter`, `ParameterF64` and `ParameterPointer`. -/
structure Parameter where
  id : InstructionId
  representation : Representation
deriving DecidableEq, Repr

structure Instruction (Shape Cell Handler : Type) where
  id : InstructionId
  kind : InstructionKind Shape Cell Handler
  operands : List InstructionId
deriving DecidableEq

/-- An edge is held by the terminator that it leaves from. -/
structure BlockEdge where
  target : Nat
  arguments : List InstructionId
deriving DecidableEq, Repr

inductive TerminatorKind where
  | resumeInInterpreter
  | resumeInInterpreterWithSideExit (sideExitRegion : SideExitRegionId)
  | conditionalBranch (trueEdge falseEdge : BlockEdge)
  | unconditionalBranch (edge : BlockEdge)
  | bareReturn
  | ret
deriving DecidableEq, Repr

namespace TerminatorKind

def fixedOperands : TerminatorKind → List OperandClass
  | .resumeInInterpreter => [.snapshot]
  | .resumeInInterpreterWithSideExit _ => []
  | .conditionalBranch _ _ => [.programValue .taggedValue]
  | .unconditionalBranch _ => []
  | .bareReturn => [.programValue .taggedValue]
  | .ret =>
      [.programValue .taggedValue, .programValue .pointer,
        .programValue .taggedValue, .programValue .pointer]

def trailingOperands : TerminatorKind → Option OperandClass
  | .resumeInInterpreterWithSideExit _ => some .any
  | _ => none

def blockSuccessorEdges : TerminatorKind → List BlockEdge
  | .conditionalBranch trueEdge falseEdge => [trueEdge, falseEdge]
  | .unconditionalBranch edge => [edge]
  | _ => []

/-- The kind with other edges. -/
def mapEdges (f : BlockEdge → BlockEdge) : TerminatorKind → TerminatorKind
  | .conditionalBranch trueEdge falseEdge =>
      .conditionalBranch (f trueEdge) (f falseEdge)
  | .unconditionalBranch edge => .unconditionalBranch (f edge)
  | kind => kind

end TerminatorKind

structure Terminator where
  id : InstructionId
  kind : TerminatorKind
  operands : List InstructionId
deriving DecidableEq, Repr

/-- The terminator is the last instruction of its block and the only one of
its kind, so it has a place of its own. -/
structure Block (Shape Cell Handler : Type) where
  parameters : List Parameter
  instructions : List (Instruction Shape Cell Handler)
  terminator : Terminator
deriving DecidableEq

structure Graph (Shape Cell Handler : Type) where
  blocks : List (Block Shape Cell Handler)
deriving DecidableEq

/-- A definition with its result. -/
structure Definition where
  id : InstructionId
  resultClass : ResultClass
deriving DecidableEq, Repr

def Parameter.definition (parameter : Parameter) : Definition :=
  ⟨parameter.id, .programValue parameter.representation⟩

section Definitions

variable {Shape Cell Handler : Type}

def Instruction.definition (instruction : Instruction Shape Cell Handler) :
    Definition :=
  ⟨instruction.id, instruction.kind.resultClass⟩

namespace Block

variable (block : Block Shape Cell Handler)

def definitions : List Definition :=
  block.parameters.map Parameter.definition ++
    block.instructions.map Instruction.definition

def ids : List InstructionId :=
  block.parameters.map Parameter.id ++
    block.instructions.map Instruction.id ++ [block.terminator.id]

def blockSuccessorEdges : List BlockEdge :=
  block.terminator.kind.blockSuccessorEdges

end Block

def Graph.ids (graph : Graph Shape Cell Handler) : List InstructionId :=
  graph.blocks.flatMap Block.ids

/-- A definition of the class that the operand has to refer to. -/
def available (definitions : List Definition) (required : OperandClass)
    (id : InstructionId) : Bool :=
  definitions.any fun definition =>
    definition.id == id && required.matches definition.resultClass

/-- The operands by the schema: the fixed ones first. -/
def operandsAvailable (definitions : List Definition) :
    List OperandClass → Option OperandClass → List InstructionId → Bool
  | [], _, [] => true
  | [], none, _ :: _ => false
  | [], some required, id :: ids =>
      available definitions required id &&
        operandsAvailable definitions [] (some required) ids
  | _ :: _, _, [] => false
  | required :: fixed, trailing, id :: ids =>
      available definitions required id &&
        operandsAvailable definitions fixed trailing ids

def Instruction.operandsAvailable (definitions : List Definition)
    (instruction : Instruction Shape Cell Handler) : Bool :=
  Jit.operandsAvailable definitions instruction.kind.fixedOperands
    instruction.kind.trailingOperands instruction.operands

def Terminator.operandsAvailable (definitions : List Definition)
    (terminator : Terminator) : Bool :=
  Jit.operandsAvailable definitions terminator.kind.fixedOperands
    terminator.kind.trailingOperands terminator.operands

/-- Each instruction uses what is defined before it. -/
def instructionsAvailable :
    List Definition → List (Instruction Shape Cell Handler) → Bool
  | _, [] => true
  | definitions, instruction :: rest =>
      instruction.operandsAvailable definitions &&
        instructionsAvailable (definitions ++ [instruction.definition]) rest

/-- An argument for each parameter, of its representation. -/
def argumentsAvailable (definitions : List Definition) :
    List InstructionId → List Parameter → Bool
  | [], [] => true
  | argument :: arguments, parameter :: parameters =>
      available definitions (.programValue parameter.representation)
        argument && argumentsAvailable definitions arguments parameters
  | _, _ => false

/-- The checks of the verifier that are about uses.  Those about the level of
the graph, side-exit regions and the index of predecessors are left out. -/
structure Block.Verified (graph : Graph Shape Cell Handler)
    (block : Block Shape Cell Handler) : Prop where
  instructions : instructionsAvailable
    (block.parameters.map Parameter.definition) block.instructions = true
  terminator :
    block.terminator.operandsAvailable block.definitions = true
  edges : ∀ edge ∈ block.blockSuccessorEdges,
    ∃ target, graph.blocks[edge.target]? = some target ∧
      argumentsAvailable block.definitions edge.arguments
        target.parameters = true

/-- A graph that the verifier has passed. -/
structure Graph.Published (graph : Graph Shape Cell Handler) : Prop where
  entry : graph.blocks ≠ []
  nodup : graph.ids.Nodup
  verified : ∀ block ∈ graph.blocks, block.Verified graph

/-! ## What the verifier has found -/

theorem available_iff (definitions : List Definition)
    (required : OperandClass) (id : InstructionId) :
    available definitions required id = true ↔
      ∃ definition ∈ definitions, definition.id = id ∧
        required.matches definition.resultClass = true := by
  rw [available, List.any_eq_true]
  simp only [Bool.and_eq_true, beq_iff_eq]

theorem available_programValue_iff (definitions : List Definition)
    (representation : Representation) (id : InstructionId) :
    available definitions (.programValue representation) id = true ↔
      (⟨id, .programValue representation⟩ : Definition) ∈ definitions := by
  rw [available_iff]
  constructor
  · rintro ⟨⟨_, resultClass⟩, hMem, rfl, hMatches⟩
    cases resultClass with
    | none => cases hMatches
    | snapshot => cases hMatches
    | programValue found =>
        simp only [OperandClass.matches, beq_iff_eq] at hMatches
        subst hMatches
        exact hMem
  · intro hMem
    exact ⟨_, hMem, rfl, by simp [OperandClass.matches]⟩

/-- The first operand, where the schema has one. -/
theorem operandsAvailable_cons {definitions : List Definition}
    {required : OperandClass} {fixed : List OperandClass}
    {trailing : Option OperandClass} {ids : List InstructionId}
    (h : operandsAvailable definitions (required :: fixed) trailing ids =
      true) :
    ∃ id rest, ids = id :: rest ∧
      available definitions required id = true ∧
        operandsAvailable definitions fixed trailing rest = true := by
  cases ids with
  | nil => cases h
  | cons id rest =>
      rw [operandsAvailable, Bool.and_eq_true] at h
      exact ⟨id, rest, rfl, h.1, h.2⟩

/-- An argument of an edge has the representation of its parameter. -/
theorem mem_of_argumentsAvailable {definitions : List Definition} :
    ∀ {arguments : List InstructionId} {parameters : List Parameter},
      argumentsAvailable definitions arguments parameters = true →
        ∀ pair ∈ parameters.zip arguments,
          (⟨pair.2, .programValue pair.1.representation⟩ : Definition) ∈
            definitions := by
  intro arguments
  induction arguments with
  | nil =>
      intro parameters _ pair hPair
      rw [List.zip_nil_right] at hPair
      cases hPair
  | cons argument arguments ih =>
      intro parameters h pair hPair
      cases parameters with
      | nil => cases hPair
      | cons parameter parameters =>
          rw [argumentsAvailable, Bool.and_eq_true] at h
          rw [List.zip_cons_cons, List.mem_cons] at hPair
          rcases hPair with rfl | hPair
          · exact (available_programValue_iff _ _ _).mp h.1
          · exact ih h.2 pair hPair

theorem exists_definition_of_argumentsAvailable
    {definitions : List Definition} :
    ∀ {arguments : List InstructionId} {parameters : List Parameter},
      argumentsAvailable definitions arguments parameters = true →
        ∀ argument ∈ arguments, ∃ representation,
          (⟨argument, .programValue representation⟩ : Definition) ∈
            definitions := by
  intro arguments
  induction arguments with
  | nil =>
      intro parameters _ argument hMem
      cases hMem
  | cons first arguments ih =>
      intro parameters h argument hMem
      cases parameters with
      | nil => cases h
      | cons parameter parameters =>
          rw [argumentsAvailable, Bool.and_eq_true] at h
          rcases List.mem_cons.mp hMem with rfl | hMem
          · exact ⟨_, (available_programValue_iff _ _ _).mp h.1⟩
          · exact ih h.2 argument hMem

theorem OperandClass.ne_none_of_matches {required : OperandClass}
    {resultClass : ResultClass} (h : required.matches resultClass = true) :
    resultClass ≠ .none := by
  rintro rfl
  cases required <;> cases h

/-- Every operand refers to a definition with a result. -/
theorem exists_result_of_operandsAvailable
    {definitions : List Definition} {trailing : Option OperandClass} :
    ∀ {fixed : List OperandClass} {ids : List InstructionId},
      operandsAvailable definitions fixed trailing ids = true →
        ∀ id ∈ ids, ∃ definition ∈ definitions, definition.id = id ∧
          definition.resultClass ≠ .none := by
  intro fixed ids
  induction ids generalizing fixed with
  | nil =>
      intro _ id hId
      cases hId
  | cons first ids ih =>
      intro h id hId
      have hSplit : ∃ required fixed',
          available definitions required first = true ∧
            operandsAvailable definitions fixed' trailing ids = true := by
        cases fixed with
        | cons required fixed =>
            rw [operandsAvailable, Bool.and_eq_true] at h
            exact ⟨required, fixed, h⟩
        | nil =>
            cases trailing with
            | none => cases h
            | some required =>
                rw [operandsAvailable, Bool.and_eq_true] at h
                exact ⟨required, [], h⟩
      obtain ⟨required, fixed', hFirst, hRest⟩ := hSplit
      rcases List.mem_cons.mp hId with rfl | hId
      · obtain ⟨definition, hMem, hEq, hMatches⟩ :=
          (available_iff _ _ _).mp hFirst
        exact ⟨definition, hMem, hEq,
          OperandClass.ne_none_of_matches hMatches⟩
      · exact ih hRest id hId

variable {graph : Graph Shape Cell Handler}

theorem Block.ids_eq (block : Block Shape Cell Handler) :
    block.ids = block.definitions.map Definition.id ++
      [block.terminator.id] := by
  rw [ids, definitions, List.map_append, List.map_map, List.map_map]
  rfl

/-- A definition is at one place. -/
theorem Graph.Published.nodup_ids (h : graph.Published)
    {block : Block Shape Cell Handler} (hBlock : block ∈ graph.blocks) :
    block.ids.Nodup :=
  (List.nodup_flatMap.mp h.nodup).1 block hBlock

theorem Graph.Published.ids_disjoint (h : graph.Published) {i j : Nat}
    {block other : Block Shape Cell Handler}
    (hBlock : graph.blocks[i]? = some block)
    (hOther : graph.blocks[j]? = some other) (hne : i ≠ j)
    {id : InstructionId} (hId : id ∈ block.ids) : id ∉ other.ids := by
  have hPairwise := (List.nodup_flatMap.mp h.nodup).2
  obtain ⟨hi, rfl⟩ := List.getElem?_eq_some_iff.mp hBlock
  obtain ⟨hj, rfl⟩ := List.getElem?_eq_some_iff.mp hOther
  intro hOtherId
  rcases Nat.lt_or_gt_of_ne hne with hLess | hGreater
  · exact List.pairwise_iff_getElem.mp hPairwise i j hi hj hLess hId hOtherId
  · exact List.pairwise_iff_getElem.mp hPairwise j i hj hi hGreater hOtherId
      hId

end Definitions

end CloverVM.Jit
