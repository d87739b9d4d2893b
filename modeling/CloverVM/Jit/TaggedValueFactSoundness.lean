import CloverVM.Jit.TaggedValueFactFixpoint

/-!
# The facts hold of every execution

In every finite execution, each tagged value that a definition has is in the
set that the analysis has for it, and of the shape that the set names.  The
invariant goes from one instruction to the next, over the edges of the
blocks, and from one block to the next.
-/

namespace CloverVM.Jit

open CloverVM.ObjectModel

variable {Shape Cell Handler World : Type} [DecidableEq Shape]

omit [DecidableEq Shape] in
@[simp] theorem resultFlow_eq_next {v : ProgramValue} {world next : World}
    {result : Option DefinitionValue} :
    resultFlow v world = .next result next ↔
      result = some (.program v) ∧ next = world := by
  rw [resultFlow, Flow.next.injEq]
  constructor
  · rintro ⟨rfl, rfl⟩
    exact ⟨rfl, rfl⟩
  · rintro ⟨rfl, rfl⟩
    exact ⟨rfl, rfl⟩

/-- A guard that goes on has passed, and hands its value on. -/
theorem guardFlow_eq_next {passes : Bool} {v : TaggedValue} {e : Exit}
    {world next : World} {result : Option DefinitionValue}
    (h : guardFlow passes v e world = .next result next) :
    passes = true ∧ result = some (.program (.tagged v)) ∧ next = world := by
  rw [guardFlow] at h
  split at h
  · rename_i hPasses
    cases h
    exact ⟨hPasses, rfl, rfl⟩
  · cases h

theorem arithmeticSmiFlow_eq_next {subkind : BinaryArithmeticSmi}
    {lhs rhs : Value} {e : Exit} {world next : World}
    {result : Option DefinitionValue}
    (h : arithmeticSmiFlow subkind lhs rhs e world =
      some (.next result next)) :
    ∃ v : TaggedValue, tagOf v.value = 0#5 ∧
      result = some (.program (.tagged v)) ∧ next = world := by
  rw [arithmeticSmiFlow] at h
  split at h
  · simp only at h
    split at h
    · cases h
      exact ⟨_, tagOf_ofInt _, rfl, rfl⟩
    · cases h
  · cases h

theorem programOperand_eq_some {representation : Representation}
    {operands : List DefinitionValue} {v : ProgramValue}
    (h : programOperand representation operands = some v) :
    operands.head? = some (.program v) ∧
      v.representation = representation := by
  unfold programOperand at h
  split at h
  · split at h
    · rename_i hRepresentation
      cases h
      exact ⟨rfl, hRepresentation⟩
    · cases h
  · cases h

/-- The value of a guard is its first operand. -/
theorem guardOperands_eq_some {operands : List DefinitionValue}
    {v : TaggedValue} {e : Exit} (h : guardOperands operands = some (v, e)) :
    operands.head? = some (.program (.tagged v)) := by
  unfold guardOperands at h
  split at h
  · cases h
    rfl
  · cases h

theorem guardOperandsWithSideExit_eq_some {region : SideExitRegionId}
    {operands : List DefinitionValue} {v : TaggedValue} {e : Exit}
    (h : guardOperandsWithSideExit region operands = some (v, e)) :
    operands.head? = some (.program (.tagged v)) := by
  unfold guardOperandsWithSideExit at h
  split at h
  · obtain ⟨arguments, -, hEq⟩ := Option.bind_eq_some_iff.mp h
    cases hEq
    rfl
  · cases h

/-- A guard of a shape has seen a pointer to an object of the shape. -/
theorem shapeGuardPasses_eq_true {R : Runtime Shape Cell Handler World}
    {world : World} {expectedShape : Shape} {v : Value}
    {subkind : ShapeGuardSubkind}
    (h : shapeGuardPasses R world expectedShape v subkind = some true) :
    isPtr v = true ∧ R.shapeOf world v = expectedShape := by
  cases subkind with
  | pointerAndShapeGuard =>
      simpa [shapeGuardPasses] using h
  | shapeOnlyGuard =>
      rw [shapeGuardPasses] at h
      split at h
      · rename_i hPtr
        exact ⟨hPtr, by simpa using h⟩
      · cases h

section Effects

variable {R : Runtime Shape Cell Handler World}

omit [DecidableEq Shape] in
theorem keepsShapes_refl (R : Runtime Shape Cell Handler World)
    (world : World) : KeepsShapes R.toShapes R.shapeOf world world :=
  fun _ _ _ => rfl

/-- Only boxes, calls and the link register change the heap. -/
theorem execute_keeps {kind : InstructionKind Shape Cell Handler}
    {operands : List DefinitionValue} {world next : World}
    {result : Option DefinitionValue}
    (h : execute R kind operands world = some (.next result next)) :
    KeepsShapes R.toShapes R.shapeOf world next := by
  have hRefl := keepsShapes_refl R world
  cases kind <;>
    simp only [execute, Option.bind_eq_bind, Option.bind_eq_some_iff,
      Option.pure_def, Option.some.injEq, resultFlow_eq_next] at h
  case mov | loadStack | storeStack | negF64 | const | uninitialized =>
    obtain ⟨_, _, _, rfl⟩ := h
    exact hRefl
  case binaryComparisonF64 | isComparison | binaryArithmeticF64 =>
    obtain ⟨⟨_, _⟩, _, _, rfl⟩ := h
    exact hRefl
  case unboxF64 =>
    obtain ⟨_, _, _, _, _, rfl⟩ := h
    exact hRefl
  case binaryArithmeticSmiWithSnapshot | binaryArithmeticSmiWithSideExit =>
    obtain ⟨⟨_, _, _⟩, _, hFlow⟩ := h
    obtain ⟨_, _, _, rfl⟩ := arithmeticSmiFlow_eq_next hFlow
    exact hRefl
  case binaryLogicalSmi | binaryComparisonSmi =>
    obtain ⟨⟨_, _⟩, _, hIf⟩ := h
    split at hIf
    · simp only [Option.some.injEq, resultFlow_eq_next] at hIf
      obtain ⟨_, rfl⟩ := hIf
      exact hRefl
    · cases hIf
  case shapeGuard | shapeGuardWithSideExit =>
    obtain ⟨⟨_, _⟩, _, _, _, hFlow⟩ := h
    obtain ⟨_, _, rfl⟩ := guardFlow_eq_next hFlow
    exact hRefl
  case validityCellGuard | validityCellGuardWithSideExit | inlineTagGuard |
      inlineTagGuardWithSideExit | checkNotImplemented =>
    obtain ⟨⟨_, _⟩, _, hFlow⟩ := h
    obtain ⟨_, _, rfl⟩ := guardFlow_eq_next hFlow
    exact hRefl
  case snapshot =>
    obtain ⟨_, _, hFlow⟩ := h
    cases hFlow
    exact hRefl
  case boxF64 =>
    obtain ⟨bits, _, _, rfl⟩ := h
    exact R.boxF64_keeps world bits
  case saveLinkRegisterToFrame =>
    obtain ⟨_, _, hFlow⟩ := h
    cases hFlow
    exact R.saveLinkRegisterToFrame_keeps world
  case restoreLinkRegisterFromFrame =>
    obtain ⟨_, _, hFlow⟩ := h
    cases hFlow
    exact R.restoreLinkRegisterFromFrame_keeps world
  case trustedHandlerCall handler =>
    obtain ⟨arguments, _, ⟨_, _⟩, hCall, _, rfl⟩ := h
    exact R.trustedHandlerCall_keeps world handler arguments _ _ hCall
  case pythonCall pc =>
    obtain ⟨⟨callable, arguments⟩, _, ⟨_, _⟩, hCall, _, rfl⟩ := h
    exact R.pythonCall_keeps world pc callable arguments _ _ hCall

/-! ## The facts of a result -/

omit [DecidableEq Shape] in
/-- The tag of a value, and its shape where it is an object, are in a set. -/
def HasValue (R : Runtime Shape Cell Handler World) (world : World)
    (x : TaggedValueSet Shape) (v : TaggedValue) : Prop :=
  x.Contains (tagOf v.value) (R.shapeOf world v.value)

omit [DecidableEq Shape] in
/-- An effect on the heap leaves a value in a set that names only a shape
that cannot change. -/
theorem HasValue.keeps {world next : World} {x : TaggedValueSet Shape}
    {v : TaggedValue} (h : HasValue R world x v)
    (hLasting : Lasting R.toShapes x)
    (hKeeps : KeepsShapes R.toShapes R.shapeOf world next) :
    HasValue R next x v := by
  refine ⟨h.1, fun shape hShape => ?_⟩
  have hOld := h.2 shape hShape
  have hPointer := (x.shaped (by rw [hShape]; nofun)).2
  have hBit := (TaggedValueSet.and_not_eq_zero_iff _ _).mp hPointer _ h.1
  rw [TaggedValueSet.getLsbD_pointerTaggedValueSetBits _ v.valid] at hBit
  have hImmutable := hLasting shape hShape
  rw [← hOld] at hImmutable
  exact (hKeeps v.value hBit hImmutable).trans hOld

omit [DecidableEq Shape] in
theorem hasValue_smi {world : World} {v : TaggedValue}
    (h : tagOf v.value = 0#5) : HasValue R world .smi v := by
  rw [HasValue, h]
  exact TaggedValueSet.contains_fromInlineTag _

omit [DecidableEq Shape] in
theorem hasValue_boolean (world : World) (b : Bool) :
    HasValue R world .boolean (.ofBool b) := by
  have hTag : tagOf (TaggedValue.ofBool b).value = valueBooleanTag := by
    cases b <;> rfl
  rw [HasValue, hTag]
  exact TaggedValueSet.contains_fromInlineTag _

omit [DecidableEq Shape] in
theorem hasValue_exactValueFacts (world : World) (constant : TaggedValue) :
    HasValue R world (exactValueFacts constant) constant := by
  rw [HasValue, exactValueFacts]
  split
  · rename_i hPtr
    exact (TaggedValueSet.contains_pointer_iff constant.valid).mpr hPtr
  · exact TaggedValueSet.contains_fromInlineTag _

omit [DecidableEq Shape] in
theorem hasValue_shapeGuardFacts {world : World} {expectedShape : Shape}
    {v : TaggedValue} (hPtr : isPtr v.value = true)
    (hShape : R.shapeOf world v.value = expectedShape) :
    HasValue R world (shapeGuardFacts R.toShapes expectedShape) v := by
  rw [HasValue, shapeGuardFacts]
  split
  · rw [hShape]
    exact TaggedValueSet.contains_exactShapeOf v.valid hPtr
  · exact (TaggedValueSet.contains_pointer_iff v.valid).mpr hPtr

/-- The result of an instruction is in its facts, where its first operand is
in those that the table has of it. -/
theorem execute_sound {instruction : Instruction Shape Cell Handler}
    {operands : List DefinitionValue} {world next : World}
    {v : TaggedValue} {facts : Facts Shape} {x : TaggedValueSet Shape}
    (h : execute R instruction.kind operands world =
      some (.next (some (.program (.tagged v))) next))
    (hFacts : instructionFacts R.toShapes facts instruction = some x)
    (hSource : ∀ y u, sourceFacts facts instruction = some y →
      operands.head? = some (.program (.tagged u)) →
        HasValue R world y u) :
    HasValue R next x v := by
  obtain ⟨id, kind, ids⟩ := instruction
  simp only at h
  cases kind <;>
    simp only [execute, Option.bind_eq_bind, Option.bind_eq_some_iff,
      Option.pure_def, Option.some.injEq, resultFlow_eq_next] at h
  case mov | loadStack | storeStack =>
    obtain ⟨source, hOperands, hEq, rfl⟩ := h
    cases hEq
    exact hSource x _ hFacts (programOperand_eq_some hOperands).1
  case shapeGuardWithSideExit =>
    obtain ⟨⟨_, _⟩, hOperands, _, _, hFlow⟩ := h
    obtain ⟨_, hEq, rfl⟩ := guardFlow_eq_next hFlow
    cases hEq
    exact hSource x _ hFacts (guardOperandsWithSideExit_eq_some hOperands)
  case validityCellGuard | checkNotImplemented =>
    obtain ⟨⟨_, _⟩, hOperands, hFlow⟩ := h
    obtain ⟨_, hEq, rfl⟩ := guardFlow_eq_next hFlow
    cases hEq
    exact hSource x _ hFacts (guardOperands_eq_some hOperands)
  case validityCellGuardWithSideExit | inlineTagGuardWithSideExit =>
    obtain ⟨⟨_, _⟩, hOperands, hFlow⟩ := h
    obtain ⟨_, hEq, rfl⟩ := guardFlow_eq_next hFlow
    cases hEq
    exact hSource x _ hFacts (guardOperandsWithSideExit_eq_some hOperands)
  case inlineTagGuard expectedClass =>
    obtain ⟨⟨_, _⟩, hOperands, hFlow⟩ := h
    obtain ⟨hPasses, hEq, rfl⟩ := guardFlow_eq_next hFlow
    cases hEq
    obtain ⟨y, hy, hEq⟩ := Option.bind_eq_some_iff.mp hFacts
    cases hEq
    exact (hSource y _ hy (guardOperands_eq_some hOperands)).intersect
      ((TaggedValueSet.contains_fromClass_iff (TaggedValue.valid _) _).mpr
        hPasses)
  case shapeGuard subkind expectedShape =>
    obtain ⟨⟨_, _⟩, hOperands, passes, hPasses, hFlow⟩ := h
    obtain ⟨rfl, hEq, rfl⟩ := guardFlow_eq_next hFlow
    cases hEq
    obtain ⟨hPtr, hShape⟩ := shapeGuardPasses_eq_true hPasses
    obtain ⟨y, hy, hEq⟩ := Option.bind_eq_some_iff.mp hFacts
    cases hEq
    exact (hSource y _ hy (guardOperands_eq_some hOperands)).intersect
      (hasValue_shapeGuardFacts hPtr hShape)
  case binaryArithmeticSmiWithSnapshot =>
    obtain ⟨⟨_, _, _⟩, _, hFlow⟩ := h
    obtain ⟨_, hTag, hEq, rfl⟩ := arithmeticSmiFlow_eq_next hFlow
    cases hEq
    cases hFacts
    exact hasValue_smi hTag
  case binaryLogicalSmi =>
    obtain ⟨⟨_, _⟩, _, hIf⟩ := h
    split at hIf
    · rename_i hSmi
      simp only [Option.some.injEq, resultFlow_eq_next] at hIf
      obtain ⟨hEq, rfl⟩ := hIf
      cases hEq
      cases hFacts
      exact hasValue_smi (BinaryLogicalSmi.tagOf_apply _
        (tagOf_of_isSmi hSmi.1) (tagOf_of_isSmi hSmi.2))
    · cases hIf
  case binaryComparisonSmi =>
    obtain ⟨⟨_, _⟩, _, hIf⟩ := h
    split at hIf
    · simp only [Option.some.injEq, resultFlow_eq_next] at hIf
      obtain ⟨hEq, rfl⟩ := hIf
      cases hEq
      cases hFacts
      exact hasValue_boolean _ _
    · cases hIf
  case binaryComparisonF64 | isComparison =>
    obtain ⟨⟨_, _⟩, _, hEq, rfl⟩ := h
    cases hEq
    cases hFacts
    exact hasValue_boolean _ _
  case boxF64 =>
    obtain ⟨bits, _, hEq, rfl⟩ := h
    cases hEq
    cases hFacts
    have hContains := @TaggedValueSet.contains_exactShapeOf _ _ R.floatShape
      (R.boxF64 world bits).1.valid (R.isPtr_boxF64 world bits)
    rw [HasValue, R.shapeOf_boxF64]
    exact hContains
  case const constant =>
    obtain ⟨_, _, hEq, rfl⟩ := h
    cases hEq
    cases hFacts
    exact hasValue_exactValueFacts _ _
  case binaryArithmeticSmiWithSideExit | uninitialized |
      trustedHandlerCall | pythonCall =>
    cases hFacts
    exact TaggedValueSet.contains_unknown v.valid
  case negF64 =>
    obtain ⟨_, _, hEq, -⟩ := h
    cases hEq
  case binaryArithmeticF64 =>
    obtain ⟨⟨_, _⟩, _, hEq, -⟩ := h
    cases hEq
  case unboxF64 =>
    obtain ⟨_, _, _, _, hEq, -⟩ := h
    cases hEq
  case saveLinkRegisterToFrame | restoreLinkRegisterFromFrame | snapshot =>
    obtain ⟨_, _, hEq⟩ := h
    cases hEq

/-- The class of what an instruction has defined. -/
def resultClassOf : Option DefinitionValue → ResultClass
  | none => .none
  | some (.program v) => .programValue v.representation
  | some (.snapshot _) => .snapshot

/-- A result is of the class that the schema gives it. -/
theorem execute_resultClass {kind : InstructionKind Shape Cell Handler}
    {operands : List DefinitionValue} {world next : World}
    {result : Option DefinitionValue}
    (h : execute R kind operands world = some (.next result next)) :
    kind.resultClass = resultClassOf result := by
  cases kind <;>
    simp only [execute, Option.bind_eq_bind, Option.bind_eq_some_iff,
      Option.pure_def, Option.some.injEq, resultFlow_eq_next] at h
  case mov | loadStack | storeStack =>
    obtain ⟨_, hOperands, rfl, -⟩ := h
    rw [resultClassOf, (programOperand_eq_some hOperands).2]
    rfl
  case negF64 | const | uninitialized | boxF64 =>
    obtain ⟨_, _, rfl, -⟩ := h
    rfl
  case binaryComparisonF64 | isComparison | binaryArithmeticF64 =>
    obtain ⟨⟨_, _⟩, _, rfl, -⟩ := h
    rfl
  case unboxF64 =>
    obtain ⟨_, _, _, _, rfl, -⟩ := h
    rfl
  case binaryArithmeticSmiWithSnapshot | binaryArithmeticSmiWithSideExit =>
    obtain ⟨⟨_, _, _⟩, _, hFlow⟩ := h
    obtain ⟨_, _, rfl, -⟩ := arithmeticSmiFlow_eq_next hFlow
    rfl
  case binaryLogicalSmi | binaryComparisonSmi =>
    obtain ⟨⟨_, _⟩, _, hIf⟩ := h
    split at hIf
    · simp only [Option.some.injEq, resultFlow_eq_next] at hIf
      obtain ⟨rfl, -⟩ := hIf
      rfl
    · cases hIf
  case shapeGuard | shapeGuardWithSideExit =>
    obtain ⟨⟨_, _⟩, _, _, _, hFlow⟩ := h
    obtain ⟨_, rfl, -⟩ := guardFlow_eq_next hFlow
    rfl
  case validityCellGuard | validityCellGuardWithSideExit | inlineTagGuard |
      inlineTagGuardWithSideExit | checkNotImplemented =>
    obtain ⟨⟨_, _⟩, _, hFlow⟩ := h
    obtain ⟨_, rfl, -⟩ := guardFlow_eq_next hFlow
    rfl
  case snapshot | saveLinkRegisterToFrame | restoreLinkRegisterFromFrame =>
    obtain ⟨_, _, hFlow⟩ := h
    cases hFlow
    rfl
  case trustedHandlerCall =>
    obtain ⟨_, _, ⟨_, _⟩, _, rfl, -⟩ := h
    rfl
  case pythonCall =>
    obtain ⟨⟨_, _⟩, _, ⟨_, _⟩, _, rfl, -⟩ := h
    rfl

end Effects

/-! ## Blocks -/

section Runs

variable {R : Runtime Shape Cell Handler World} {facts : Facts Shape}

/-- The table has a set for each tagged value of a block, with the value. -/
def Holds (R : Runtime Shape Cell Handler World) (facts : Facts Shape)
    (ρ : Environment) (world : World) : Prop :=
  ∀ id v, ρ id = some (.program (.tagged v)) →
    ∃ x, facts id = some x ∧ HasValue R world x v

omit [DecidableEq Shape] in
theorem Holds.keeps {ρ : Environment} {world next : World}
    (h : Holds R facts ρ world) (hLast : FactsLast R.toShapes facts)
    (hKeeps : KeepsShapes R.toShapes R.shapeOf world next) :
    Holds R facts ρ next := by
  intro id v hv
  obtain ⟨x, hx, hValue⟩ := h id v hv
  exact ⟨x, hx, hValue.keeps (hLast id x hx) hKeeps⟩

theorem head?_mapM {α β : Type} {f : α → Option β} {list : List α}
    {values : List β} (h : list.mapM f = some values) {value : β}
    (hHead : values.head? = some value) :
    ∃ a, list.head? = some a ∧ f a = some value := by
  cases list with
  | nil =>
      cases h
      cases hHead
  | cons a list =>
      rw [List.mapM_cons] at h
      obtain ⟨b, hb, hRest⟩ := Option.bind_eq_some_iff.mp h
      obtain ⟨rest, -, hEq⟩ := Option.bind_eq_some_iff.mp hRest
      cases hEq
      cases hHead
      exact ⟨a, rfl, hb⟩

/-- One instruction keeps the facts. -/
theorem execute_holds {instruction : Instruction Shape Cell Handler}
    {ρ : Environment} {world next : World} {operands : List DefinitionValue}
    {result : Option DefinitionValue}
    (hLast : FactsLast R.toShapes facts)
    (hClosed : InstructionClosed R.toShapes facts instruction)
    (hHolds : Holds R facts ρ world)
    (hOperands : instruction.operands.mapM ρ = some operands)
    (h : execute R instruction.kind operands world =
      some (.next result next)) :
    Holds R facts (ρ.define instruction.id result) next := by
  have hKept := hHolds.keeps hLast (execute_keeps h)
  cases result with
  | none => exact hKept
  | some value =>
      intro id v hv
      rw [Environment.define] at hv
      by_cases hId : id = instruction.id
      · subst hId
        rw [Function.update_self] at hv
        cases hv
        obtain ⟨x, hx, y, hy, hLe⟩ := hClosed (execute_resultClass h)
        refine ⟨y, hy, (execute_sound h hx ?_).mono hLe⟩
        intro z u hz hu
        obtain ⟨source, hSource, hValue⟩ := head?_mapM hOperands hu
        rw [sourceFacts, hSource] at hz
        obtain ⟨z', hz', hHas⟩ := hHolds source u hValue
        rw [show facts source = some z from hz] at hz'
        cases hz'
        exact hHas
      · rw [Function.update_of_ne hId] at hv
        exact hKept id v hv

theorem runInstructions_holds (hLast : FactsLast R.toShapes facts) :
    ∀ (instructions : List (Instruction Shape Cell Handler))
      (ρ : Environment) (world : World),
      (∀ instruction ∈ instructions,
        InstructionClosed R.toShapes facts instruction) →
      Holds R facts ρ world → ∀ ρ' next,
        runInstructions R instructions ρ world = some (.next ρ' next) →
          Holds R facts ρ' next := by
  intro instructions
  induction instructions with
  | nil =>
      intro ρ world _ hHolds ρ' next h
      cases h
      exact hHolds
  | cons instruction rest ih =>
      intro ρ world hClosed hHolds ρ' next h
      rw [runInstructions] at h
      obtain ⟨operands, hOperands, h⟩ := Option.bind_eq_some_iff.mp h
      obtain ⟨flow, hFlow, h⟩ := Option.bind_eq_some_iff.mp h
      cases flow with
      | exit e world => cases h
      | next result middle =>
          refine ih _ middle
            (fun other hOther =>
              hClosed other (List.mem_cons_of_mem _ hOther)) ?_ ρ' next h
          exact execute_holds hLast (hClosed _ List.mem_cons_self) hHolds
            hOperands hFlow

/-- The values for some parameters are in their facts. -/
def ParametersHold (R : Runtime Shape Cell Handler World)
    (facts : Facts Shape) (parameters : List Parameter)
    (arguments : List ProgramValue) (world : World) : Prop :=
  ∀ pair ∈ parameters.zip arguments,
    pair.1.representation = .taggedValue → ∀ v, pair.2 = .tagged v →
      ∃ x, facts pair.1.id = some x ∧ HasValue R world x v

omit [DecidableEq Shape] in
theorem bindParameters_holds {world : World} :
    ∀ (parameters : List Parameter) (arguments : List ProgramValue)
      (ρ : Environment), ParametersHold R facts parameters arguments world →
        bindParameters parameters arguments = some ρ →
          Holds R facts ρ world := by
  intro parameters
  induction parameters with
  | nil =>
      intro arguments ρ _ h
      cases arguments with
      | cons argument arguments => cases h
      | nil =>
          cases h
          intro id v hv
          cases hv
  | cons parameter parameters ih =>
      intro arguments ρ hHold h
      cases arguments with
      | nil => cases h
      | cons argument arguments =>
          rw [bindParameters] at h
          split at h
          · rename_i hRepresentation
            obtain ⟨rest, hRest, hEq⟩ := Option.bind_eq_some_iff.mp h
            cases hEq
            have hRestHolds := ih arguments rest (fun pair hPair =>
              hHold pair (List.mem_cons_of_mem _ hPair)) hRest
            intro id v hv
            by_cases hId : id = parameter.id
            · subst hId
              rw [Function.update_self] at hv
              cases hv
              exact hHold _ List.mem_cons_self hRepresentation.symm v rfl
            · rw [Function.update_of_ne hId] at hv
              exact hRestHolds id v hv
          · cases h

theorem TerminatorKind.mem_of_execute {kind : TerminatorKind}
    {operands : List DefinitionValue} {edge : BlockEdge}
    (h : kind.execute operands = some (.edge edge)) :
    edge ∈ kind.blockSuccessorEdges := by
  unfold TerminatorKind.execute at h
  split at h
  · cases h
  · obtain ⟨_, _, hEq⟩ := Option.bind_eq_some_iff.mp h
    cases hEq
  · cases h
    split
    · exact List.mem_cons_self
    · exact List.mem_cons_of_mem _ List.mem_cons_self
  · cases h
    exact List.mem_cons_self
  · cases h
  · cases h
  · cases h

/-- A terminator that goes on does so over one of its edges. -/
theorem runTerminator_running {terminator : Terminator} {ρ : Environment}
    {world : World} {entry : BlockEntry World}
    (h : runTerminator terminator ρ world = some (.running entry)) :
    ∃ edge ∈ terminator.kind.blockSuccessorEdges, ∃ values,
      edge.arguments.mapM ρ = some values ∧
        values.mapM DefinitionValue.program? = some entry.arguments ∧
          entry.block = edge.target ∧ entry.world = world := by
  rw [runTerminator] at h
  obtain ⟨operands, -, h⟩ := Option.bind_eq_some_iff.mp h
  obtain ⟨destination, hDestination, h⟩ := Option.bind_eq_some_iff.mp h
  cases destination with
  | exit e => cases h
  | edge edge =>
      obtain ⟨values, hValues, h⟩ := Option.bind_eq_some_iff.mp h
      obtain ⟨arguments, hArguments, h⟩ := Option.bind_eq_some_iff.mp h
      cases h
      exact ⟨edge, TerminatorKind.mem_of_execute hDestination, values,
        hValues, hArguments, rfl, rfl⟩

/-- What an edge hands over is in the facts of the parameters. -/
theorem parametersHold_of_receives {ρ : Environment} {world : World}
    (hHolds : Holds R facts ρ world) :
    ∀ (parameters : List Parameter) (ids : List InstructionId)
      (values : List DefinitionValue) (arguments : List ProgramValue),
      Receives facts facts parameters ids →
      ids.mapM ρ = some values →
      values.mapM DefinitionValue.program? = some arguments →
        ParametersHold R facts parameters arguments world := by
  intro parameters
  induction parameters with
  | nil =>
      intro ids values arguments _ _ _ pair hPair
      cases hPair
  | cons parameter parameters ih =>
      intro ids values arguments hReceives hValues hArguments
      cases ids with
      | nil =>
          cases hValues
          cases hArguments
          intro pair hPair
          cases hPair
      | cons id ids =>
          rw [List.mapM_cons] at hValues
          obtain ⟨value, hValue, hValues⟩ :=
            Option.bind_eq_some_iff.mp hValues
          obtain ⟨rest, hRest, hEq⟩ := Option.bind_eq_some_iff.mp hValues
          cases hEq
          rw [List.mapM_cons] at hArguments
          obtain ⟨argument, hArgument, hArguments⟩ :=
            Option.bind_eq_some_iff.mp hArguments
          obtain ⟨others, hOthers, hEq⟩ :=
            Option.bind_eq_some_iff.mp hArguments
          cases hEq
          intro pair hPair hTagged v hv
          rw [List.zip_cons_cons, List.mem_cons] at hPair
          rcases hPair with rfl | hPair
          · simp only at hTagged hv
            subst hv
            have hProgram : value = .program (.tagged v) := by
              cases value with
              | program found =>
                  cases hArgument
                  rfl
              | snapshot found => cases hArgument
            subst hProgram
            obtain ⟨x, hx, hHas⟩ := hHolds id v hValue
            obtain ⟨x', hx', y, hy, hLe⟩ :=
              hReceives _ List.mem_cons_self hTagged
            simp only at hx' hy
            rw [hx] at hx'
            cases hx'
            exact ⟨y, hy, hHas.mono hLe⟩
          · exact ih ids rest others
              (fun other hOther => hReceives other (by
                rw [List.zip_cons_cons]
                exact List.mem_cons_of_mem _ hOther))
              hRest hOthers pair hPair hTagged v hv

/-! ## Runs -/

variable {graph : Graph Shape Cell Handler}

/-- A block of a set, entered with values in the facts of its parameters. -/
def EntryHolds (R : Runtime Shape Cell Handler World)
    (graph : Graph Shape Cell Handler) (facts : Facts Shape)
    (reachable : Finset Nat) (entry : BlockEntry World) : Prop :=
  entry.block ∈ reachable ∧
    ∀ block, graph.blocks[entry.block]? = some block →
      ParametersHold R facts block.parameters entry.arguments entry.world

/-- The reachable blocks of a fixpoint. -/
def ClosedBlocks (shapes : Shapes Shape) (graph : Graph Shape Cell Handler)
    (facts : Facts Shape) (reachable : Finset Nat) : Prop :=
  ∀ i ∈ reachable, ∀ block, graph.blocks[i]? = some block →
    (∀ instruction ∈ block.instructions,
      InstructionClosed shapes facts instruction) ∧
    ∀ edge ∈ block.blockSuccessorEdges, edge.target ∈ reachable ∧
      ∃ target, graph.blocks[edge.target]? = some target ∧
        Receives facts facts target.parameters edge.arguments

theorem runBlock_eq_running
    {block : Block Shape Cell Handler} {arguments : List ProgramValue}
    {world : World} {next : BlockEntry World}
    (h : runBlock R block arguments world = some (.running next)) :
    ∃ ρ ρ' world', bindParameters block.parameters arguments = some ρ ∧
      runInstructions R block.instructions ρ world =
        some (.next ρ' world') ∧
      runTerminator block.terminator ρ' world' = some (.running next) := by
  rw [runBlock] at h
  obtain ⟨ρ, hρ, h⟩ := Option.bind_eq_some_iff.mp h
  obtain ⟨flow, hFlow, h⟩ := Option.bind_eq_some_iff.mp h
  cases flow with
  | exit e world => cases h
  | next ρ' world' => exact ⟨ρ, ρ', world', hρ, hFlow, h⟩

/-- One block. -/
theorem runBlock_sound (hLast : FactsLast R.toShapes facts)
    {reachable : Finset Nat}
    (hClosed : ClosedBlocks R.toShapes graph facts reachable)
    {entry next : BlockEntry World}
    (hEntry : EntryHolds R graph facts reachable entry)
    {block : Block Shape Cell Handler}
    (hBlock : graph.blocks[entry.block]? = some block)
    (h : runBlock R block entry.arguments entry.world =
      some (.running next)) :
    EntryHolds R graph facts reachable next := by
  obtain ⟨hInstructions, hEdges⟩ := hClosed _ hEntry.1 block hBlock
  obtain ⟨ρ, ρ', world', hBind, hRun, hTerminator⟩ := runBlock_eq_running h
  have hHolds := runInstructions_holds hLast block.instructions ρ entry.world
    hInstructions
    (bindParameters_holds _ _ ρ (hEntry.2 block hBlock) hBind) ρ' world' hRun
  obtain ⟨edge, hEdge, values, hValues, hArguments, hTargetEq, rfl⟩ :=
    runTerminator_running hTerminator
  obtain ⟨hReachable, target, hTarget, hReceives⟩ := hEdges edge hEdge
  refine ⟨hTargetEq ▸ hReachable, fun other hOther => ?_⟩
  rw [hTargetEq, hTarget] at hOther
  cases hOther
  exact parametersHold_of_receives hHolds _ _ values _ hReceives hValues
    hArguments

/-- Any number of blocks. -/
theorem run_sound (hLast : FactsLast R.toShapes facts)
    {reachable : Finset Nat}
    (hClosed : ClosedBlocks R.toShapes graph facts reachable) :
    ∀ n (entry : BlockEntry World),
      EntryHolds R graph facts reachable entry → ∀ last,
        run R graph n entry = some (.running last) →
          EntryHolds R graph facts reachable last := by
  intro n
  induction n with
  | zero =>
      intro entry hEntry last h
      cases h
      exact hEntry
  | succ n ih =>
      intro entry hEntry last h
      rw [run] at h
      obtain ⟨block, hBlock, h⟩ := Option.bind_eq_some_iff.mp h
      obtain ⟨state, hState, h⟩ := Option.bind_eq_some_iff.mp h
      cases state with
      | exited e world => cases h
      | running next =>
          exact ih next (runBlock_sound hLast hClosed hEntry hBlock hState)
            last h

/-- The start of an execution, with any values. -/
def startOf (arguments : List ProgramValue) (world : World) :
    BlockEntry World :=
  { block := 0, arguments, world }

theorem startOf_holds {reachable : Finset Nat} (hReachable : 0 ∈ reachable)
    (hUnknown : EntryUnknown graph facts) (arguments : List ProgramValue)
    (world : World) :
    EntryHolds R graph facts reachable (startOf arguments world) := by
  refine ⟨hReachable, fun block hBlock pair hPair hTagged v _ => ?_⟩
  obtain ⟨x, hx, hLe⟩ := hUnknown block hBlock pair.1
    (List.of_mem_zip hPair).1 hTagged
  exact ⟨x, hx, (TaggedValueSet.contains_unknown v.valid).mono hLe⟩

/-- An execution from the entry has got past `position` instructions of a
block, and the definitions made there have these values. -/
def Reached (R : Runtime Shape Cell Handler World)
    (graph : Graph Shape Cell Handler) (arguments : List ProgramValue)
    (start : World) (block : Block Shape Cell Handler) (position : Nat)
    (ρ : Environment) (world : World) : Prop :=
  ∃ n entry ρ₀, run R graph n (startOf arguments start) =
      some (.running entry) ∧
    graph.blocks[entry.block]? = some block ∧
    bindParameters block.parameters entry.arguments = some ρ₀ ∧
    runInstructions R (block.instructions.take position) ρ₀ entry.world =
      some (.next ρ world)

/-- The facts hold wherever an execution gets to. -/
theorem reached_holds (hFixpoint : Fixpoint R.toShapes graph facts)
    {arguments : List ProgramValue} {start world : World}
    {block : Block Shape Cell Handler} {position : Nat} {ρ : Environment}
    (h : Reached R graph arguments start block position ρ world) :
    Holds R facts ρ world := by
  obtain ⟨n, entry, ρ₀, hRun, hBlock, hBind, hInstructions⟩ := h
  obtain ⟨reachable, hReachable, hClosed⟩ := hFixpoint.closed
  have hEntry := run_sound hFixpoint.lasts hClosed n _
    (startOf_holds hReachable hFixpoint.entryUnknown arguments start) entry
    hRun
  have hBlockClosed := (hClosed _ hEntry.1 block hBlock).1
  exact runInstructions_holds hFixpoint.lasts _ ρ₀ entry.world
    (fun instruction hMem =>
      hBlockClosed instruction (List.mem_of_mem_take hMem))
    (bindParameters_holds _ _ ρ₀ (hEntry.2 block hBlock) hBind) ρ world
    hInstructions

end Runs

end CloverVM.Jit
