import CloverVM.Jit.TaggedValueFactSoundness

/-!
# Removing guards that have been proved

A guard whose input is known to pass it is replaced by its input.  The
pointer check of a shape guard is left out where its input is known to be a
pointer.  The rewriter goes through a graph block by block: it has each
instruction refer to what its operands have been replaced by, gives a new id
to one that changes, and checks of each that what it uses is defined before
it.
-/

namespace CloverVM.Jit

open CloverVM.ObjectModel
open CloverVM.Machine

/-- What is to become of an instruction. -/
inductive RewriteResult (Shape Cell Handler : Type) where
  | keep
  | replace (instruction : Instruction Shape Cell Handler)
  | replaceWithDef (def_ : InstructionId)

/-- A block that is being rewritten.  The instructions of the whole graph
occupy a position each, and new ones get the next id of the storage. -/
structure BlockRewrite (Shape Cell Handler : Type) where
  nextId : InstructionId
  defReplacements : InstructionId → Option InstructionId
  availableDefs : List Definition
  stagedInstructions : List (Instruction Shape Cell Handler)
  stagedInstructionSet : List InstructionId
  instructionsChanged : Bool

section Rewriter

variable {Shape Cell Handler : Type} [DecidableEq Shape]

/-- The callback: it may make an instruction, which takes the next id. -/
def simplifyTaggedValueGuard (facts : Facts Shape) (nextId : InstructionId)
    (instruction : Instruction Shape Cell Handler) :
    Option (RewriteResult Shape Cell Handler × InstructionId) :=
  match instruction.kind, instruction.operands with
  | .inlineTagGuard expectedClass, [value, _] => do
      let inputTags ← facts value
      if inputTags.isSubsetOf (.fromClass expectedClass) then
        return (.replaceWithDef value, nextId)
      else return (.keep, nextId)
  | .shapeGuard .pointerAndShapeGuard expectedShape, [object, snapshot] => do
      let inputTags ← facts object
      if inputTags.exactShape = some expectedShape then
        return (.replaceWithDef object, nextId)
      else if inputTags.isSubsetOf .pointer then
        return (.replace
          { id := nextId
            kind := .shapeGuard .shapeOnlyGuard expectedShape
            operands := [object, snapshot] }, nextId + 1)
      else return (.keep, nextId)
  | _, _ => some (.keep, nextId)

namespace BlockRewrite

variable (rewrite : BlockRewrite Shape Cell Handler)

omit [DecidableEq Shape] in
/-- What a definition has been replaced by. -/
def resolve (id : InstructionId) : InstructionId :=
  (rewrite.defReplacements id).getD id

end BlockRewrite

/-- The instruction itself where none of its operands is replaced. -/
def rebuildInstruction (resolve : InstructionId → InstructionId)
    (nextId : InstructionId) (instruction : Instruction Shape Cell Handler) :
    Instruction Shape Cell Handler × InstructionId :=
  let operands := instruction.operands.map resolve
  if operands = instruction.operands then (instruction, nextId)
  else ({ instruction with id := nextId, operands }, nextId + 1)

/-- An instruction is written down in the place of the original. -/
def BlockRewrite.emit (rewrite : BlockRewrite Shape Cell Handler)
    (original proposed : Instruction Shape Cell Handler) :
    Option (BlockRewrite Shape Cell Handler) := do
  let (normalized, nextId) :=
    rebuildInstruction rewrite.resolve rewrite.nextId proposed
  check (normalized.id ∉ rewrite.stagedInstructionSet)
  check (normalized.operandsAvailable rewrite.availableDefs = true)
  check (original.kind.resultClass = normalized.kind.resultClass)
  return {
    nextId
    defReplacements :=
      if original.kind.resultClass = .none then rewrite.defReplacements
      else Function.update rewrite.defReplacements original.id
        (some normalized.id)
    availableDefs := rewrite.availableDefs ++ [normalized.definition]
    stagedInstructions := rewrite.stagedInstructions ++ [normalized]
    stagedInstructionSet := normalized.id :: rewrite.stagedInstructionSet
    instructionsChanged :=
      rewrite.instructionsChanged || normalized.id != original.id }

/-- The uses of an instruction are to refer to a definition that is there
already. -/
def BlockRewrite.replaceDefinition
    (rewrite : BlockRewrite Shape Cell Handler)
    (original : Instruction Shape Cell Handler) (def_ : InstructionId) :
    Option (BlockRewrite Shape Cell Handler) := do
  check (original.kind.resultClass ≠ .none)
  check ((⟨rewrite.resolve def_, original.kind.resultClass⟩ : Definition) ∈
    rewrite.availableDefs)
  return { rewrite with
    defReplacements := Function.update rewrite.defReplacements original.id
      (some (rewrite.resolve def_))
    instructionsChanged := true }

def BlockRewrite.rewriteInstruction (facts : Facts Shape)
    (rewrite : BlockRewrite Shape Cell Handler)
    (original : Instruction Shape Cell Handler) :
    Option (BlockRewrite Shape Cell Handler) := do
  let (result, nextId) ←
    simplifyTaggedValueGuard facts rewrite.nextId original
  let rewrite := { rewrite with nextId }
  match result with
  | .keep => rewrite.emit original original
  | .replace instruction => rewrite.emit original instruction
  | .replaceWithDef def_ => rewrite.replaceDefinition original def_

def BlockRewrite.rewriteInstructions (facts : Facts Shape) :
    List (Instruction Shape Cell Handler) →
      BlockRewrite Shape Cell Handler →
        Option (BlockRewrite Shape Cell Handler)
  | [], rewrite => some rewrite
  | original :: rest, rewrite =>
      rewrite.rewriteInstruction facts original >>=
        rewriteInstructions facts rest

def BlockEdge.resolve (resolve : InstructionId → InstructionId)
    (edge : BlockEdge) : BlockEdge :=
  { edge with arguments := edge.arguments.map resolve }

/-- The terminator itself where it and its edges use nothing that has been
replaced. -/
def rebuildTerminator (resolve : InstructionId → InstructionId)
    (nextId : InstructionId) (terminator : Terminator) :
    Terminator × InstructionId :=
  let operands := terminator.operands.map resolve
  let kind := terminator.kind.mapEdges (BlockEdge.resolve resolve)
  if operands = terminator.operands ∧ kind = terminator.kind then
    (terminator, nextId)
  else ({ id := nextId, kind, operands }, nextId + 1)

/-- The rewriter of a block, with the next id, the occupied positions and
whether anything has changed, which go on to the next block. -/
def rewriteBlock (facts : Facts Shape) (nextId : InstructionId)
    (stagedInstructionSet : List InstructionId) (changed : Bool)
    (block : Block Shape Cell Handler) :
    Option (Block Shape Cell Handler × InstructionId × List InstructionId ×
      Bool) := do
  let parameters := block.parameters.map Parameter.definition
  let rewrite ← BlockRewrite.rewriteInstructions facts block.instructions
    { nextId
      defReplacements := fun _ => none
      availableDefs := parameters
      stagedInstructions := []
      stagedInstructionSet
      instructionsChanged := changed }
  check (∀ edge ∈ block.blockSuccessorEdges, ∀ argument ∈ edge.arguments,
    rewrite.resolve argument ∈ rewrite.availableDefs.map Definition.id)
  let (terminator, nextId) :=
    rebuildTerminator rewrite.resolve rewrite.nextId block.terminator
  check (terminator.id ∉ rewrite.stagedInstructionSet)
  check (terminator.operandsAvailable rewrite.availableDefs = true)
  return ({ block with
    instructions := rewrite.stagedInstructions, terminator }, nextId,
    terminator.id :: rewrite.stagedInstructionSet,
    rewrite.instructionsChanged || terminator.id != block.terminator.id)

def rewriteBlocks (facts : Facts Shape) :
    List (Block Shape Cell Handler) → InstructionId → List InstructionId →
      Bool → Option (List (Block Shape Cell Handler) × Bool)
  | [], _, _, changed => some ([], changed)
  | block :: blocks, nextId, stagedInstructionSet, changed => do
      let (block, nextId, stagedInstructionSet, changed) ←
        rewriteBlock facts nextId stagedInstructionSet changed block
      let (blocks, changed) ←
        rewriteBlocks facts blocks nextId stagedInstructionSet changed
      return (block :: blocks, changed)

/-- The rewritten graph, and whether an instruction has changed; without a
change the graph stays as it is.  The storage has given out the ids below
`nextId`. -/
def simplifyTaggedValueGuards (shapes : Shapes Shape)
    (nextId : InstructionId) (graph : Graph Shape Cell Handler) :
    Option (Graph Shape Cell Handler × Bool) := do
  let facts ← taggedValueFactAnalysis shapes graph
  let (blocks, changed) ← rewriteBlocks facts graph.blocks nextId [] false
  return (if changed then { blocks } else graph, changed)

end Rewriter

section Resolved

/-- Definitions, under what they have been replaced by. -/
def ResolvedIn (resolve : InstructionId → InstructionId)
    (definitions defs : List Definition) : Prop :=
  ∀ definition ∈ definitions, definition.resultClass ≠ .none →
    (⟨resolve definition.id, definition.resultClass⟩ : Definition) ∈ defs

variable {resolve : InstructionId → InstructionId}
  {definitions defs : List Definition}

theorem ResolvedIn.available (h : ResolvedIn resolve definitions defs)
    {required : OperandClass} {id : InstructionId}
    (hId : available definitions required id = true) :
    available defs required (resolve id) = true := by
  obtain ⟨definition, hMem, rfl, hMatches⟩ := (available_iff _ _ _).mp hId
  exact (available_iff _ _ _).mpr ⟨_, h definition hMem
    (OperandClass.ne_none_of_matches hMatches), rfl, hMatches⟩

theorem ResolvedIn.operandsAvailable
    (h : ResolvedIn resolve definitions defs)
    {trailing : Option OperandClass} :
    ∀ {fixed : List OperandClass} {ids : List InstructionId},
      operandsAvailable definitions fixed trailing ids = true →
        operandsAvailable defs fixed trailing (ids.map resolve) = true := by
  intro fixed ids
  induction ids generalizing fixed with
  | nil =>
      intro hIds
      cases fixed with
      | nil => rfl
      | cons required fixed => cases hIds
  | cons id ids ih =>
      intro hIds
      cases fixed with
      | cons required fixed =>
          rw [Jit.operandsAvailable, Bool.and_eq_true] at hIds
          rw [List.map_cons, Jit.operandsAvailable, Bool.and_eq_true]
          exact ⟨h.available hIds.1, ih hIds.2⟩
      | nil =>
          cases trailing with
          | none => cases hIds
          | some required =>
              rw [Jit.operandsAvailable, Bool.and_eq_true] at hIds
              rw [List.map_cons, Jit.operandsAvailable, Bool.and_eq_true]
              exact ⟨h.available hIds.1, ih hIds.2⟩

end Resolved

/-! ## What holds of a block that is being rewritten -/

section Invariant

variable {Shape Cell Handler : Type}

/-- An id of the graph that has been passed, or one that is new. -/
def Given (base : InstructionId) (passed : List InstructionId)
    (nextId id : InstructionId) : Prop :=
  id ∈ passed ∨ base ≤ id ∧ id < nextId

theorem Given.mono {base nextId nextId' id : InstructionId}
    {passed passed' : List InstructionId} (h : Given base passed nextId id)
    (hPassed : passed ⊆ passed') (hNext : nextId ≤ nextId') :
    Given base passed' nextId' id :=
  h.imp (fun hMem => hPassed hMem)
    fun hNew => ⟨hNew.1, Nat.lt_of_lt_of_le hNew.2 hNext⟩

/-- A block that has been rewritten as far as the definitions, in a graph in
which some ids have been passed. -/
structure Rewriting (base : InstructionId) (passed : List InstructionId)
    (definitions : List Definition)
    (rewrite : BlockRewrite Shape Cell Handler) : Prop where
  base_le : base ≤ rewrite.nextId
  staged : ∀ id ∈ rewrite.stagedInstructionSet,
    Given base passed rewrite.nextId id
  available : ∀ definition ∈ rewrite.availableDefs,
    Given base passed rewrite.nextId definition.id
  resolved : ResolvedIn rewrite.resolve definitions rewrite.availableDefs

/-- The next id has not been given out. -/
theorem Rewriting.withNextId {base : InstructionId}
    {passed : List InstructionId} {definitions : List Definition}
    {rewrite : BlockRewrite Shape Cell Handler}
    (h : Rewriting base passed definitions rewrite) {nextId : InstructionId}
    (hNext : rewrite.nextId ≤ nextId) :
    Rewriting base passed definitions { rewrite with nextId } where
  base_le := h.base_le.trans hNext
  staged id hId := (h.staged id hId).mono (List.Subset.refl _) hNext
  available definition hMem :=
    (h.available definition hMem).mono (List.Subset.refl _) hNext
  resolved := h.resolved

theorem rebuildInstruction_spec (resolve : InstructionId → InstructionId)
    (nextId : InstructionId)
    (instruction : Instruction Shape Cell Handler) :
    ∃ normalized nextId', rebuildInstruction resolve nextId instruction =
        (normalized, nextId') ∧ nextId ≤ nextId' ∧
      normalized.kind = instruction.kind ∧
      normalized.operands = instruction.operands.map resolve ∧
      (normalized.id = instruction.id ∨
        normalized.id = nextId ∧ nextId < nextId') := by
  rw [rebuildInstruction]
  by_cases hSame : instruction.operands.map resolve = instruction.operands
  · exact ⟨instruction, nextId, if_pos hSame, Nat.le_refl _, rfl, hSame.symm,
      Or.inl rfl⟩
  · exact ⟨_, nextId + 1, if_neg hSame, Nat.le_succ _, rfl, rfl,
      Or.inr ⟨rfl, Nat.lt_succ_self _⟩⟩

/-- An instruction in the place of an original, after `rewrite`. -/
structure Emits (base : InstructionId) (passed : List InstructionId)
    (definitions : List Definition)
    (rewrite next : BlockRewrite Shape Cell Handler)
    (original proposed normalized : Instruction Shape Cell Handler) :
    Prop where
  staged : next.stagedInstructions =
    rewrite.stagedInstructions ++ [normalized]
  kind : normalized.kind = proposed.kind
  operands : normalized.operands = proposed.operands.map rewrite.resolve
  rewriting : Rewriting base (passed ++ [original.id])
    (definitions ++ [original.definition]) next
  fresh : ∀ definition ∈ rewrite.availableDefs,
    definition.id ≠ normalized.id
  others : ∀ id, id ≠ original.id → next.resolve id = rewrite.resolve id
  self : original.kind.resultClass ≠ .none →
    next.resolve original.id = normalized.id

theorem emit_spec {base : InstructionId} {passed : List InstructionId}
    {definitions : List Definition}
    {rewrite : BlockRewrite Shape Cell Handler}
    (h : Rewriting base passed definitions rewrite)
    {original proposed : Instruction Shape Cell Handler}
    (hAvailable : proposed.operandsAvailable definitions = true)
    (hClass : original.kind.resultClass = proposed.kind.resultClass)
    (hDefinitions : ∀ definition ∈ definitions,
      definition.id ≠ original.id)
    (hStaged : proposed.id ∉ rewrite.stagedInstructionSet)
    (hFresh : ∀ definition ∈ rewrite.availableDefs,
      definition.id ≠ proposed.id)
    (hGiven : Given base (passed ++ [original.id]) rewrite.nextId
      proposed.id)
    (hBase : ∀ id ∈ passed, id < base) :
    ∃ next normalized, rewrite.emit original proposed = some next ∧
      Emits base passed definitions rewrite next original proposed
        normalized := by
  obtain ⟨normalized, nextId, hRebuild, hNext, hKind, hOperands, hId⟩ :=
    rebuildInstruction_spec rewrite.resolve rewrite.nextId proposed
  have hBefore : ∀ id, Given base passed rewrite.nextId id →
      id ≠ rewrite.nextId := by
    rintro id (hPassed | ⟨-, hLess⟩) rfl
    · exact absurd h.base_le (Nat.not_le.mpr (hBase _ hPassed))
    · exact absurd hLess (Nat.lt_irrefl _)
  have hNotStaged : normalized.id ∉ rewrite.stagedInstructionSet := by
    rcases hId with hId | ⟨hId, -⟩
    · rw [hId]
      exact hStaged
    · intro hMem
      exact hBefore _ (h.staged _ hMem) hId
  have hNotAvailable : ∀ definition ∈ rewrite.availableDefs,
      definition.id ≠ normalized.id := by
    intro definition hMem hEq
    rcases hId with hId | ⟨hId, -⟩
    · exact hFresh definition hMem (hEq.trans hId)
    · exact hBefore _ (h.available definition hMem) (hEq.trans hId)
  have hNormalized : normalized.operandsAvailable rewrite.availableDefs =
      true := by
    rw [Instruction.operandsAvailable, hKind, hOperands]
    exact h.resolved.operandsAvailable hAvailable
  have hNormalizedClass : original.kind.resultClass =
      normalized.kind.resultClass := by rw [hKind, hClass]
  have hNormalizedGiven : Given base (passed ++ [original.id]) nextId
      normalized.id := by
    rcases hId with hId | ⟨hId, hLess⟩
    · rw [hId]
      exact hGiven.mono (List.Subset.refl _) hNext
    · exact Or.inr ⟨hId ▸ h.base_le, hId ▸ hLess⟩
  have hPassed : passed ⊆ passed ++ [original.id] :=
    List.subset_append_left _ _
  obtain ⟨next, hRun, hNextId, hReplacements, hDefs, hInstructions, hSet⟩ :
      ∃ next, rewrite.emit original proposed = some next ∧
        next.nextId = nextId ∧
        next.defReplacements =
          (if original.kind.resultClass = .none then rewrite.defReplacements
            else Function.update rewrite.defReplacements original.id
              (some normalized.id)) ∧
        next.availableDefs =
          rewrite.availableDefs ++ [normalized.definition] ∧
        next.stagedInstructions =
          rewrite.stagedInstructions ++ [normalized] ∧
        next.stagedInstructionSet =
          normalized.id :: rewrite.stagedInstructionSet := by
    simp only [BlockRewrite.emit, hRebuild, Option.bind_eq_bind]
    exact ⟨_, (check_bind hNotStaged _).trans
      ((check_bind hNormalized _).trans (check_bind hNormalizedClass _)),
      rfl, rfl, rfl, rfl, rfl⟩
  have hOthers : ∀ id, id ≠ original.id →
      next.resolve id = rewrite.resolve id := by
    intro id hne
    rw [BlockRewrite.resolve, BlockRewrite.resolve, hReplacements]
    split
    · rfl
    · rw [Function.update_of_ne hne]
  have hSelf : original.kind.resultClass ≠ .none →
      next.resolve original.id = normalized.id := by
    intro hNone
    rw [BlockRewrite.resolve, hReplacements, if_neg hNone,
      Function.update_self]
    rfl
  refine ⟨next, normalized, hRun, hInstructions, hKind, hOperands,
    ⟨?_, ?_, ?_, ?_⟩, hNotAvailable, hOthers, hSelf⟩
  · rw [hNextId]
    exact h.base_le.trans hNext
  · intro id hMem
    rw [hSet, List.mem_cons] at hMem
    rw [hNextId]
    rcases hMem with rfl | hMem
    · exact hNormalizedGiven
    · exact (h.staged id hMem).mono hPassed hNext
  · intro definition hMem
    rw [hDefs, List.mem_append, List.mem_singleton] at hMem
    rw [hNextId]
    rcases hMem with hMem | rfl
    · exact (h.available definition hMem).mono hPassed hNext
    · exact hNormalizedGiven
  · intro definition hMem hNone
    rw [hDefs]
    rw [List.mem_append, List.mem_singleton] at hMem
    rcases hMem with hMem | rfl
    · rw [hOthers _ (hDefinitions definition hMem)]
      exact List.mem_append_left _ (h.resolved definition hMem hNone)
    · refine List.mem_append_right _ (List.mem_singleton.mpr ?_)
      simp only [Instruction.definition] at hNone ⊢
      rw [hSelf hNone, hNormalizedClass]

/-- An original has been replaced by a definition. -/
structure Replaces (base : InstructionId) (passed : List InstructionId)
    (definitions : List Definition)
    (rewrite next : BlockRewrite Shape Cell Handler)
    (original : Instruction Shape Cell Handler) (def_ : InstructionId) :
    Prop where
  staged : next.stagedInstructions = rewrite.stagedInstructions
  rewriting : Rewriting base (passed ++ [original.id])
    (definitions ++ [original.definition]) next
  others : ∀ id, id ≠ original.id → next.resolve id = rewrite.resolve id
  self : next.resolve original.id = rewrite.resolve def_

theorem replaceDefinition_spec {base : InstructionId}
    {passed : List InstructionId} {definitions : List Definition}
    {rewrite : BlockRewrite Shape Cell Handler}
    (h : Rewriting base passed definitions rewrite)
    {original : Instruction Shape Cell Handler} {def_ : InstructionId}
    (hDef : (⟨def_, original.kind.resultClass⟩ : Definition) ∈ definitions)
    (hNone : original.kind.resultClass ≠ .none)
    (hDefinitions : ∀ definition ∈ definitions,
      definition.id ≠ original.id) :
    ∃ next, rewrite.replaceDefinition original def_ = some next ∧
      Replaces base passed definitions rewrite next original def_ := by
  have hResolved := h.resolved _ hDef hNone
  obtain ⟨next, hRun, hNextId, hReplacements, hDefs, hInstructions, hSet⟩ :
      ∃ next, rewrite.replaceDefinition original def_ = some next ∧
        next.nextId = rewrite.nextId ∧
        next.defReplacements = Function.update rewrite.defReplacements
          original.id (some (rewrite.resolve def_)) ∧
        next.availableDefs = rewrite.availableDefs ∧
        next.stagedInstructions = rewrite.stagedInstructions ∧
        next.stagedInstructionSet = rewrite.stagedInstructionSet :=
    ⟨_, (check_bind hNone _).trans (check_bind hResolved _), rfl, rfl, rfl,
      rfl, rfl⟩
  have hOthers : ∀ id, id ≠ original.id →
      next.resolve id = rewrite.resolve id := by
    intro id hne
    rw [BlockRewrite.resolve, BlockRewrite.resolve, hReplacements,
      Function.update_of_ne hne]
  have hSelf : next.resolve original.id = rewrite.resolve def_ := by
    rw [BlockRewrite.resolve, hReplacements, Function.update_self]
    rfl
  have hPassed : passed ⊆ passed ++ [original.id] :=
    List.subset_append_left _ _
  refine ⟨next, hRun, hInstructions, ⟨?_, ?_, ?_, ?_⟩, hOthers, hSelf⟩
  · rw [hNextId]
    exact h.base_le
  · intro id hMem
    rw [hSet] at hMem
    rw [hNextId]
    exact (h.staged id hMem).mono hPassed (Nat.le_refl _)
  · intro definition hMem
    rw [hDefs] at hMem
    rw [hNextId]
    exact (h.available definition hMem).mono hPassed (Nat.le_refl _)
  · intro definition hMem hClass
    rw [hDefs]
    rw [List.mem_append, List.mem_singleton] at hMem
    rcases hMem with hMem | rfl
    · rw [hOthers _ (hDefinitions definition hMem)]
      exact h.resolved definition hMem hClass
    · simp only [Instruction.definition]
      rw [hSelf]
      exact hResolved

end Invariant

end CloverVM.Jit
