import CloverVM.Jit.TaggedValueGuardRefinement

/-!
# Whole graphs, with and without the guards

The analysis ends on every published graph, and what it says holds of every
execution; so the guards that are left out would have passed, and the
simplified graph goes through the same blocks with the same values, and
leaves by the same exits.
-/

namespace CloverVM.Jit

open CloverVM.ObjectModel
open CloverVM.Machine

variable {Shape Cell Handler World : Type} [DecidableEq Shape]
  {R : Runtime Shape Cell Handler World} {facts : Facts Shape}
  {graph : Graph Shape Cell Handler}

/-- One block after the other; the ids that have been passed are those of the
blocks before. -/
theorem rewriteBlocks_spec (R : Runtime Shape Cell Handler World)
    (graph : Graph Shape Cell Handler) {base : InstructionId} :
    ∀ (blocks : List (Block Shape Cell Handler)) (nextId : InstructionId)
      (passed stagedInstructionSet : List InstructionId) (changed : Bool),
      (∀ block ∈ blocks, block.Verified graph) →
      (∀ block ∈ blocks, Covers facts block.definitions) →
      base ≤ nextId →
      (∀ id ∈ stagedInstructionSet, Given base passed nextId id) →
      (passed ++ blocks.flatMap Block.ids).Nodup →
      (∀ id ∈ passed ++ blocks.flatMap Block.ids, id < base) →
      ∃ rewritten changed',
        rewriteBlocks facts blocks nextId stagedInstructionSet changed =
          some (rewritten, changed') ∧
        List.Forall₂ (BlockMatches R facts) blocks rewritten := by
  intro blocks
  induction blocks with
  | nil =>
      intro nextId passed stagedInstructionSet changed _ _ _ _ _ _
      exact ⟨[], changed, rfl, List.Forall₂.nil⟩
  | cons block blocks ih =>
      intro nextId passed stagedInstructionSet changed hVerified hCovers
        hNext hStaged hNodup hBase
      rw [List.flatMap_cons, ← List.append_assoc] at hNodup hBase
      obtain ⟨rewritten, nextId', stagedInstructionSet', changed', hRun,
        hNext', hStaged', hMatches⟩ := rewriteBlock_spec R
          (hVerified block List.mem_cons_self)
          (hCovers block List.mem_cons_self) hNext hStaged
          (List.nodup_append.mp hNodup).1
          fun id hMem => hBase id (List.mem_append_left _ hMem)
      obtain ⟨rest, changed'', hRest, hRestMatches⟩ := ih nextId'
        (passed ++ block.ids) stagedInstructionSet' changed'
        (fun other hMem => hVerified other (List.mem_cons_of_mem _ hMem))
        (fun other hMem => hCovers other (List.mem_cons_of_mem _ hMem))
        hNext' hStaged' hNodup hBase
      refine ⟨rewritten :: rest, changed'', ?_,
        List.Forall₂.cons hMatches hRestMatches⟩
      rw [rewriteBlocks]
      exact (bind_of_eq_some hRun _).trans (bind_of_eq_some hRest _)

/-- Two lists that match, at one index. -/
theorem getElem?_of_forall₂ {α β : Type} {P : α → β → Prop} :
    ∀ {first : List α} {second : List β}, List.Forall₂ P first second →
      ∀ i : Nat, (first[i]? = none ∧ second[i]? = none) ∨
        ∃ a b, first[i]? = some a ∧ second[i]? = some b ∧ P a b := by
  intro first second h
  induction h with
  | nil =>
      intro i
      exact Or.inl ⟨rfl, rfl⟩
  | cons hHead _ ih =>
      intro i
      cases i with
      | zero => exact Or.inr ⟨_, _, rfl, rfl, hHead⟩
      | succ i => exact ih i

/-- The two graphs run alike from a block of the fixpoint. -/
theorem run_matches (hLast : FactsLast R.toShapes facts)
    {reachable : Finset Nat}
    (hClosed : ClosedBlocks R.toShapes graph facts reachable)
    {rewritten : List (Block Shape Cell Handler)}
    (hMatches : List.Forall₂ (BlockMatches R facts) graph.blocks
      rewritten) :
    ∀ n (entry : BlockEntry World),
      EntryHolds R graph facts reachable entry →
        run R { blocks := rewritten } n entry = run R graph n entry := by
  intro n
  induction n with
  | zero =>
      intro entry _
      rfl
  | succ n ih =>
      intro entry hEntry
      rw [run, run]
      rcases getElem?_of_forall₂ hMatches entry.block with
        ⟨hNone, hNone'⟩ | ⟨block, block', hBlock, hBlock', hPair⟩
      · rw [hNone, hNone']
        rfl
      · have hSame := hPair.run hLast (hClosed _ hEntry.1 block hBlock).1
          entry.arguments entry.world (hEntry.2 block hBlock)
        rw [hBlock, hBlock']
        simp only [Option.bind_eq_bind, Option.bind_some, hSame]
        cases hRun : runBlock R block entry.arguments entry.world with
        | none => rfl
        | some state =>
            cases state with
            | exited e world => rfl
            | running next =>
                exact ih next
                  (runBlock_sound hLast hClosed hEntry hBlock hRun)

/-- Started with the same values, the graphs are in the same state after any
number of blocks: they enter the same block with the same values, or have
taken the same exit with the same values. -/
def RunsAlike (R : Runtime Shape Cell Handler World)
    (graph other : Graph Shape Cell Handler) : Prop :=
  ∀ arguments world n, run R other n (startOf arguments world) =
    run R graph n (startOf arguments world)

/-- The simplification goes through: no check of the rewriter fails. -/
theorem simplifyTaggedValueGuards_spec
    (R : Runtime Shape Cell Handler World) (hGraph : graph.Published)
    (hAnalysis : taggedValueFactAnalysis R.toShapes graph = some facts)
    (hFixpoint : Fixpoint R.toShapes graph facts) {nextId : InstructionId}
    (hNext : ∀ id ∈ graph.ids, id < nextId) :
    ∃ simplified changed,
      simplifyTaggedValueGuards R.toShapes nextId graph =
        some (simplified, changed) ∧ RunsAlike R graph simplified := by
  obtain ⟨rewritten, changed, hRun, hMatches⟩ := rewriteBlocks_spec R graph
    graph.blocks nextId [] [] false hGraph.verified hFixpoint.covers
    (Nat.le_refl nextId) (fun _ h => (List.not_mem_nil h).elim)
    hGraph.nodup hNext
  refine ⟨if changed then { blocks := rewritten } else graph, changed, ?_,
    ?_⟩
  · rw [simplifyTaggedValueGuards, hAnalysis]
    simp only [Option.bind_eq_bind, Option.bind_some, hRun]
    rfl
  · intro arguments world n
    cases changed with
    | false => rfl
    | true =>
        obtain ⟨reachable, hReachable, hClosed⟩ := hFixpoint.closed
        exact run_matches hFixpoint.lasts hClosed hMatches n _
          (startOf_holds hReachable hFixpoint.entryUnknown arguments world)

/-! ## The guards that are left out -/

theorem runInstructions_typed :
    ∀ (instructions : List (Instruction Shape Cell Handler))
      (definitions : List Definition) (ρ ρ' : Environment)
      (world next : World),
      (definitions.map Definition.id ++
        instructions.map Instruction.id).Nodup →
      Typed definitions ρ →
      runInstructions R instructions ρ world = some (.next ρ' next) →
        Typed (definitions ++ instructions.map Instruction.definition)
          ρ' := by
  intro instructions
  induction instructions with
  | nil =>
      intro definitions ρ ρ' world next _ hTyped h
      cases h
      rw [List.map_nil, List.append_nil]
      exact hTyped
  | cons instruction rest ih =>
      intro definitions ρ ρ' world next hNodup hTyped h
      rw [runInstructions] at h
      obtain ⟨operands, -, h⟩ := Option.bind_eq_some_iff.mp h
      obtain ⟨flow, hFlow, h⟩ := Option.bind_eq_some_iff.mp h
      cases flow with
      | exit e world => cases h
      | next result middle =>
          have hDefinitions : ∀ definition ∈ definitions,
              definition.id ≠ instruction.id := by
            intro definition hMem
            exact (List.nodup_append.mp hNodup).2.2 _
              (List.mem_map_of_mem hMem) _ List.mem_cons_self
          have hRest := ih (definitions ++ [instruction.definition]) _ ρ'
            middle next (by simpa [Instruction.definition] using hNodup)
            (hTyped.define hDefinitions (execute_resultClass hFlow)) h
          rw [List.append_assoc] at hRest
          exact hRest

omit [DecidableEq Shape] in
/-- What an instruction uses is defined by those before it. -/
theorem operandsAvailable_of_getElem? :
    ∀ {instructions : List (Instruction Shape Cell Handler)}
      {definitions : List Definition} {position : Nat}
      {instruction : Instruction Shape Cell Handler},
      instructionsAvailable definitions instructions = true →
      instructions[position]? = some instruction →
        instruction.operandsAvailable (definitions ++
          (instructions.take position).map Instruction.definition) =
            true := by
  intro instructions
  induction instructions with
  | nil =>
      intro definitions position instruction _ h
      cases h
  | cons first rest ih =>
      intro definitions position instruction hAvailable h
      rw [instructionsAvailable, Bool.and_eq_true] at hAvailable
      cases position with
      | zero =>
          cases h
          rw [List.take_zero, List.map_nil, List.append_nil]
          exact hAvailable.1
      | succ position =>
          have hRest := ih hAvailable.2 h
          rw [List.append_assoc] at hRest
          exact hRest

theorem reached_typed (hGraph : graph.Published)
    {arguments : List ProgramValue} {start world : World}
    {block : Block Shape Cell Handler} {position : Nat} {ρ : Environment}
    (h : Reached R graph arguments start block position ρ world) :
    block ∈ graph.blocks ∧
      Typed (block.parameters.map Parameter.definition ++
        (block.instructions.take position).map Instruction.definition) ρ := by
  obtain ⟨n, entry, ρ₀, -, hBlock, hBind, hInstructions⟩ := h
  have hMem := List.mem_of_getElem? hBlock
  have hNodup := (List.nodup_append.mp (hGraph.nodup_ids hMem)).1
  have hSublist : (block.parameters.map Parameter.id ++
      (block.instructions.take position).map Instruction.id).Nodup := by
    refine hNodup.sublist (List.Sublist.append (List.Sublist.refl _) ?_)
    exact (List.take_sublist _ _).map _
  refine ⟨hMem, runInstructions_typed _ _ ρ₀ ρ entry.world world ?_
    (bindParameters_typed _ _ ρ₀ (List.nodup_append.mp hNodup).1 hBind)
    hInstructions⟩
  rw [List.map_map]
  exact hSublist

/-- Whenever an execution gets to a guard that is replaced by its input, the
guard passes; one that is left with the comparison of the shapes has a
pointer as its input. -/
def GuardsPass (R : Runtime Shape Cell Handler World)
    (graph : Graph Shape Cell Handler) (facts : Facts Shape) : Prop :=
  ∀ arguments start block position ρ world,
    Reached R graph arguments start block position ρ world →
    ∀ instruction, block.instructions[position]? = some instruction →
    ∀ nextId result nextId', simplifyTaggedValueGuard facts nextId
        instruction = some (result, nextId') →
      match result with
      | .keep => True
      | .replaceWithDef def_ =>
          ∃ v, ρ def_ = some (.program (.tagged v)) ∧
            runInstructions R [instruction] ρ world = some (.next
              (ρ.define instruction.id (some (.program (.tagged v))))
              world)
      | .replace _ =>
          ∃ v s, isPtr v.value = true ∧ instruction.operands.mapM ρ =
            some [.program (.tagged v), .snapshot s]

theorem guardsPass (hGraph : graph.Published)
    (hFixpoint : Fixpoint R.toShapes graph facts) :
    GuardsPass R graph facts := by
  intro arguments start block position ρ world hReached instruction
    hInstruction nextId result nextId' hSimplify
  have hHolds := reached_holds hFixpoint hReached
  obtain ⟨hBlock, hTyped⟩ := reached_typed hGraph hReached
  have hAvailable := operandsAvailable_of_getElem?
    (hGraph.verified block hBlock).instructions hInstruction
  have hCovers : Covers facts (block.parameters.map Parameter.definition ++
      (block.instructions.take position).map Instruction.definition) := by
    refine (hFixpoint.covers block hBlock).subset ?_
    refine List.append_subset.mpr ⟨List.subset_append_left _ _, ?_⟩
    refine List.subset_append_of_subset_right _ ?_
    exact List.map_subset _ (List.take_subset _ _)
  obtain ⟨result', nextId'', hRun, hSimplifies⟩ :=
    simplifyTaggedValueGuard_spec hAvailable hCovers nextId
  rw [hSimplify] at hRun
  cases hRun
  cases result with
  | keep => trivial
  | replaceWithDef def_ =>
      obtain ⟨v, operands, hValue, hOperands, hPasses⟩ :=
        removed_guard_passes hTyped hHolds hAvailable hSimplifies
      refine ⟨v, hValue, ?_⟩
      rw [runInstructions]
      simp only [Option.bind_eq_bind, hOperands, Option.bind_some, hPasses,
        resultFlow]
      rfl
  | replace proposed =>
      obtain ⟨v, s, hPtr, hOperands, -⟩ := weakened_guard_sees_pointer hTyped
        hHolds hAvailable hSimplifies
      exact ⟨v, s, hPtr, hOperands⟩

/-- On every published graph the worklist ends; the facts hold wherever an
execution gets to, and name only shapes that cannot change; the guards that
are left out would have passed; and the simplified graph runs as the original
does. -/
theorem tagged_value_facts_sound (R : Runtime Shape Cell Handler World)
    (hGraph : graph.Published) {nextId : InstructionId}
    (hNext : ∀ id ∈ graph.ids, id < nextId) :
    ∃ start last simplified changed,
      initialAnalysis graph = some start ∧
      (∀ turns, graph.analysisTurns ≤ turns →
        repeatTurns FactAnalysis.done (visitBlock R.toShapes graph) turns
          start = some last) ∧
      last.worklist = [] ∧
      taggedValueFactAnalysis R.toShapes graph = some last.facts ∧
      FactsLast R.toShapes last.facts ∧
      (∀ arguments world block position ρ world',
        Reached R graph arguments world block position ρ world' →
          Holds R last.facts ρ world') ∧
      GuardsPass R graph last.facts ∧
      simplifyTaggedValueGuards R.toShapes nextId graph =
        some (simplified, changed) ∧
      RunsAlike R graph simplified := by
  obtain ⟨start, last, hStart, hTurns, hEnd, hAnalysis, hFixpoint⟩ :=
    taggedValueFactAnalysis_spec R.toShapes hGraph
  obtain ⟨simplified, changed, hSimplify, hAlike⟩ :=
    simplifyTaggedValueGuards_spec R hGraph hAnalysis hFixpoint hNext
  exact ⟨start, last, simplified, changed, hStart, hTurns, hEnd, hAnalysis,
    hFixpoint.lasts, fun _ _ _ _ _ _ hReached =>
      reached_holds hFixpoint hReached, guardsPass hGraph hFixpoint,
    hSimplify, hAlike⟩

/-! ## A loop -/

/-- The class of SMIs, and that of all values but pointers. -/
def smiClass : TaggedValueClass :=
  .maskedEqual 0x1f#5 0#5 (by decide)

def anyInlineClass : TaggedValueClass :=
  .maskedEqual valuePtrMask 0#5 (by decide)

/-- A system in which all objects are floats. -/
def floatRuntime : Runtime Unit Unit Unit Unit where
  isImmutable _ := true
  floatShape := ()
  floatShape_isImmutable := rfl
  shapeOf _ _ := ()
  isValid _ _ := true
  boxF64 _ _ := (⟨⟨0x10#64⟩, by decide⟩, ())
  unboxF64 _ _ := some 0#64
  negF64 bits := bits
  binaryArithmeticF64 _ lhs _ := lhs
  binaryComparisonF64 _ lhs rhs := lhs == rhs
  uninitialized _ := .ofBool false
  saveLinkRegisterToFrame _ := ()
  restoreLinkRegisterFromFrame _ := ()
  trustedHandlerCall _ _ _ := none
  pythonCall _ _ _ _ := none
  isPtr_boxF64 _ _ := rfl
  shapeOf_boxF64 _ _ := rfl
  boxF64_keeps _ _ _ _ _ := rfl
  saveLinkRegisterToFrame_keeps _ _ _ _ := rfl
  restoreLinkRegisterFromFrame_keeps _ _ _ _ := rfl
  trustedHandlerCall_keeps _ _ _ _ _ h := by cases h
  pythonCall_keeps _ _ _ _ _ _ h := by cases h

/-- `while n < 9: n = n + 1`, with the guards that the translator emits.  The
first tests the argument; those in the loop are proved. -/
def countingLoop : Graph Unit Unit Unit where
  blocks :=
    [ { parameters := [⟨0, .taggedValue⟩]
        instructions :=
          [ ⟨1, .snapshot 0, [0]⟩,
            ⟨2, .inlineTagGuard smiClass, [0, 1]⟩ ]
        terminator := ⟨3, .unconditionalBranch ⟨1, [2]⟩, []⟩ },
      { parameters := [⟨4, .taggedValue⟩]
        instructions :=
          [ ⟨5, .snapshot 2, [4]⟩,
            ⟨6, .inlineTagGuard smiClass, [4, 5]⟩,
            ⟨7, .const (.ofSmi (Value.ofInt 9) (tagOf_ofInt 9)), []⟩,
            ⟨8, .binaryComparisonSmi .less, [6, 7]⟩,
            ⟨9, .snapshot 4, [8]⟩,
            ⟨10, .inlineTagGuard anyInlineClass, [8, 9]⟩ ]
        terminator :=
          ⟨11, .conditionalBranch ⟨2, [6]⟩ ⟨3, [6]⟩, [10]⟩ },
      { parameters := [⟨12, .taggedValue⟩]
        instructions :=
          [ ⟨13, .snapshot 6, [12]⟩,
            ⟨14, .const (.ofSmi (Value.ofInt 1) (tagOf_ofInt 1)), []⟩,
            ⟨15, .binaryArithmeticSmiWithSnapshot .addSmi, [12, 14, 13]⟩ ]
        terminator := ⟨16, .unconditionalBranch ⟨1, [15]⟩, []⟩ },
      { parameters := [⟨17, .taggedValue⟩]
        instructions := []
        terminator := ⟨18, .bareReturn, [17]⟩ } ]

theorem countingLoop_published : countingLoop.Published where
  entry := by decide
  nodup := by decide
  verified := by
    intro block hBlock
    simp only [countingLoop, List.mem_cons, List.not_mem_nil, or_false]
      at hBlock
    rcases hBlock with rfl | rfl | rfl | rfl
    · exact ⟨by decide, by decide, fun edge hEdge => by
        obtain rfl := List.mem_singleton.mp hEdge
        exact ⟨_, rfl, by decide⟩⟩
    · refine ⟨by decide, by decide, fun edge hEdge => ?_⟩
      rcases List.mem_cons.mp hEdge with rfl | hEdge
      · exact ⟨_, rfl, by decide⟩
      · obtain rfl := List.mem_singleton.mp hEdge
        exact ⟨_, rfl, by decide⟩
    · exact ⟨by decide, by decide, fun edge hEdge => by
        obtain rfl := List.mem_singleton.mp hEdge
        exact ⟨_, rfl, by decide⟩⟩
    · exact ⟨by decide, by decide, fun edge hEdge => by cases hEdge⟩

/-- The guards in the loop go, and the loop runs as before. -/
theorem tagged_value_facts_sound_countingLoop :
    ∃ simplified changed,
      simplifyTaggedValueGuards floatRuntime.toShapes 19 countingLoop =
        some (simplified, changed) ∧
      RunsAlike floatRuntime countingLoop simplified := by
  obtain ⟨_, _, simplified, changed, _, _, _, _, _, _, _, hSimplify,
    hAlike⟩ := tagged_value_facts_sound floatRuntime countingLoop_published
      (show ∀ id ∈ countingLoop.ids, id < 19 by decide)
  exact ⟨simplified, changed, hSimplify, hAlike⟩

example : ((simplifyTaggedValueGuards floatRuntime.toShapes 19
    countingLoop).map fun result => result.1.blocks.map fun block =>
      block.instructions.map Instruction.id) =
    some [[1, 2], [5, 7, 19, 20], [13, 14, 15], []] := by
  decide +kernel

end CloverVM.Jit
