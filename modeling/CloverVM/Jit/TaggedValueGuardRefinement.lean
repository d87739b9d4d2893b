import CloverVM.Jit.TaggedValueGuardSimplification

/-!
# A simplified graph runs as the original does

The two graphs are run side by side.  A definition of the original has the
value of the definition that it has been replaced by.  Where the original has
a guard that the other graph does not have, the facts say that it passes.
-/

namespace CloverVM.Jit

open CloverVM.ObjectModel
open CloverVM.Machine

variable {Shape Cell Handler World : Type} [DecidableEq Shape]
  {R : Runtime Shape Cell Handler World} {facts : Facts Shape}

/-- Each definition has a value of its class. -/
def Typed (definitions : List Definition) (ρ : Environment) : Prop :=
  ∀ definition ∈ definitions, definition.resultClass ≠ .none →
    ∃ v, ρ definition.id = some v ∧
      resultClassOf (some v) = definition.resultClass

theorem Typed.tagged {definitions : List Definition} {ρ : Environment}
    (h : Typed definitions ρ) {id : InstructionId}
    (hId : available definitions (.programValue .taggedValue) id = true) :
    ∃ v : TaggedValue, ρ id = some (.program (.tagged v)) := by
  obtain ⟨value, hValue, hClass⟩ :=
    h _ ((available_programValue_iff _ _ _).mp hId) nofun
  cases value with
  | snapshot s => cases hClass
  | program v =>
      cases v with
      | tagged v => exact ⟨v, hValue⟩
      | f64 bits => cases hClass
      | pointer address => cases hClass

theorem Typed.snapshot {definitions : List Definition} {ρ : Environment}
    (h : Typed definitions ρ) {id : InstructionId}
    (hId : available definitions .snapshot id = true) :
    ∃ s, ρ id = some (.snapshot s) := by
  obtain ⟨⟨_, resultClass⟩, hMem, rfl, hMatches⟩ :=
    (available_iff _ _ _).mp hId
  cases resultClass with
  | none => cases hMatches
  | programValue representation => cases hMatches
  | snapshot =>
      obtain ⟨value, hValue, hClass⟩ := h _ hMem nofun
      cases value with
      | snapshot s => exact ⟨s, hValue⟩
      | program v => cases hClass

omit [DecidableEq Shape] in
theorem Typed.define {definitions : List Definition} {ρ : Environment}
    (h : Typed definitions ρ)
    {instruction : Instruction Shape Cell Handler}
    (hDefinitions : ∀ definition ∈ definitions,
      definition.id ≠ instruction.id)
    {result : Option DefinitionValue}
    (hClass : instruction.kind.resultClass = resultClassOf result) :
    Typed (definitions ++ [instruction.definition])
      (ρ.define instruction.id result) := by
  intro definition hMem hNone
  rw [List.mem_append, List.mem_singleton] at hMem
  cases result with
  | none =>
      rcases hMem with hMem | rfl
      · exact h definition hMem hNone
      · exact absurd hClass hNone
  | some value =>
      rw [Environment.define]
      rcases hMem with hMem | rfl
      · rw [Function.update_of_ne (hDefinitions definition hMem)]
        exact h definition hMem hNone
      · exact ⟨value, Function.update_self _ _ _, hClass.symm⟩

omit [DecidableEq Shape] in
theorem bindParameters_typed :
    ∀ (parameters : List Parameter) (arguments : List ProgramValue)
      (ρ : Environment), (parameters.map Parameter.id).Nodup →
        bindParameters parameters arguments = some ρ →
          Typed (parameters.map Parameter.definition) ρ := by
  intro parameters
  induction parameters with
  | nil =>
      intro arguments ρ _ _ definition hMem
      cases hMem
  | cons parameter parameters ih =>
      intro arguments ρ hNodup h
      cases arguments with
      | nil => cases h
      | cons argument arguments =>
          rw [bindParameters] at h
          rw [List.map_cons, List.nodup_cons] at hNodup
          split at h
          · rename_i hRepresentation
            obtain ⟨rest, hRest, hEq⟩ := Option.bind_eq_some_iff.mp h
            cases hEq
            intro definition hMem hNone
            rw [List.map_cons, List.mem_cons] at hMem
            rcases hMem with rfl | hMem
            · refine ⟨.program argument, Function.update_self _ _ _, ?_⟩
              rw [resultClassOf, hRepresentation]
              rfl
            · obtain ⟨other, hOther, rfl⟩ := List.mem_map.mp hMem
              have hne : other.id ≠ parameter.id := fun hEq =>
                hNodup.1 (hEq ▸ List.mem_map_of_mem hOther)
              rw [Parameter.definition, Function.update_of_ne hne]
              exact ih arguments rest hNodup.2 hRest _ hMem hNone
          · cases h

/-! ## Guards that are left out -/

/-- What the callback decides, and from which facts. -/
inductive Simplifies (facts : Facts Shape) (nextId : InstructionId)
    (instruction : Instruction Shape Cell Handler) :
    RewriteResult Shape Cell Handler → InstructionId → Prop
  | keep : Simplifies facts nextId instruction .keep nextId
  | inlineTag (expectedClass : TaggedValueClass)
      (value snapshot : InstructionId) (x : TaggedValueSet Shape)
      (hKind : instruction.kind = .inlineTagGuard expectedClass)
      (hOperands : instruction.operands = [value, snapshot])
      (hFacts : facts value = some x) (hLe : x ≤ .fromClass expectedClass) :
      Simplifies facts nextId instruction (.replaceWithDef value) nextId
  | exactShape (shape : Shape) (object snapshot : InstructionId)
      (x : TaggedValueSet Shape)
      (hKind : instruction.kind = .shapeGuard .pointerAndShapeGuard shape)
      (hOperands : instruction.operands = [object, snapshot])
      (hFacts : facts object = some x) (hExact : x.exactShape = some shape) :
      Simplifies facts nextId instruction (.replaceWithDef object) nextId
  | shapeOnly (shape : Shape) (object snapshot : InstructionId)
      (x : TaggedValueSet Shape)
      (hKind : instruction.kind = .shapeGuard .pointerAndShapeGuard shape)
      (hOperands : instruction.operands = [object, snapshot])
      (hFacts : facts object = some x) (hLe : x ≤ .pointer) :
      Simplifies facts nextId instruction
        (.replace
          { id := nextId
            kind := .shapeGuard .shapeOnlyGuard shape
            operands := instruction.operands }) (nextId + 1)

theorem simplifyTaggedValueGuard_spec {definitions : List Definition}
    {instruction : Instruction Shape Cell Handler}
    (hAvailable : instruction.operandsAvailable definitions = true)
    (hCovers : Covers facts definitions) (nextId : InstructionId) :
    ∃ result nextId', simplifyTaggedValueGuard facts nextId instruction =
      some (result, nextId') ∧
        Simplifies facts nextId instruction result nextId' := by
  have hHead : ∀ id rest, instruction.operands = id :: rest →
      ∀ fixed, instruction.kind.fixedOperands =
        .programValue .taggedValue :: fixed → ∃ x, facts id = some x := by
    intro id rest hOperands fixed hFixed
    obtain ⟨id', x, hId, -, hx⟩ :=
      sourceFacts_spec hAvailable hCovers hFixed
    rw [hOperands] at hId
    cases hId
    exact ⟨x, hx⟩
  unfold simplifyTaggedValueGuard
  split
  · rename_i expectedClass value snapshot hKind hOperands
    obtain ⟨x, hx⟩ := hHead _ _ hOperands _ (by rw [hKind]; rfl)
    simp only [hx, Option.bind_eq_bind, Option.bind_some]
    split
    · rename_i hLe
      exact ⟨_, _, rfl, .inlineTag expectedClass value snapshot x hKind
        hOperands hx hLe⟩
    · exact ⟨_, _, rfl, .keep⟩
  · rename_i shape object snapshot hKind hOperands
    obtain ⟨x, hx⟩ := hHead _ _ hOperands _ (by rw [hKind]; rfl)
    simp only [hx, Option.bind_eq_bind, Option.bind_some]
    split
    · rename_i hExact
      exact ⟨_, _, rfl, .exactShape shape object snapshot x hKind hOperands
        hx hExact⟩
    · split
      · rename_i hLe
        refine ⟨_, _, rfl, ?_⟩
        rw [← hOperands]
        exact .shapeOnly shape object snapshot x hKind hOperands hx hLe
      · exact ⟨_, _, rfl, .keep⟩
  · exact ⟨_, _, rfl, .keep⟩

omit [DecidableEq Shape] in
theorem HasValue.isPtr_of_pointer {world : World} {v : TaggedValue}
    (h : HasValue R world .pointer v) : isPtr v.value = true :=
  (TaggedValueSet.contains_pointer_iff v.valid).mp h

omit [DecidableEq Shape] in
/-- A set that names a shape has only objects of it. -/
theorem HasValue.of_exactShape {world : World} {v : TaggedValue}
    {x : TaggedValueSet Shape} {shape : Shape} (h : HasValue R world x v)
    (hExact : x.exactShape = some shape) :
    isPtr v.value = true ∧ R.shapeOf world v.value = shape := by
  have hPointer := (x.shaped (by rw [hExact]; nofun)).2
  have hBit := (TaggedValueSet.and_not_eq_zero_iff _ _).mp hPointer _ h.1
  rw [TaggedValueSet.getLsbD_pointerTaggedValueSetBits _ v.valid] at hBit
  exact ⟨hBit, h.2 shape hExact⟩

omit [DecidableEq Shape] in
/-- The operands of a guard with a snapshot. -/
theorem guard_operands {definitions : List Definition} {ρ : Environment}
    (hTyped : Typed definitions ρ)
    {instruction : Instruction Shape Cell Handler}
    (hAvailable : instruction.operandsAvailable definitions = true)
    (hFixed : instruction.kind.fixedOperands =
      [.programValue .taggedValue, .snapshot])
    {value snapshot : InstructionId}
    (hOperands : instruction.operands = [value, snapshot]) :
    ∃ v s, ρ value = some (.program (.tagged v)) ∧
      instruction.operands.mapM ρ =
        some [.program (.tagged v), .snapshot s] := by
  rw [Instruction.operandsAvailable, hFixed, hOperands] at hAvailable
  simp only [operandsAvailable, Bool.and_eq_true] at hAvailable
  obtain ⟨v, hv⟩ := hTyped.tagged hAvailable.1
  obtain ⟨s, hs⟩ := hTyped.snapshot hAvailable.2.1
  refine ⟨v, s, hv, ?_⟩
  rw [hOperands, List.mapM_cons, hv, List.mapM_cons, hs]
  rfl

/-- A guard that is replaced by its input passes. -/
theorem removed_guard_passes {definitions : List Definition}
    {ρ : Environment} {world : World} (hTyped : Typed definitions ρ)
    (hHolds : Holds R facts ρ world)
    {instruction : Instruction Shape Cell Handler}
    (hAvailable : instruction.operandsAvailable definitions = true)
    {nextId nextId' def_ : InstructionId}
    (h : Simplifies facts nextId instruction (.replaceWithDef def_)
      nextId') :
    ∃ v operands, ρ def_ = some (.program (.tagged v)) ∧
      instruction.operands.mapM ρ = some operands ∧
      execute R instruction.kind operands world =
        some (resultFlow (.tagged v) world) := by
  cases h with
  | inlineTag expectedClass value snapshot x hKind hOperands hFacts hLe =>
      obtain ⟨v, s, hv, hValues⟩ := guard_operands hTyped hAvailable
        (by rw [hKind]; rfl) hOperands
      obtain ⟨x', hx', hHas⟩ := hHolds _ v hv
      rw [hFacts] at hx'
      cases hx'
      have hAccepts : expectedClass.accepts (tagOf v.value) = true :=
        (TaggedValueSet.contains_fromClass_iff v.valid _).mp (hHas.mono hLe)
      refine ⟨v, _, hv, hValues, ?_⟩
      rw [hKind]
      simp only [execute, guardOperands, Option.bind_eq_bind,
        Option.bind_some, hAccepts, guardFlow, if_true]
      rfl
  | exactShape shape object snapshot x hKind hOperands hFacts hExact =>
      obtain ⟨v, s, hv, hValues⟩ := guard_operands hTyped hAvailable
        (by rw [hKind]; rfl) hOperands
      obtain ⟨x', hx', hHas⟩ := hHolds _ v hv
      rw [hFacts] at hx'
      cases hx'
      obtain ⟨hPtr, hShape⟩ := hHas.of_exactShape hExact
      refine ⟨v, _, hv, hValues, ?_⟩
      rw [hKind]
      simp only [execute, guardOperands, Option.bind_eq_bind,
        Option.bind_some, shapeGuardPasses, hPtr, hShape, Bool.true_and,
        beq_self_eq_true, guardFlow, if_true]
      rfl

/-- A guard that is left with the comparison of the shapes sees a pointer,
and does what it did. -/
theorem weakened_guard_sees_pointer {definitions : List Definition}
    {ρ : Environment} {world : World} (hTyped : Typed definitions ρ)
    (hHolds : Holds R facts ρ world)
    {instruction proposed : Instruction Shape Cell Handler}
    (hAvailable : instruction.operandsAvailable definitions = true)
    {nextId nextId' : InstructionId}
    (h : Simplifies facts nextId instruction (.replace proposed) nextId') :
    ∃ v s, isPtr v.value = true ∧
      instruction.operands.mapM ρ =
        some [.program (.tagged v), .snapshot s] ∧
      execute R proposed.kind [.program (.tagged v), .snapshot s] world =
        execute R instruction.kind [.program (.tagged v), .snapshot s]
          world := by
  cases h with
  | shapeOnly shape object snapshot x hKind hOperands hFacts hLe =>
      obtain ⟨v, s, hv, hValues⟩ := guard_operands hTyped hAvailable
        (by rw [hKind]; rfl) hOperands
      obtain ⟨x', hx', hHas⟩ := hHolds _ v hv
      rw [hFacts] at hx'
      cases hx'
      have hPtr := HasValue.isPtr_of_pointer (R := R) (hHas.mono hLe)
      refine ⟨v, s, hPtr, hValues, ?_⟩
      rw [hKind]
      simp only [execute, guardOperands, Option.bind_eq_bind,
        Option.bind_some, shapeGuardPasses, hPtr, Bool.true_and, if_true]

/-! ## Two executions side by side -/

theorem mapM_map_congr {α β γ : Type} {f : α → Option γ} {g : β → Option γ}
    {h : α → β} :
    ∀ {list : List α}, (∀ a ∈ list, g (h a) = f a) →
      (list.map h).mapM g = list.mapM f := by
  intro list
  induction list with
  | nil =>
      intro _
      rfl
  | cons a list ih =>
      intro hEach
      rw [List.map_cons, List.mapM_cons, List.mapM_cons,
        hEach a List.mem_cons_self,
        ih fun b hb => hEach b (List.mem_cons_of_mem _ hb)]

/-- Neither goes on, both leave in the same way, or both go on with the same
heap and environments that are related. -/
inductive FlowMatches (P : Environment → Environment → World → Prop) :
    Option (Flow World Environment) → Option (Flow World Environment) → Prop
  | undefined : FlowMatches P none none
  | exit (e : Exit) (world : World) :
      FlowMatches P (some (.exit e world)) (some (.exit e world))
  | next (ρ ρ' : Environment) (world : World) (h : P ρ ρ' world) :
      FlowMatches P (some (.next ρ world)) (some (.next ρ' world))

/-- A definition has the value of what it has been replaced by. -/
structure Simulates (R : Runtime Shape Cell Handler World)
    (facts : Facts Shape) (definitions : List Definition)
    (rewrite : BlockRewrite Shape Cell Handler) (ρ ρ' : Environment)
    (world : World) : Prop where
  typed : Typed definitions ρ
  holds : Holds R facts ρ world
  values : ∀ definition ∈ definitions, definition.resultClass ≠ .none →
    ρ' (rewrite.resolve definition.id) = ρ definition.id

theorem runInstructions_append
    (first second : List (Instruction Shape Cell Handler)) :
    ∀ (ρ : Environment) (world : World),
      runInstructions R (first ++ second) ρ world =
        runInstructions R first ρ world >>= fun flow =>
          match flow with
          | .exit e world => some (.exit e world)
          | .next ρ world => runInstructions R second ρ world := by
  induction first with
  | nil =>
      intro ρ world
      rfl
  | cons instruction rest ih =>
      intro ρ world
      rw [List.cons_append, runInstructions, runInstructions]
      simp only [Option.bind_eq_bind, Option.bind_assoc]
      congr 1
      funext operands
      congr 1
      funext flow
      cases flow with
      | exit e world => rfl
      | next result world => exact ih _ world

theorem FlowMatches.append {P Q : Environment → Environment → World → Prop}
    {first first' second second' : List (Instruction Shape Cell Handler)}
    {ρ ρ' : Environment} {world : World}
    (h : FlowMatches P (runInstructions R first ρ world)
      (runInstructions R first' ρ' world))
    (hSecond : ∀ ρ ρ' world, P ρ ρ' world →
      FlowMatches Q (runInstructions R second ρ world)
        (runInstructions R second' ρ' world)) :
    FlowMatches Q (runInstructions R (first ++ second) ρ world)
      (runInstructions R (first' ++ second') ρ' world) := by
  rw [runInstructions_append, runInstructions_append]
  generalize runInstructions R first ρ world = flow at h
  generalize runInstructions R first' ρ' world = flow' at h
  cases h with
  | undefined => exact .undefined
  | exit e world => exact .exit e world
  | next ρ ρ' world hP => exact hSecond ρ ρ' world hP

omit [DecidableEq Shape] in
/-- The operands of both are the same values. -/
theorem Simulates.operands {definitions : List Definition}
    {rewrite : BlockRewrite Shape Cell Handler} {ρ ρ' : Environment}
    {world : World} (h : Simulates R facts definitions rewrite ρ ρ' world)
    {fixed : List OperandClass} {trailing : Option OperandClass}
    {ids : List InstructionId}
    (hAvailable : operandsAvailable definitions fixed trailing ids = true) :
    (ids.map rewrite.resolve).mapM ρ' = ids.mapM ρ := by
  have hEach : ∀ id ∈ ids, ρ' (rewrite.resolve id) = ρ id := by
    intro id hId
    obtain ⟨definition, hMem, hEq, hNone⟩ :=
      exists_result_of_operandsAvailable hAvailable id hId
    rw [← hEq]
    exact h.values definition hMem hNone
  exact mapM_map_congr hEach

/-- An instruction that is written down does what the original does. -/
theorem Emits.matches {base : InstructionId} {passed : List InstructionId}
    {definitions : List Definition}
    {rewrite next : BlockRewrite Shape Cell Handler}
    {original proposed normalized : Instruction Shape Cell Handler}
    (h : Emits base passed definitions rewrite next original proposed
      normalized)
    (hRewriting : Rewriting base passed definitions rewrite)
    (hLast : FactsLast R.toShapes facts)
    (hClosed : InstructionClosed R.toShapes facts original)
    (hAvailable : original.operandsAvailable definitions = true)
    (hDefinitions : ∀ definition ∈ definitions,
      definition.id ≠ original.id)
    (hOperands : proposed.operands = original.operands)
    {ρ ρ' : Environment} {world : World}
    (hSimulates : Simulates R facts definitions rewrite ρ ρ' world)
    (hSame : ∀ operands, original.operands.mapM ρ = some operands →
      execute R proposed.kind operands world =
        execute R original.kind operands world) :
    FlowMatches
      (Simulates R facts (definitions ++ [original.definition]) next)
      (runInstructions R [original] ρ world)
      (runInstructions R [normalized] ρ' world) := by
  rw [runInstructions, runInstructions, h.operands, hOperands,
    hSimulates.operands hAvailable, h.kind]
  cases hValues : original.operands.mapM ρ with
  | none => exact .undefined
  | some operands =>
      simp only [Option.bind_eq_bind, Option.bind_some, hSame _ hValues]
      cases hFlow : execute R original.kind operands world with
      | none => exact .undefined
      | some flow =>
          cases flow with
          | exit e world => exact .exit e world
          | next result world' =>
              have hClass := execute_resultClass hFlow
              refine .next _ _ world' ⟨hSimulates.typed.define hDefinitions
                hClass, execute_holds hLast hClosed hSimulates.holds hValues
                hFlow, ?_⟩
              intro definition hMem hNone
              rw [List.mem_append, List.mem_singleton] at hMem
              cases result with
              | none =>
                  rcases hMem with hMem | rfl
                  · rw [h.others _ (hDefinitions definition hMem)]
                    exact hSimulates.values definition hMem hNone
                  · exact absurd hClass hNone
              | some value =>
                  rw [Environment.define, Environment.define]
                  rcases hMem with hMem | rfl
                  · have hResolved := hRewriting.resolved definition hMem
                      hNone
                    rw [h.others _ (hDefinitions definition hMem),
                      Function.update_of_ne (h.fresh _ hResolved),
                      Function.update_of_ne (hDefinitions definition hMem)]
                    exact hSimulates.values definition hMem hNone
                  · rw [show original.definition.id = original.id from rfl,
                      h.self hNone, Function.update_self,
                      Function.update_self]

/-- A guard that is left out does what nothing does. -/
theorem Replaces.matches {base : InstructionId}
    {passed : List InstructionId} {definitions : List Definition}
    {rewrite next : BlockRewrite Shape Cell Handler}
    {original : Instruction Shape Cell Handler} {def_ : InstructionId}
    (h : Replaces base passed definitions rewrite next original def_)
    (hLast : FactsLast R.toShapes facts)
    (hClosed : InstructionClosed R.toShapes facts original)
    (hDef : (⟨def_, original.kind.resultClass⟩ : Definition) ∈ definitions)
    (hNone : original.kind.resultClass ≠ .none)
    (hDefinitions : ∀ definition ∈ definitions,
      definition.id ≠ original.id)
    {ρ ρ' : Environment} {world : World}
    (hSimulates : Simulates R facts definitions rewrite ρ ρ' world)
    {v : TaggedValue} {operands : List DefinitionValue}
    (hValue : ρ def_ = some (.program (.tagged v)))
    (hOperands : original.operands.mapM ρ = some operands)
    (hPasses : execute R original.kind operands world =
      some (resultFlow (.tagged v) world)) :
    FlowMatches
      (Simulates R facts (definitions ++ [original.definition]) next)
      (runInstructions R [original] ρ world)
      (runInstructions R [] ρ' world) := by
  rw [runInstructions, runInstructions]
  simp only [Option.bind_eq_bind, hOperands, Option.bind_some, hPasses,
    resultFlow]
  refine .next _ _ world ⟨hSimulates.typed.define hDefinitions
    (execute_resultClass hPasses), execute_holds hLast hClosed
    hSimulates.holds hOperands hPasses, ?_⟩
  intro definition hMem hClass
  rw [List.mem_append, List.mem_singleton] at hMem
  rw [Environment.define]
  rcases hMem with hMem | rfl
  · rw [h.others _ (hDefinitions definition hMem),
      Function.update_of_ne (hDefinitions definition hMem)]
    exact hSimulates.values definition hMem hClass
  · rw [show original.definition.id = original.id from rfl, h.self,
      Function.update_self, ← hValue]
    exact hSimulates.values _ hDef hNone

/-! ## One instruction -/

/-- An instruction of the block has been rewritten: what is there in its
place does what it did, if the facts are those of a fixpoint. -/
structure RewritesInstruction (R : Runtime Shape Cell Handler World)
    (facts : Facts Shape) (base : InstructionId)
    (passed : List InstructionId) (definitions : List Definition)
    (rewrite next : BlockRewrite Shape Cell Handler)
    (original : Instruction Shape Cell Handler)
    (new : List (Instruction Shape Cell Handler)) : Prop where
  staged : next.stagedInstructions = rewrite.stagedInstructions ++ new
  rewriting : Rewriting base (passed ++ [original.id])
    (definitions ++ [original.definition]) next
  flow : FactsLast R.toShapes facts →
    InstructionClosed R.toShapes facts original → ∀ ρ ρ' world,
      Simulates R facts definitions rewrite ρ ρ' world →
        FlowMatches
          (Simulates R facts (definitions ++ [original.definition]) next)
          (runInstructions R [original] ρ world)
          (runInstructions R new ρ' world)

omit [DecidableEq Shape] in
/-- An id of the graph that has not been passed has not been given. -/
theorem Given.ne {base nextId id given : InstructionId}
    {passed : List InstructionId} (h : Given base passed nextId given)
    (hId : id < base) (hNew : id ∉ passed) : given ≠ id := by
  rintro rfl
  rcases h with hPassed | ⟨hBase, -⟩
  · exact hNew hPassed
  · exact absurd hId (Nat.not_lt.mpr hBase)

omit [DecidableEq Shape] in
/-- The next id has not been given. -/
theorem Given.ne_nextId {base nextId given : InstructionId}
    {passed : List InstructionId} (h : Given base passed nextId given)
    (hPassed : ∀ id ∈ passed, id < base) (hBase : base ≤ nextId) :
    given ≠ nextId := by
  rintro rfl
  rcases h with hMem | ⟨-, hLess⟩
  · exact absurd (hPassed _ hMem) (Nat.not_lt.mpr hBase)
  · exact absurd hLess (Nat.lt_irrefl _)

theorem rewriteInstruction_spec (R : Runtime Shape Cell Handler World)
    {base : InstructionId} {passed : List InstructionId}
    {definitions : List Definition}
    {rewrite : BlockRewrite Shape Cell Handler}
    (h : Rewriting base passed definitions rewrite)
    {original : Instruction Shape Cell Handler}
    (hAvailable : original.operandsAvailable definitions = true)
    (hCovers : Covers facts definitions)
    (hDefinitions : ∀ definition ∈ definitions,
      definition.id ≠ original.id)
    (hNew : original.id ∉ passed) (hOriginal : original.id < base)
    (hBase : ∀ id ∈ passed, id < base) :
    ∃ next new, rewrite.rewriteInstruction facts original = some next ∧
      RewritesInstruction R facts base passed definitions rewrite next
        original new := by
  obtain ⟨result, nextId, hSimplify, hResult⟩ :=
    simplifyTaggedValueGuard_spec hAvailable hCovers rewrite.nextId
  rw [BlockRewrite.rewriteInstruction, hSimplify]
  simp only [Option.bind_eq_bind, Option.bind_some]
  have hSelf : Given base (passed ++ [original.id]) nextId original.id :=
    Or.inl (List.mem_append_right _ (List.mem_singleton_self _))
  cases result with
  | keep =>
      cases hResult
      obtain ⟨next, normalized, hEmit, hEmits⟩ := emit_spec h hAvailable rfl
        hDefinitions
        (fun hMem => (h.staged _ hMem).ne hOriginal hNew rfl)
        (fun definition hMem =>
          (h.available definition hMem).ne hOriginal hNew) hSelf hBase
      refine ⟨next, [normalized], hEmit, hEmits.staged, hEmits.rewriting,
        fun hLast hClosed ρ ρ' world hSimulates => ?_⟩
      exact hEmits.matches h hLast hClosed hAvailable hDefinitions rfl
        hSimulates fun _ _ => rfl
  | replace proposed =>
      have hGuard := hResult
      cases hResult with
      | shapeOnly shape object snapshot x hKind hOperands hFacts hLe =>
          have hWith := h.withNextId (Nat.le_succ rewrite.nextId)
          have hFixed : original.operandsAvailable definitions =
              (⟨rewrite.nextId, .shapeGuard .shapeOnlyGuard shape,
                original.operands⟩ : Instruction Shape Cell
                  Handler).operandsAvailable definitions := by
            rw [Instruction.operandsAvailable,
              Instruction.operandsAvailable, hKind]
            rfl
          obtain ⟨next, normalized, hEmit, hEmits⟩ := emit_spec hWith
            (hFixed.symm.trans hAvailable) (by rw [hKind]; rfl) hDefinitions
            (fun hMem =>
              (h.staged _ hMem).ne_nextId hBase h.base_le rfl)
            (fun definition hMem =>
              (h.available definition hMem).ne_nextId hBase h.base_le)
            (Or.inr ⟨h.base_le, Nat.lt_succ_self _⟩) hBase
          refine ⟨next, [normalized], hEmit, hEmits.staged,
            hEmits.rewriting,
            fun hLast hClosed ρ ρ' world hSimulates => ?_⟩
          refine hEmits.matches hWith hLast hClosed hAvailable hDefinitions
            rfl ⟨hSimulates.typed, hSimulates.holds, hSimulates.values⟩ ?_
          intro operands hValues
          obtain ⟨v, s, -, hValues', hSame⟩ := weakened_guard_sees_pointer
            hSimulates.typed hSimulates.holds hAvailable hGuard
          rw [hValues] at hValues'
          cases hValues'
          exact hSame
  | replaceWithDef def_ =>
      have hDef : (⟨def_, original.kind.resultClass⟩ : Definition) ∈
          definitions ∧ original.kind.resultClass ≠ .none ∧
            nextId = rewrite.nextId := by
        have hOf : ∀ rest fixed, original.operands = def_ :: rest →
            original.kind.fixedOperands =
              .programValue .taggedValue :: fixed →
            (⟨def_, .programValue .taggedValue⟩ : Definition) ∈
              definitions := by
          intro rest fixed hOperands hFixed
          have hFirst := hAvailable
          rw [Instruction.operandsAvailable, hFixed, hOperands,
            operandsAvailable, Bool.and_eq_true] at hFirst
          exact (available_programValue_iff _ _ _).mp hFirst.1
        cases hResult with
        | inlineTag expectedClass value snapshot x hKind hOperands _ _ =>
            have hMem := hOf _ [.snapshot] hOperands (by rw [hKind]; rfl)
            rw [hKind]
            exact ⟨hMem, by rintro ⟨⟩, rfl⟩
        | exactShape shape object snapshot x hKind hOperands _ _ =>
            have hMem := hOf _ [.snapshot] hOperands (by rw [hKind]; rfl)
            rw [hKind]
            exact ⟨hMem, by rintro ⟨⟩, rfl⟩
      obtain ⟨hDef, hNone, rfl⟩ := hDef
      obtain ⟨next, hReplace, hReplaces⟩ :=
        replaceDefinition_spec h hDef hNone hDefinitions
      refine ⟨next, [], hReplace, ?_, hReplaces.rewriting,
        fun hLast hClosed ρ ρ' world hSimulates => ?_⟩
      · rw [List.append_nil]
        exact hReplaces.staged
      · obtain ⟨v, operands, hValue, hOperands, hPasses⟩ :=
          removed_guard_passes hSimulates.typed hSimulates.holds hAvailable
            hResult
        exact hReplaces.matches hLast hClosed hDef hNone hDefinitions
          hSimulates hValue hOperands hPasses

/-! ## The instructions of a block -/

theorem rewriteInstructions_spec (R : Runtime Shape Cell Handler World)
    {base : InstructionId} :
    ∀ (instructions : List (Instruction Shape Cell Handler))
      (passed : List InstructionId) (definitions : List Definition)
      (rewrite : BlockRewrite Shape Cell Handler),
      Rewriting base passed definitions rewrite →
      instructionsAvailable definitions instructions = true →
      Covers facts (definitions ++
        instructions.map Instruction.definition) →
      (definitions.map Definition.id ⊆ passed) →
      (passed ++ instructions.map Instruction.id).Nodup →
      (∀ id ∈ passed ++ instructions.map Instruction.id, id < base) →
      ∃ last new,
        BlockRewrite.rewriteInstructions facts instructions rewrite =
          some last ∧
        last.stagedInstructions = rewrite.stagedInstructions ++ new ∧
        Rewriting base (passed ++ instructions.map Instruction.id)
          (definitions ++ instructions.map Instruction.definition) last ∧
        (FactsLast R.toShapes facts →
          (∀ instruction ∈ instructions,
            InstructionClosed R.toShapes facts instruction) →
          ∀ ρ ρ' world, Simulates R facts definitions rewrite ρ ρ' world →
            FlowMatches (Simulates R facts
              (definitions ++ instructions.map Instruction.definition) last)
              (runInstructions R instructions ρ world)
              (runInstructions R new ρ' world)) := by
  intro instructions
  induction instructions with
  | nil =>
      intro passed definitions rewrite h _ _ _ _ _
      simp only [List.map_nil, List.append_nil]
      exact ⟨rewrite, [], rfl, (List.append_nil _).symm, h,
        fun _ _ ρ ρ' world hSimulates => .next ρ ρ' world hSimulates⟩
  | cons original rest ih =>
      intro passed definitions rewrite h hAvailable hCovers hPassed hNodup
        hBase
      rw [instructionsAvailable, Bool.and_eq_true] at hAvailable
      have hNew : original.id ∉ passed := by
        intro hMem
        exact (List.nodup_append.mp hNodup).2.2 _ hMem _
          List.mem_cons_self rfl
      have hDefinitions : ∀ definition ∈ definitions,
          definition.id ≠ original.id := by
        intro definition hMem hEq
        exact hNew (hEq ▸ hPassed (List.mem_map_of_mem hMem))
      obtain ⟨next, new, hNext, hSpec⟩ := rewriteInstruction_spec R h
        hAvailable.1 (hCovers.subset (List.subset_append_left _ _))
        hDefinitions hNew
        (hBase _ (List.mem_append_right _ List.mem_cons_self))
        fun id hMem => hBase id (List.mem_append_left _ hMem)
      have hAssoc : ∀ {α : Type} (before : List α) (a : α) (after : List α),
          before ++ a :: after = before ++ [a] ++ after := by
        intro α before a after
        rw [List.append_assoc]
        rfl
      rw [List.map_cons, hAssoc] at hCovers hNodup hBase
      obtain ⟨last, new', hLastRun, hStaged, hRewriting, hFlow⟩ := ih
        (passed ++ [original.id]) (definitions ++ [original.definition]) next
        hSpec.rewriting hAvailable.2 hCovers (by
          rw [List.map_append]
          exact List.append_subset.mpr
            ⟨List.subset_append_of_subset_left _ hPassed,
              List.subset_append_right _ _⟩)
        hNodup hBase
      refine ⟨last, new ++ new', ?_, ?_, ?_, ?_⟩
      · rw [BlockRewrite.rewriteInstructions, hNext]
        exact hLastRun
      · rw [hStaged, hSpec.staged, List.append_assoc]
      · rw [List.map_cons, List.map_cons, hAssoc, hAssoc definitions]
        exact hRewriting
      · intro hLast hClosed ρ ρ' world hSimulates
        rw [List.map_cons, hAssoc]
        exact (hSpec.flow hLast (hClosed _ List.mem_cons_self) ρ ρ' world
          hSimulates).append fun ρ ρ' world hSimulates =>
            hFlow hLast (fun instruction hMem =>
              hClosed instruction (List.mem_cons_of_mem _ hMem)) ρ ρ' world
              hSimulates

/-! ## Terminators -/

omit [DecidableEq Shape] in
theorem rebuildTerminator_spec (resolve : InstructionId → InstructionId)
    (nextId : InstructionId) (terminator : Terminator) :
    ∃ normalized nextId', rebuildTerminator resolve nextId terminator =
        (normalized, nextId') ∧ nextId ≤ nextId' ∧
      normalized.kind =
        terminator.kind.mapEdges (BlockEdge.resolve resolve) ∧
      normalized.operands = terminator.operands.map resolve ∧
      (normalized.id = terminator.id ∨
        normalized.id = nextId ∧ nextId < nextId') := by
  rw [rebuildTerminator]
  by_cases hSame : terminator.operands.map resolve = terminator.operands ∧
      terminator.kind.mapEdges (BlockEdge.resolve resolve) = terminator.kind
  · exact ⟨terminator, nextId, if_pos hSame, Nat.le_refl _, hSame.2.symm,
      hSame.1.symm, Or.inl rfl⟩
  · exact ⟨_, nextId + 1, if_neg hSame, Nat.le_succ _, rfl, rfl,
      Or.inr ⟨rfl, Nat.lt_succ_self _⟩⟩

theorem TerminatorKind.fixedOperands_mapEdges (kind : TerminatorKind)
    (f : BlockEdge → BlockEdge) :
    (kind.mapEdges f).fixedOperands = kind.fixedOperands := by
  cases kind <;> rfl

theorem TerminatorKind.trailingOperands_mapEdges (kind : TerminatorKind)
    (f : BlockEdge → BlockEdge) :
    (kind.mapEdges f).trailingOperands = kind.trailingOperands := by
  cases kind <;> rfl

/-- A terminator takes the same way, over the other edges. -/
theorem TerminatorKind.execute_mapEdges (kind : TerminatorKind)
    (f : BlockEdge → BlockEdge) (operands : List DefinitionValue) :
    (kind.mapEdges f).execute operands =
      (kind.execute operands).map fun destination =>
        match destination with
        | .edge edge => .edge (f edge)
        | .exit e => .exit e := by
  cases kind with
  | resumeInInterpreter =>
      simp only [mapEdges]
      unfold execute
      split <;> first
        | rfl
        | contradiction
  | resumeInInterpreterWithSideExit region =>
      simp only [mapEdges, execute]
      cases operands.mapM DefinitionValue.program? <;> rfl
  | conditionalBranch trueEdge falseEdge =>
      rw [mapEdges]
      rcases operands with _ | ⟨first, _ | ⟨second, rest⟩⟩
      · rfl
      · cases first with
        | snapshot s => rfl
        | program v =>
            cases v with
            | tagged v =>
                simp only [execute, Option.map_some]
                split <;> rfl
            | f64 bits => rfl
            | pointer address => rfl
      · cases first with
        | snapshot s => rfl
        | program v => cases v <;> rfl
  | unconditionalBranch edge =>
      rw [mapEdges]
      cases operands <;> rfl
  | bareReturn =>
      simp only [mapEdges]
      unfold execute
      split <;> first
        | rfl
        | contradiction
  | ret =>
      simp only [mapEdges]
      unfold execute
      split <;> first
        | rfl
        | contradiction

omit [DecidableEq Shape] in
theorem Simulates.arguments {definitions : List Definition}
    {rewrite : BlockRewrite Shape Cell Handler} {ρ ρ' : Environment}
    {world : World} (h : Simulates R facts definitions rewrite ρ ρ' world)
    {arguments : List InstructionId} {parameters : List Parameter}
    (hAvailable : argumentsAvailable definitions arguments parameters =
      true) :
    (arguments.map rewrite.resolve).mapM ρ' = arguments.mapM ρ := by
  refine mapM_map_congr fun argument hMem => ?_
  obtain ⟨representation, hDefinition⟩ :=
    exists_definition_of_argumentsAvailable hAvailable argument hMem
  exact h.values _ hDefinition nofun

/-- The terminators of both blocks do the same. -/
theorem Simulates.terminator {block : Block Shape Cell Handler}
    {graph : Graph Shape Cell Handler} (hVerified : block.Verified graph)
    {rewrite : BlockRewrite Shape Cell Handler} {ρ ρ' : Environment}
    {world : World}
    (h : Simulates R facts block.definitions rewrite ρ ρ' world)
    {terminator : Terminator}
    (hKind : terminator.kind = block.terminator.kind.mapEdges
      (BlockEdge.resolve rewrite.resolve))
    (hOperands : terminator.operands =
      block.terminator.operands.map rewrite.resolve) :
    runTerminator terminator ρ' world =
      runTerminator block.terminator ρ world := by
  rw [runTerminator, runTerminator, hOperands, hKind,
    h.operands hVerified.terminator]
  cases block.terminator.operands.mapM ρ with
  | none => rfl
  | some operands =>
      simp only [Option.bind_eq_bind, Option.bind_some]
      rw [TerminatorKind.execute_mapEdges]
      cases hDestination : block.terminator.kind.execute operands with
      | none => rfl
      | some destination =>
          cases destination with
          | exit e => rfl
          | edge edge =>
              obtain ⟨target, -, hArguments⟩ := hVerified.edges edge
                (TerminatorKind.mem_of_execute hDestination)
              simp only [Option.map_some, Option.bind_some,
                BlockEdge.resolve, h.arguments hArguments]

/-! ## Blocks -/

/-- A block and what it has been rewritten to. -/
structure BlockMatches (R : Runtime Shape Cell Handler World)
    (facts : Facts Shape) (block rewritten : Block Shape Cell Handler) :
    Prop where
  parameters : rewritten.parameters = block.parameters
  run : FactsLast R.toShapes facts →
    (∀ instruction ∈ block.instructions,
      InstructionClosed R.toShapes facts instruction) →
    ∀ arguments world,
      ParametersHold R facts block.parameters arguments world →
        runBlock R rewritten arguments world = runBlock R block arguments world

omit [DecidableEq Shape] in
theorem rewriting_start {base nextId : InstructionId}
    {passed stagedInstructionSet : List InstructionId}
    (hNext : base ≤ nextId)
    (hStaged : ∀ id ∈ stagedInstructionSet, Given base passed nextId id)
    (changed : Bool) (parameters : List Parameter) :
    Rewriting base (passed ++ parameters.map Parameter.id)
      (parameters.map Parameter.definition)
      ({ nextId
         defReplacements := fun _ => none
         availableDefs := parameters.map Parameter.definition
         stagedInstructions := []
         stagedInstructionSet
         instructionsChanged := changed } :
        BlockRewrite Shape Cell Handler) where
  base_le := hNext
  staged id hMem := (hStaged id hMem).mono (List.subset_append_left _ _)
    (Nat.le_refl _)
  available definition hMem := by
    obtain ⟨parameter, hParameter, rfl⟩ := List.mem_map.mp hMem
    exact Or.inl (List.mem_append_right _ (List.mem_map_of_mem hParameter))
  resolved definition hMem _ := hMem

theorem rewriteBlock_spec (R : Runtime Shape Cell Handler World)
    {graph : Graph Shape Cell Handler} {block : Block Shape Cell Handler}
    (hVerified : block.Verified graph)
    (hCovers : Covers facts block.definitions) {base nextId : InstructionId}
    {passed stagedInstructionSet : List InstructionId} {changed : Bool}
    (hNext : base ≤ nextId)
    (hStaged : ∀ id ∈ stagedInstructionSet, Given base passed nextId id)
    (hNodup : (passed ++ block.ids).Nodup)
    (hBase : ∀ id ∈ passed ++ block.ids, id < base) :
    ∃ rewritten nextId' stagedInstructionSet' changed',
      rewriteBlock facts nextId stagedInstructionSet changed block =
        some (rewritten, nextId', stagedInstructionSet', changed') ∧
      base ≤ nextId' ∧
      (∀ id ∈ stagedInstructionSet',
        Given base (passed ++ block.ids) nextId' id) ∧
      BlockMatches R facts block rewritten := by
  have hIds : passed ++ block.ids = passed ++
      block.parameters.map Parameter.id ++
        block.instructions.map Instruction.id ++ [block.terminator.id] := by
    simp only [Block.ids, List.append_assoc]
  have hIdsPassed : passed ++ block.parameters.map Parameter.id ++
      block.instructions.map Instruction.id ⊆ passed ++ block.ids := by
    rw [hIds]
    exact List.subset_append_left _ _
  obtain ⟨hBodyNodup, -, hTerminatorNew⟩ :=
    List.nodup_append.mp (hIds ▸ hNodup)
  obtain ⟨rewrite, new, hRun, hNew, hRewriting, hFlow⟩ :=
    rewriteInstructions_spec R block.instructions _ _ _
      (rewriting_start hNext hStaged changed block.parameters)
      hVerified.instructions hCovers (by
        rw [List.map_map]
        exact List.subset_append_right _ _) hBodyNodup
      fun id hMem => hBase id (hIdsPassed hMem)
  have hEdges : ∀ edge ∈ block.blockSuccessorEdges,
      ∀ argument ∈ edge.arguments, rewrite.resolve argument ∈
        rewrite.availableDefs.map Definition.id := by
    intro edge hEdge argument hArgument
    obtain ⟨target, -, hArguments⟩ := hVerified.edges edge hEdge
    obtain ⟨representation, hDefinition⟩ :=
      exists_definition_of_argumentsAvailable hArguments argument hArgument
    exact List.mem_map_of_mem
      (hRewriting.resolved _ hDefinition (by rintro ⟨⟩))
  obtain ⟨terminator, nextId', hRebuild, hNext', hKind, hOperands, hId⟩ :=
    rebuildTerminator_spec rewrite.resolve rewrite.nextId block.terminator
  have hTerminatorLess : block.terminator.id < base :=
    hBase _ (List.mem_append_right _ (List.mem_append_right _
      (List.mem_singleton_self _)))
  have hTerminatorFresh : terminator.id ∉ rewrite.stagedInstructionSet := by
    intro hMem
    have hGiven := hRewriting.staged _ hMem
    rcases hId with hId | ⟨hId, -⟩
    · refine hGiven.ne hTerminatorLess ?_ hId
      exact fun hPassed => hTerminatorNew _ hPassed _
        (List.mem_singleton_self _) rfl
    · exact hGiven.ne_nextId (fun id hPassed =>
        hBase id (hIdsPassed hPassed)) hRewriting.base_le hId
  have hTerminatorAvailable : terminator.operandsAvailable
      rewrite.availableDefs = true := by
    rw [Terminator.operandsAvailable, hKind, hOperands,
      TerminatorKind.fixedOperands_mapEdges,
      TerminatorKind.trailingOperands_mapEdges]
    exact hRewriting.resolved.operandsAvailable hVerified.terminator
  refine ⟨{ block with
    instructions := rewrite.stagedInstructions, terminator }, nextId',
    terminator.id :: rewrite.stagedInstructionSet,
    rewrite.instructionsChanged || terminator.id != block.terminator.id, ?_,
    hRewriting.base_le.trans hNext', ?_, rfl, ?_⟩
  · rw [rewriteBlock]
    simp only [Option.bind_eq_bind, hRun, Option.bind_some, hRebuild]
    exact (check_bind hEdges _).trans ((check_bind hTerminatorFresh _).trans
      (check_bind hTerminatorAvailable _))
  · intro id hMem
    rcases List.mem_cons.mp hMem with rfl | hMem
    · rcases hId with hId | ⟨hId, hLess⟩
      · rw [hId]
        exact Or.inl (List.mem_append_right _ (List.mem_append_right _
          (List.mem_singleton_self _)))
      · exact Or.inr ⟨hId ▸ hRewriting.base_le, hId ▸ hLess⟩
    · exact (hRewriting.staged id hMem).mono hIdsPassed hNext'
  · intro hLast hClosed arguments world hParameters
    rw [runBlock, runBlock]
    simp only [Option.bind_eq_bind]
    cases hBind : bindParameters block.parameters arguments with
    | none => rfl
    | some ρ =>
        have hParameterIds : (block.parameters.map Parameter.id).Nodup :=
          (List.nodup_append.mp (List.nodup_append.mp hBodyNodup).1).2.1
        have hMatches := hFlow hLast hClosed ρ ρ world
          ⟨bindParameters_typed _ _ ρ hParameterIds hBind,
            bindParameters_holds _ _ ρ hParameters hBind,
            fun _ _ _ => rfl⟩
        rw [List.nil_append] at hNew
        rw [← hNew] at hMatches
        simp only [Option.bind_some]
        generalize runInstructions R block.instructions ρ world = flow
          at hMatches
        generalize runInstructions R rewrite.stagedInstructions ρ world =
          flow' at hMatches
        cases hMatches with
        | undefined => rfl
        | exit e world => rfl
        | next ρ ρ' world hSimulates =>
            exact hSimulates.terminator hVerified hKind hOperands

end CloverVM.Jit
