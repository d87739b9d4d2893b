import CloverVM.Jit.GraphExecution
import CloverVM.Machine.BoundedLoop

/-!
# The analysis of tagged values

Every tagged definition starts with the empty set, those of the entry's
parameters with every value.  The worklist has the blocks whose parameters
have risen.  A block is visited by going through its instructions and handing
the facts of its arguments to the parameters of its successors.
-/

namespace CloverVM.Jit

open CloverVM.ObjectModel
open CloverVM.Machine

/-- The table of facts; only tagged definitions are in it. -/
abbrev Facts (Shape : Type) := InstructionId → Option (TaggedValueSet Shape)

structure FactAnalysis (Shape : Type) where
  facts : Facts Shape
  reachable : Finset Nat
  queued : Finset Nat
  /-- The back of the vector is the head of the list. -/
  worklist : List Nat

section Analysis

variable {Shape Cell Handler : Type} [DecidableEq Shape]

def exactValueFacts (constant : TaggedValue) : TaggedValueSet Shape :=
  if isPtr constant.value then .pointer
  else .fromInlineTag (tagOf constant.value)
    (TaggedValueSet.taggedValueSetBit_valid constant.valid)

/-- What a guard of the shape accepts. -/
def shapeGuardFacts (shapes : Shapes Shape) (expectedShape : Shape) :
    TaggedValueSet Shape :=
  if shapes.isImmutable expectedShape then .exactShapeOf expectedShape
  else .pointer

/-- The facts of the first operand. -/
def sourceFacts (facts : Facts Shape)
    (instruction : Instruction Shape Cell Handler) :
    Option (TaggedValueSet Shape) :=
  instruction.operands.head? >>= facts

def instructionFacts (shapes : Shapes Shape) (facts : Facts Shape)
    (instruction : Instruction Shape Cell Handler) :
    Option (TaggedValueSet Shape) :=
  match instruction.kind with
  | .mov _ => sourceFacts facts instruction
  | .loadStack _ => sourceFacts facts instruction
  | .storeStack _ => sourceFacts facts instruction
  | .binaryArithmeticSmiWithSnapshot _ => some .smi
  | .binaryLogicalSmi _ => some .smi
  | .binaryComparisonF64 _ => some .boolean
  | .binaryComparisonSmi _ => some .boolean
  | .isComparison _ => some .boolean
  | .boxF64 => some (.exactShapeOf shapes.floatShape)
  | .inlineTagGuard expectedClass => do
      let source ← sourceFacts facts instruction
      return source.intersect (.fromClass expectedClass)
  | .shapeGuard _ expectedShape => do
      let source ← sourceFacts facts instruction
      return source.intersect (shapeGuardFacts shapes expectedShape)
  | .const constant => some (exactValueFacts constant)
  | kind =>
      if kind.resultDefinitionKind = .forwardingDef then
        sourceFacts facts instruction
      else some .unknown

/-- The join is stored, and the result says whether it differs. -/
def widen (facts : Facts Shape) (id : InstructionId)
    (incoming : TaggedValueSet Shape) : Option (Facts Shape × Bool) := do
  let found ← facts id
  let merged := found ⊔ incoming
  if merged = found then return (facts, false)
  else return (Function.update facts id (some merged), true)

def widenInstructions (shapes : Shapes Shape) :
    List (Instruction Shape Cell Handler) → Facts Shape →
      Option (Facts Shape)
  | [], facts => some facts
  | instruction :: rest, facts =>
      if instruction.kind.resultClass = .programValue .taggedValue then do
        let incoming ← instructionFacts shapes facts instruction
        let (facts, _) ← widen facts instruction.id incoming
        widenInstructions shapes rest facts
      else widenInstructions shapes rest facts

def widenParameters :
    List Parameter → List InstructionId → Facts Shape → Bool →
      Option (Facts Shape × Bool)
  | [], [], facts, changed => some (facts, changed)
  | parameter :: parameters, argument :: arguments, facts, changed =>
      if parameter.representation = .taggedValue then do
        let incoming ← facts argument
        let (facts, widened) ← widen facts parameter.id incoming
        widenParameters parameters arguments facts (changed || widened)
      else widenParameters parameters arguments facts changed
  | _, _, _, _ => none

def visitEdge (graph : Graph Shape Cell Handler) (edge : BlockEdge)
    (state : FactAnalysis Shape) : Option (FactAnalysis Shape) := do
  let target ← graph.blocks[edge.target]?
  let (facts, changed) ← widenParameters target.parameters edge.arguments
    state.facts (decide (edge.target ∉ state.reachable))
  let reachable := insert edge.target state.reachable
  if changed = true ∧ edge.target ∉ state.queued then
    return {
      facts, reachable
      queued := insert edge.target state.queued
      worklist := edge.target :: state.worklist }
  else return { state with facts, reachable }

def visitEdges (graph : Graph Shape Cell Handler) :
    List BlockEdge → FactAnalysis Shape → Option (FactAnalysis Shape)
  | [], state => some state
  | edge :: edges, state =>
      visitEdge graph edge state >>= visitEdges graph edges

/-- One turn of the loop over the worklist. -/
def visitBlock (shapes : Shapes Shape) (graph : Graph Shape Cell Handler)
    (state : FactAnalysis Shape) : Option (FactAnalysis Shape) :=
  match state.worklist with
  | [] => none
  | index :: worklist => do
      let block ← graph.blocks[index]?
      let facts ← widenInstructions shapes block.instructions state.facts
      visitEdges graph block.blockSuccessorEdges
        { state with
          facts, worklist
          queued := state.queued.erase index }

def isTagged (definition : Definition) : Bool :=
  definition.resultClass == .programValue .taggedValue

def Graph.taggedIds (graph : Graph Shape Cell Handler) :
    List InstructionId :=
  graph.blocks.flatMap fun block =>
    (block.definitions.filter isTagged).map Definition.id

/-- Every value, for the parameters of the entry. -/
def widenEntry : List Parameter → Facts Shape → Option (Facts Shape)
  | [], facts => some facts
  | parameter :: parameters, facts =>
      if parameter.representation = .taggedValue then do
        let (facts, _) ← widen facts parameter.id .unknown
        widenEntry parameters facts
      else widenEntry parameters facts

def Graph.initialFacts (graph : Graph Shape Cell Handler) : Facts Shape :=
  fun id => if id ∈ graph.taggedIds then some .never else none

def initialAnalysis (graph : Graph Shape Cell Handler) :
    Option (FactAnalysis Shape) := do
  let entry ← graph.blocks[0]?
  let facts ← widenEntry entry.parameters graph.initialFacts
  return { facts, reachable := {0}, queued := {0}, worklist := [0] }

/-- More turns than the worklist can have: each one but the first is for a
fact that has risen, or for a block that has become reachable. -/
def Graph.analysisTurns (graph : Graph Shape Cell Handler) : Nat :=
  TaggedValueSet.maximalRank * graph.taggedIds.length +
    graph.blocks.length + 2

def FactAnalysis.done (state : FactAnalysis Shape) : Bool :=
  state.worklist.isEmpty

/-- The facts, once the worklist is empty. -/
def taggedValueFactAnalysis (shapes : Shapes Shape)
    (graph : Graph Shape Cell Handler) : Option (Facts Shape) := do
  let start ← initialAnalysis graph
  let last ← repeatTurns FactAnalysis.done (visitBlock shapes graph)
    graph.analysisTurns start
  check (last.done = true)
  return last.facts

end Analysis

/-! ## Tables that rise -/

section Rising

variable {Shape Cell Handler : Type} [DecidableEq Shape]

/-- No entry is lost, and none falls. -/
def Rises (facts next : Facts Shape) : Prop :=
  ∀ id x, facts id = some x → ∃ y, next id = some y ∧ x ≤ y

/-- The entry of the table is at least the set. -/
def AtLeast (facts : Facts Shape) (id : InstructionId)
    (x : TaggedValueSet Shape) : Prop :=
  ∃ y, facts id = some y ∧ x ≤ y

theorem Rises.refl (facts : Facts Shape) : Rises facts facts :=
  fun _ x h => ⟨x, h, le_rfl⟩

theorem Rises.trans {facts next last : Facts Shape} (h : Rises facts next)
    (h' : Rises next last) : Rises facts last := by
  intro id x hx
  obtain ⟨y, hy, hLe⟩ := h id x hx
  obtain ⟨z, hz, hLe'⟩ := h' id y hy
  exact ⟨z, hz, hLe.trans hLe'⟩

theorem AtLeast.rises {facts next : Facts Shape} {id : InstructionId}
    {x : TaggedValueSet Shape} (h : AtLeast facts id x)
    (hRises : Rises facts next) : AtLeast next id x := by
  obtain ⟨y, hy, hLe⟩ := h
  obtain ⟨z, hz, hLe'⟩ := hRises id y hy
  exact ⟨z, hz, hLe.trans hLe'⟩

/-- The definitions that have an entry. -/
def Covers (facts : Facts Shape) (definitions : List Definition) : Prop :=
  ∀ id, (⟨id, .programValue .taggedValue⟩ : Definition) ∈ definitions →
    ∃ x, facts id = some x

omit [DecidableEq Shape] in
theorem Covers.subset {facts : Facts Shape}
    {definitions part : List Definition} (h : Covers facts definitions)
    (hPart : part ⊆ definitions) : Covers facts part :=
  fun id hId => h id (hPart hId)

theorem Covers.rises {facts next : Facts Shape}
    {definitions : List Definition} (h : Covers facts definitions)
    (hRises : Rises facts next) : Covers next definitions := by
  intro id hId
  obtain ⟨x, hx⟩ := h id hId
  obtain ⟨y, hy, -⟩ := hRises id x hx
  exact ⟨y, hy⟩

/-- A fact names a shape only where it cannot change. -/
def Lasting (shapes : Shapes Shape) (x : TaggedValueSet Shape) : Prop :=
  ∀ shape, x.exactShape = some shape → shapes.isImmutable shape = true

def FactsLast (shapes : Shapes Shape) (facts : Facts Shape) : Prop :=
  ∀ id x, facts id = some x → Lasting shapes x

omit [DecidableEq Shape] in
theorem lasting_of_none {shapes : Shapes Shape} {x : TaggedValueSet Shape}
    (h : x.exactShape = none) : Lasting shapes x := by
  intro shape hShape
  rw [h] at hShape
  cases hShape

theorem Lasting.merge {shapes : Shapes Shape} {x y : TaggedValueSet Shape}
    (hx : Lasting shapes x) (hy : Lasting shapes y) :
    Lasting shapes (x ⊔ y) := by
  show Lasting shapes (x.merge y)
  by_cases hxZero : x.bits = 0#32
  · rw [TaggedValueSet.merge_left hxZero]
    exact hy
  by_cases hyZero : y.bits = 0#32
  · rw [TaggedValueSet.merge_right hxZero hyZero]
    exact hx
  intro shape hShape
  rw [(TaggedValueSet.merge_of_ne hxZero hyZero).2] at hShape
  split at hShape
  · exact hx shape hShape
  · cases hShape

theorem Lasting.intersect {shapes : Shapes Shape}
    {x y : TaggedValueSet Shape} (hx : Lasting shapes x)
    (hy : Lasting shapes y) : Lasting shapes (x.intersect y) := by
  rw [TaggedValueSet.intersect]
  split
  · exact lasting_of_none rfl
  · intro shape hShape
    simp only at hShape
    split at hShape
    · exact hx shape hShape
    · exact hy shape hShape

/-- The rank of an entry. -/
def factRank (facts : Facts Shape) (id : InstructionId) : Nat :=
  match facts id with
  | some x => x.rank
  | none => 0

omit [DecidableEq Shape] in
theorem factRank_le (facts : Facts Shape) (id : InstructionId) :
    factRank facts id ≤ TaggedValueSet.maximalRank := by
  rw [factRank]
  split
  · exact TaggedValueSet.rank_le _
  · exact Nat.zero_le _

theorem Rises.factRank_le {facts next : Facts Shape} (h : Rises facts next)
    (id : InstructionId) : factRank facts id ≤ factRank next id := by
  cases hx : facts id with
  | none =>
      rw [factRank, hx]
      exact Nat.zero_le _
  | some x =>
      obtain ⟨y, hy, hLe⟩ := h id x hx
      rw [factRank, factRank, hx, hy]
      by_cases hEq : x = y
      · rw [hEq]
      · exact (TaggedValueSet.rank_lt hLe hEq).le

/-- An entry rises to the join with a set, the others stay, and the result
says whether it has changed. -/
structure Widens (facts next : Facts Shape) (ids : List InstructionId)
    (changed : Bool) : Prop where
  rises : Rises facts next
  frame : ∀ id, id ∉ ids → next id = facts id
  same : changed = false → next = facts
  higher : changed = true →
    ∃ id ∈ ids, (∃ x, facts id = some x) ∧
      factRank facts id < factRank next id

theorem widen_spec {facts : Facts Shape} {id : InstructionId}
    {found : TaggedValueSet Shape} (hFound : facts id = some found)
    (incoming : TaggedValueSet Shape) :
    ∃ next changed, widen facts id incoming = some (next, changed) ∧
      Widens facts next [id] changed ∧ AtLeast next id incoming ∧
        ∀ shapes, FactsLast shapes facts → Lasting shapes incoming →
          FactsLast shapes next := by
  rw [widen, hFound]
  by_cases hSame : found ⊔ incoming = found
  · refine ⟨facts, false, if_pos hSame, ⟨Rises.refl facts, fun _ _ => rfl,
      fun _ => rfl, nofun⟩, ⟨found, hFound, ?_⟩,
      fun _ hLast _ => hLast⟩
    exact hSame ▸ le_sup_right
  · have hSelf : Function.update facts id (some (found ⊔ incoming)) id =
        some (found ⊔ incoming) := Function.update_self _ _ _
    have hOther : ∀ other, other ≠ id →
        Function.update facts id (some (found ⊔ incoming)) other =
          facts other := fun other hne => Function.update_of_ne hne _ _
    refine ⟨_, true, if_neg hSame, ⟨?_, ?_, nofun, ?_⟩,
      ⟨_, hSelf, le_sup_right⟩, ?_⟩
    · intro other x hx
      by_cases hEq : other = id
      · subst hEq
        rw [hFound] at hx
        cases hx
        exact ⟨_, hSelf, le_sup_left⟩
      · exact ⟨x, (hOther other hEq).trans hx, le_rfl⟩
    · intro other hOtherMem
      exact hOther other fun hEq => hOtherMem (hEq ▸ List.mem_singleton_self _)
    · intro _
      refine ⟨id, List.mem_singleton_self id, ⟨found, hFound⟩, ?_⟩
      rw [factRank, factRank, hSelf, hFound]
      exact TaggedValueSet.rank_lt le_sup_left (Ne.symm hSame)
    · intro shapes hLast hIncoming other x hx
      by_cases hEq : other = id
      · subst hEq
        rw [hSelf] at hx
        cases hx
        exact (hLast _ found hFound).merge hIncoming
      · exact hLast other x ((hOther other hEq) ▸ hx)

end Rising

/-! ## One instruction -/

section Instructions

variable {Shape Cell Handler : Type} [DecidableEq Shape]

omit [DecidableEq Shape] in
/-- A tagged first operand has facts. -/
theorem sourceFacts_spec {facts : Facts Shape}
    {definitions : List Definition}
    {instruction : Instruction Shape Cell Handler}
    (hAvailable : instruction.operandsAvailable definitions = true)
    (hCovers : Covers facts definitions) {rest : List OperandClass}
    (hFixed : instruction.kind.fixedOperands =
      .programValue .taggedValue :: rest) :
    ∃ id x, instruction.operands.head? = some id ∧
      (⟨id, .programValue .taggedValue⟩ : Definition) ∈ definitions ∧
        facts id = some x := by
  rw [Instruction.operandsAvailable, hFixed] at hAvailable
  obtain ⟨id, operands, hOperands, hId, -⟩ :=
    operandsAvailable_cons hAvailable
  have hMem := (available_programValue_iff _ _ _).mp hId
  obtain ⟨x, hx⟩ := hCovers id hMem
  exact ⟨id, x, by rw [hOperands]; rfl, hMem, hx⟩

/-- The facts of a result depend on the facts of the first operand only. -/
theorem instructionFacts_congr (shapes : Shapes Shape)
    {facts next : Facts Shape}
    {instruction : Instruction Shape Cell Handler}
    (h : sourceFacts next instruction = sourceFacts facts instruction) :
    instructionFacts shapes next instruction =
      instructionFacts shapes facts instruction := by
  simp only [instructionFacts, h]

/-- Where the first operand is not looked at, or has facts, so has the
result. -/
inductive FactsFrom (shapes : Shapes Shape) (facts : Facts Shape)
    (instruction : Instruction Shape Cell Handler) : Prop
  | source (x : TaggedValueSet Shape)
      (hSource : sourceFacts facts instruction = some x)
      (hFacts : instructionFacts shapes facts instruction = some x)
  | guard (x accepted : TaggedValueSet Shape)
      (hSource : sourceFacts facts instruction = some x)
      (hAccepted : Lasting shapes accepted)
      (hFacts : instructionFacts shapes facts instruction =
        some (x.intersect accepted))
  | fixed (x : TaggedValueSet Shape) (hLasting : Lasting shapes x)
      (hFacts : instructionFacts shapes facts instruction = some x)

omit [DecidableEq Shape] in
theorem lasting_shapeGuardFacts (shapes : Shapes Shape)
    (expectedShape : Shape) :
    Lasting shapes (shapeGuardFacts shapes expectedShape) := by
  rw [shapeGuardFacts]
  split
  · rename_i hImmutable
    intro shape hShape
    cases hShape
    exact hImmutable
  · exact lasting_of_none rfl

theorem instructionFacts_cases (shapes : Shapes Shape)
    {facts : Facts Shape} {definitions : List Definition}
    {instruction : Instruction Shape Cell Handler}
    (hAvailable : instruction.operandsAvailable definitions = true)
    (hCovers : Covers facts definitions)
    (hTagged : instruction.kind.resultClass = .programValue .taggedValue) :
    FactsFrom shapes facts instruction := by
  have hSource : ∀ rest, instruction.kind.fixedOperands =
      .programValue .taggedValue :: rest →
        ∃ x, sourceFacts facts instruction = some x := by
    intro rest hFixed
    obtain ⟨id, x, hHead, -, hx⟩ :=
      sourceFacts_spec hAvailable hCovers hFixed
    exact ⟨x, by rw [sourceFacts, hHead]; exact hx⟩
  obtain ⟨id, kind, operands⟩ := instruction
  simp only at hTagged hSource
  cases kind with
  | mov representation =>
      cases hTagged
      obtain ⟨x, hx⟩ := hSource _ rfl
      exact .source x hx hx
  | loadStack representation =>
      cases hTagged
      obtain ⟨x, hx⟩ := hSource _ rfl
      exact .source x hx hx
  | storeStack representation =>
      cases hTagged
      obtain ⟨x, hx⟩ := hSource _ rfl
      exact .source x hx hx
  | inlineTagGuard expectedClass =>
      obtain ⟨x, hx⟩ := hSource _ rfl
      refine .guard x (.fromClass expectedClass) hx (lasting_of_none rfl) ?_
      rw [instructionFacts, hx]
      rfl
  | shapeGuard subkind expectedShape =>
      obtain ⟨x, hx⟩ := hSource _ rfl
      refine .guard x _ hx (lasting_shapeGuardFacts shapes expectedShape) ?_
      rw [instructionFacts, hx]
      rfl
  | shapeGuardWithSideExit subkind expectedShape region =>
      obtain ⟨x, hx⟩ := hSource _ rfl
      exact .source x hx hx
  | validityCellGuard validity =>
      obtain ⟨x, hx⟩ := hSource _ rfl
      exact .source x hx hx
  | validityCellGuardWithSideExit validity region =>
      obtain ⟨x, hx⟩ := hSource _ rfl
      exact .source x hx hx
  | inlineTagGuardWithSideExit expectedClass region =>
      obtain ⟨x, hx⟩ := hSource _ rfl
      exact .source x hx hx
  | checkNotImplemented =>
      obtain ⟨x, hx⟩ := hSource _ rfl
      exact .source x hx hx
  | boxF64 =>
      refine .fixed _ ?_ rfl
      intro shape hShape
      cases hShape
      exact shapes.floatShape_isImmutable
  | const constant =>
      refine .fixed _ ?_ rfl
      rw [exactValueFacts]
      split
      · exact lasting_of_none rfl
      · exact lasting_of_none rfl
  | binaryArithmeticSmiWithSnapshot subkind =>
      exact .fixed _ (lasting_of_none rfl) rfl
  | binaryArithmeticSmiWithSideExit subkind region =>
      exact .fixed _ (lasting_of_none rfl) rfl
  | binaryLogicalSmi subkind => exact .fixed _ (lasting_of_none rfl) rfl
  | binaryComparisonSmi subkind => exact .fixed _ (lasting_of_none rfl) rfl
  | binaryComparisonF64 subkind => exact .fixed _ (lasting_of_none rfl) rfl
  | isComparison subkind => exact .fixed _ (lasting_of_none rfl) rfl
  | uninitialized => exact .fixed _ (lasting_of_none rfl) rfl
  | trustedHandlerCall handler =>
      exact .fixed _ (lasting_of_none rfl) rfl
  | pythonCall pc => exact .fixed _ (lasting_of_none rfl) rfl
  | negF64 => cases hTagged
  | binaryArithmeticF64 subkind => cases hTagged
  | unboxF64 => cases hTagged
  | saveLinkRegisterToFrame => cases hTagged
  | restoreLinkRegisterFromFrame => cases hTagged
  | snapshot pc => cases hTagged

theorem instructionFacts_spec (shapes : Shapes Shape)
    {facts : Facts Shape} {definitions : List Definition}
    {instruction : Instruction Shape Cell Handler}
    (hAvailable : instruction.operandsAvailable definitions = true)
    (hCovers : Covers facts definitions)
    (hTagged : instruction.kind.resultClass = .programValue .taggedValue) :
    ∃ x, instructionFacts shapes facts instruction = some x ∧
      (FactsLast shapes facts → Lasting shapes x) := by
  have hOf : ∀ x, sourceFacts facts instruction = some x →
      FactsLast shapes facts → Lasting shapes x := by
    intro x hx hLast
    rw [sourceFacts] at hx
    obtain ⟨id, -, hId⟩ := Option.bind_eq_some_iff.mp hx
    exact hLast id x hId
  rcases instructionFacts_cases shapes hAvailable hCovers hTagged with
    ⟨x, hx, hFacts⟩ | ⟨x, accepted, hx, hAccepted, hFacts⟩ |
    ⟨x, hLasting, hFacts⟩
  · exact ⟨x, hFacts, hOf x hx⟩
  · exact ⟨_, hFacts, fun hLast => (hOf x hx hLast).intersect hAccepted⟩
  · exact ⟨x, hFacts, fun _ => hLasting⟩

omit [DecidableEq Shape] in
/-- Facts that agree on what an instruction may use. -/
theorem sourceFacts_congr {facts next : Facts Shape}
    {definitions : List Definition}
    {instruction : Instruction Shape Cell Handler}
    (hAvailable : instruction.operandsAvailable definitions = true)
    (h : ∀ definition ∈ definitions,
      next definition.id = facts definition.id) :
    sourceFacts next instruction = sourceFacts facts instruction := by
  rw [sourceFacts, sourceFacts]
  cases hHead : instruction.operands.head? with
  | none => rfl
  | some id =>
      obtain ⟨definition, hMem, rfl, -⟩ :=
        exists_result_of_operandsAvailable hAvailable id
          (List.mem_of_mem_head? hHead)
      exact h definition hMem

/-! ## The instructions of a block -/

/-- The facts of a result are in the table. -/
def InstructionClosed (shapes : Shapes Shape) (facts : Facts Shape)
    (instruction : Instruction Shape Cell Handler) : Prop :=
  instruction.kind.resultClass = .programValue .taggedValue →
    ∃ x, instructionFacts shapes facts instruction = some x ∧
      AtLeast facts instruction.id x

theorem InstructionClosed.congr {shapes : Shapes Shape}
    {facts next : Facts Shape}
    {instruction : Instruction Shape Cell Handler}
    (h : InstructionClosed shapes facts instruction)
    (hSource : sourceFacts next instruction = sourceFacts facts instruction)
    (hSelf : next instruction.id = facts instruction.id) :
    InstructionClosed shapes next instruction := by
  intro hTagged
  obtain ⟨x, hx, y, hy, hLe⟩ := h hTagged
  exact ⟨x, (instructionFacts_congr shapes hSource).trans hx, y,
    hSelf.trans hy, hLe⟩

/-- What going through some instructions does to the table. -/
structure WidensInstructions (shapes : Shapes Shape)
    (instructions : List (Instruction Shape Cell Handler))
    (facts next : Facts Shape) : Prop where
  rises : Rises facts next
  frame : ∀ id, id ∉ instructions.map Instruction.id → next id = facts id
  closed : ∀ instruction ∈ instructions,
    InstructionClosed shapes next instruction
  lasts : FactsLast shapes facts → FactsLast shapes next

/-- Each instruction is closed when it is passed, and stays so: what comes
later changes neither its operands nor its own entry. -/
theorem widenInstructions_spec (shapes : Shapes Shape) :
    ∀ (instructions : List (Instruction Shape Cell Handler))
      (definitions : List Definition) (facts : Facts Shape),
      instructionsAvailable definitions instructions = true →
      (definitions.map Definition.id ++
        instructions.map Instruction.id).Nodup →
      Covers facts
        (definitions ++ instructions.map Instruction.definition) →
      ∃ next, widenInstructions shapes instructions facts = some next ∧
        WidensInstructions shapes instructions facts next := by
  intro instructions
  induction instructions with
  | nil =>
      intro definitions facts _ _ _
      exact ⟨facts, rfl, Rises.refl facts, fun _ _ => rfl,
        fun _ h => (List.not_mem_nil h).elim, id⟩
  | cons instruction rest ih =>
      intro definitions facts hAvailable hNodup hCovers
      rw [instructionsAvailable, Bool.and_eq_true] at hAvailable
      obtain ⟨hHere, hRest⟩ := hAvailable
      have hNodupRest : ((definitions ++ [instruction.definition]).map
          Definition.id ++ rest.map Instruction.id).Nodup := by
        simpa [Instruction.definition] using hNodup
      have hFresh : instruction.id ∉ rest.map Instruction.id := by
        have hTail := (List.nodup_append.mp hNodup).2.1
        exact (List.nodup_cons.mp hTail).1
      have hOther : ∀ definition ∈ definitions,
          definition.id ∉ instruction.id :: rest.map Instruction.id := by
        intro definition hMem hIn
        exact (List.nodup_append.mp hNodup).2.2 _
          (List.mem_map_of_mem hMem) _ hIn rfl
      have hCoversHere : Covers facts definitions :=
        hCovers.subset (List.subset_append_left _ _)
      -- the step: an instruction without a tagged result changes nothing
      have hStep : ∃ middle,
          (∀ next, widenInstructions shapes rest middle = some next →
            widenInstructions shapes (instruction :: rest) facts =
              some next) ∧
          Rises facts middle ∧
          (∀ id, id ≠ instruction.id → middle id = facts id) ∧
          InstructionClosed shapes middle instruction ∧
          (FactsLast shapes facts → FactsLast shapes middle) := by
        by_cases hTagged : instruction.kind.resultClass =
            .programValue .taggedValue
        · obtain ⟨x, hx, hLasting⟩ :=
            instructionFacts_spec shapes hHere hCoversHere hTagged
          obtain ⟨found, hFound⟩ := hCovers instruction.id (by
            refine List.mem_append_right _ ?_
            rw [List.map_cons, Instruction.definition, hTagged]
            exact List.mem_cons_self)
          obtain ⟨middle, changed, hWiden, hWidens, hAtLeast, hLasts⟩ :=
            widen_spec hFound x
          have hFrame : ∀ id, id ≠ instruction.id →
              middle id = facts id := fun id hne =>
            hWidens.frame id fun hMem => hne (List.mem_singleton.mp hMem)
          have hSource : sourceFacts middle instruction =
              sourceFacts facts instruction :=
            sourceFacts_congr hHere fun definition hMem =>
              hFrame _ fun hEq =>
                hOther definition hMem (hEq ▸ List.mem_cons_self)
          refine ⟨middle, ?_, hWidens.rises, hFrame, ?_, ?_⟩
          · intro next hNext
            rw [widenInstructions, if_pos hTagged, hx]
            simp only [Option.bind_eq_bind, Option.bind_some, hWiden]
            exact hNext
          · intro _
            exact ⟨x, (instructionFacts_congr shapes hSource).trans hx,
              hAtLeast⟩
          · exact fun hLast => hLasts shapes hLast (hLasting hLast)
        · refine ⟨facts, ?_, Rises.refl facts, fun _ _ => rfl,
            fun h => absurd h hTagged, id⟩
          intro next hNext
          rw [widenInstructions, if_neg hTagged]
          exact hNext
      obtain ⟨middle, hRun, hRises, hFrame, hClosed, hLasts⟩ := hStep
      obtain ⟨next, hNext, hSpec⟩ := ih (definitions ++
        [instruction.definition]) middle hRest hNodupRest (by
          have hCoversMiddle := hCovers.rises hRises
          simpa using hCoversMiddle)
      refine ⟨next, hRun next hNext, hRises.trans hSpec.rises, ?_, ?_,
        fun hLast => hSpec.lasts (hLasts hLast)⟩
      · intro id hId
        rw [List.map_cons, List.mem_cons, not_or] at hId
        rw [hSpec.frame id hId.2, hFrame id hId.1]
      · intro other hMem
        rcases List.mem_cons.mp hMem with rfl | hMem
        · refine hClosed.congr ?_ (hSpec.frame _ hFresh)
          refine sourceFacts_congr hHere fun definition hDefinition => ?_
          exact hSpec.frame _ fun hIn =>
            hOther definition hDefinition (List.mem_cons_of_mem _ hIn)
        · exact hSpec.closed other hMem

end Instructions

end CloverVM.Jit
