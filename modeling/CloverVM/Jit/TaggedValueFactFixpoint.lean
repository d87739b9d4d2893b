import CloverVM.Jit.TaggedValueFactAnalysis

/-!
# The worklist reaches a fixpoint

Each turn takes a block off the worklist, and puts one on only where a fact
of its parameters has risen or the block has become reachable.  Ranks are
bounded, so the worklist ends.  A reachable block that is not queued is
closed: the facts of its results are in the table, and those of its arguments
are below the parameters that they are passed to.
-/

namespace CloverVM.Jit

open CloverVM.ObjectModel
open CloverVM.Machine

variable {Shape Cell Handler : Type} [DecidableEq Shape]

/-- A tagged parameter has at least the facts that its argument had. -/
def Receives (facts next : Facts Shape) (parameters : List Parameter)
    (arguments : List InstructionId) : Prop :=
  ∀ pair ∈ parameters.zip arguments,
    pair.1.representation = .taggedValue →
      ∃ x, facts pair.2 = some x ∧ AtLeast next pair.1.id x

theorem Receives.rises {facts next last : Facts Shape}
    {parameters : List Parameter} {arguments : List InstructionId}
    (h : Receives facts next parameters arguments)
    (hRises : Rises next last) :
    Receives facts last parameters arguments := by
  intro pair hPair hTagged
  obtain ⟨x, hx, hAt⟩ := h pair hPair hTagged
  exact ⟨x, hx, hAt.rises hRises⟩

/-- What an argument had at first is below what it has in between. -/
theorem Receives.of_rises {facts middle next : Facts Shape}
    {parameters : List Parameter} {arguments : List InstructionId}
    (h : Receives middle next parameters arguments)
    (hRises : Rises facts middle)
    (hArguments : ∀ pair ∈ parameters.zip arguments,
      pair.1.representation = .taggedValue → ∃ x, facts pair.2 = some x) :
    Receives facts next parameters arguments := by
  intro pair hPair hTagged
  obtain ⟨x, hx⟩ := hArguments pair hPair hTagged
  obtain ⟨y, hy, hLe⟩ := hRises _ x hx
  obtain ⟨y', hy', z, hz, hLe'⟩ := h pair hPair hTagged
  rw [hy] at hy'
  cases hy'
  exact ⟨x, hx, z, hz, hLe.trans hLe'⟩

omit [DecidableEq Shape] in
/-- An argument that is available has facts. -/
theorem exists_facts_of_argumentsAvailable {facts : Facts Shape}
    {definitions : List Definition} {parameters : List Parameter}
    {arguments : List InstructionId} (hCovers : Covers facts definitions)
    (h : argumentsAvailable definitions arguments parameters = true) :
    ∀ pair ∈ parameters.zip arguments,
      pair.1.representation = .taggedValue → ∃ x, facts pair.2 = some x := by
  intro pair hPair hTagged
  refine hCovers pair.2 ?_
  rw [← hTagged]
  exact mem_of_argumentsAvailable h pair hPair

/-- What handing over the arguments of an edge does to the table. -/
structure WidensParameters (shapes : Shapes Shape)
    (parameters : List Parameter) (arguments : List InstructionId)
    (facts next : Facts Shape) (changed changed' : Bool) : Prop where
  rises : Rises facts next
  frame : ∀ id, id ∉ parameters.map Parameter.id → next id = facts id
  receives : Receives facts next parameters arguments
  stays : changed = true → changed' = true
  same : changed' = false → next = facts
  higher : changed' = true → changed = false →
    ∃ parameter ∈ parameters, parameter.representation = .taggedValue ∧
      factRank facts parameter.id < factRank next parameter.id
  lasts : FactsLast shapes facts → FactsLast shapes next

/-- One parameter after the other. -/
theorem WidensParameters.cons {shapes : Shapes Shape}
    {parameter : Parameter} {parameters : List Parameter}
    {argument : InstructionId} {arguments : List InstructionId}
    {facts middle next : Facts Shape} {changed changed' changed'' : Bool}
    (h : WidensParameters shapes [parameter] [argument] facts middle changed
      changed')
    (h' : WidensParameters shapes parameters arguments middle next changed'
      changed'')
    (hArguments : ∀ pair ∈ parameters.zip arguments,
      pair.1.representation = .taggedValue → ∃ x, facts pair.2 = some x) :
    WidensParameters shapes (parameter :: parameters)
      (argument :: arguments) facts next changed changed'' where
  rises := h.rises.trans h'.rises
  frame := by
    intro id hId
    rw [List.map_cons, List.mem_cons, not_or] at hId
    rw [h'.frame id hId.2]
    exact h.frame id (by simpa using hId.1)
  receives := by
    intro pair hPair hTagged
    rw [List.zip_cons_cons, List.mem_cons] at hPair
    rcases hPair with rfl | hPair
    · exact (h.receives.rises h'.rises) _ List.mem_cons_self hTagged
    · exact (h'.receives.of_rises h.rises hArguments) pair hPair hTagged
  stays := fun hChanged => h'.stays (h.stays hChanged)
  same := by
    intro hNot
    have hNotBefore : changed' = false := by
      cases hBefore : changed' with
      | false => rfl
      | true =>
          rw [h'.stays hBefore] at hNot
          cases hNot
    rw [h'.same hNot, h.same hNotBefore]
  higher := by
    intro hNow hWas
    cases hBefore : changed' with
    | true =>
        obtain ⟨other, hOther, hTagged, hLess⟩ := h.higher hBefore hWas
        rw [List.mem_singleton] at hOther
        subst hOther
        exact ⟨other, List.mem_cons_self, hTagged,
          hLess.trans_le (h'.rises.factRank_le _)⟩
    | false =>
        obtain ⟨other, hOther, hTagged, hLess⟩ := h'.higher hNow hBefore
        rw [h.same hBefore] at hLess
        exact ⟨other, List.mem_cons_of_mem _ hOther, hTagged, hLess⟩
  lasts := fun hLast => h'.lasts (h.lasts hLast)

/-- The first parameter; one that is not tagged changes nothing. -/
theorem widenParameter_spec (shapes : Shapes Shape) {parameter : Parameter}
    {argument : InstructionId} {facts : Facts Shape} (changed : Bool)
    (hArgument : parameter.representation = .taggedValue →
      ∃ x, facts argument = some x)
    (hParameter : parameter.representation = .taggedValue →
      ∃ x, facts parameter.id = some x) :
    ∃ middle changed',
      (∀ parameters arguments,
        widenParameters (parameter :: parameters) (argument :: arguments)
          facts changed =
            widenParameters parameters arguments middle changed') ∧
      WidensParameters shapes [parameter] [argument] facts middle changed
        changed' := by
  by_cases hTagged : parameter.representation = .taggedValue
  · obtain ⟨x, hx⟩ := hArgument hTagged
    obtain ⟨found, hFound⟩ := hParameter hTagged
    obtain ⟨middle, widened, hWiden, hWidens, hAtLeast, hLasts⟩ :=
      widen_spec hFound x
    refine ⟨middle, changed || widened, ?_, hWidens.rises, hWidens.frame,
      ?_, ?_, ?_, ?_, fun hLast => hLasts shapes hLast (hLast _ x hx)⟩
    · intro parameters arguments
      rw [widenParameters, if_pos hTagged, hx]
      simp only [Option.bind_eq_bind, Option.bind_some, hWiden]
    · intro pair hPair _
      rw [List.zip_cons_cons, List.zip_nil_right, List.mem_singleton] at hPair
      subst hPair
      exact ⟨x, hx, hAtLeast⟩
    · intro hChanged
      rw [hChanged, Bool.true_or]
    · intro hNot
      rw [Bool.or_eq_false_iff] at hNot
      exact hWidens.same hNot.2
    · intro hNow hWas
      rw [hWas, Bool.false_or] at hNow
      obtain ⟨id, hId, -, hLess⟩ := hWidens.higher hNow
      rw [List.mem_singleton] at hId
      subst hId
      exact ⟨parameter, List.mem_cons_self, hTagged, hLess⟩
  · refine ⟨facts, changed, ?_, Rises.refl facts, fun _ _ => rfl, ?_, id,
      fun _ => rfl, ?_, id⟩
    · intro parameters arguments
      rw [widenParameters, if_neg hTagged]
    · intro pair hPair hPairTagged
      rw [List.zip_cons_cons, List.zip_nil_right, List.mem_singleton] at hPair
      subst hPair
      exact absurd hPairTagged hTagged
    · intro hNow hWas
      rw [hNow] at hWas
      cases hWas

theorem widenParameters_spec (shapes : Shapes Shape)
    {definitions : List Definition} :
    ∀ (parameters : List Parameter) (arguments : List InstructionId)
      (facts : Facts Shape) (changed : Bool),
      argumentsAvailable definitions arguments parameters = true →
      Covers facts definitions →
      Covers facts (parameters.map Parameter.definition) →
      ∃ next changed', widenParameters parameters arguments facts changed =
          some (next, changed') ∧
        WidensParameters shapes parameters arguments facts next changed
          changed' := by
  intro parameters
  induction parameters with
  | nil =>
      intro arguments facts changed hAvailable _ _
      cases arguments with
      | cons argument arguments => cases hAvailable
      | nil =>
          refine ⟨facts, changed, rfl, Rises.refl facts, fun _ _ => rfl, ?_,
            id, fun _ => rfl, ?_, id⟩
          · intro pair hPair
            cases hPair
          · intro hNow hWas
            rw [hNow] at hWas
            cases hWas
  | cons parameter parameters ih =>
      intro arguments facts changed hAvailable hCovers hParameters
      cases arguments with
      | nil => cases hAvailable
      | cons argument arguments =>
          have hOld :=
            exists_facts_of_argumentsAvailable hCovers hAvailable
          rw [List.zip_cons_cons] at hOld
          obtain ⟨middle, changed', hFirst, hStep⟩ :=
            widenParameter_spec shapes changed
              (hOld _ List.mem_cons_self) fun hTagged =>
              hParameters parameter.id (by
                rw [List.map_cons, Parameter.definition, hTagged]
                exact List.mem_cons_self)
          rw [argumentsAvailable, Bool.and_eq_true] at hAvailable
          have hRest := hParameters.subset (List.subset_cons_self _ _)
          obtain ⟨next, changed'', hNext, hSpec⟩ := ih arguments middle
            changed' hAvailable.2 (hCovers.rises hStep.rises)
            (hRest.rises hStep.rises)
          exact ⟨next, changed'', (hFirst _ _).trans hNext,
            hStep.cons hSpec fun pair hPair =>
              hOld pair (List.mem_cons_of_mem _ hPair)⟩

section States

variable (shapes : Shapes Shape) (graph : Graph Shape Cell Handler)

/-- The blocks that have not become reachable. -/
def unreached (reachable : Finset Nat) : Nat :=
  (Finset.range graph.blocks.length \ reachable).card

/-- What can still be put on the worklist, and what is on it. -/
def FactAnalysis.potential (state : FactAnalysis Shape) : Nat :=
  headroom TaggedValueSet.maximalRank graph.taggedIds
    (factRank state.facts) + unreached graph state.reachable +
      state.worklist.length

structure FactAnalysis.WellFormed (state : FactAnalysis Shape) : Prop where
  covers : ∀ block ∈ graph.blocks, Covers state.facts block.definitions
  lasts : FactsLast shapes state.facts
  mem_worklist : ∀ i, i ∈ state.worklist ↔ i ∈ state.queued
  nodup : state.worklist.Nodup
  queued : state.queued ⊆ state.reachable
  reachable : ∀ i ∈ state.reachable, i < graph.blocks.length

/-- What visiting edges does: a table entry changes only where the block of
the parameter is queued then. -/
structure Advances (state next : FactAnalysis Shape) : Prop where
  rises : Rises state.facts next.facts
  frame : ∀ id, next.facts id = state.facts id ∨
    ∃ i block, i ∈ next.queued ∧ graph.blocks[i]? = some block ∧
      id ∈ block.parameters.map Parameter.id
  reachable : state.reachable ⊆ next.reachable
  queued : state.queued ⊆ next.queued
  fresh : ∀ i ∈ next.reachable, i ∈ state.reachable ∨ i ∈ next.queued
  potential : next.potential graph ≤ state.potential graph

variable {shapes graph}

theorem Advances.refl (state : FactAnalysis Shape) :
    Advances graph state state where
  rises := Rises.refl _
  frame := fun _ => Or.inl rfl
  reachable := Finset.Subset.refl _
  queued := Finset.Subset.refl _
  fresh := fun _ h => Or.inl h
  potential := Nat.le_refl _

theorem Advances.trans {state next last : FactAnalysis Shape}
    (h : Advances graph state next) (h' : Advances graph next last) :
    Advances graph state last where
  rises := h.rises.trans h'.rises
  frame := by
    intro id
    rcases h'.frame id with hSame | hChanged
    · rcases h.frame id with hSame' | ⟨i, block, hi, hRest⟩
      · exact Or.inl (hSame.trans hSame')
      · exact Or.inr ⟨i, block, h'.queued hi, hRest⟩
    · exact Or.inr hChanged
  reachable := h.reachable.trans h'.reachable
  queued := h.queued.trans h'.queued
  fresh := by
    intro i hi
    rcases h'.fresh i hi with hNext | hQueued
    · exact (h.fresh i hNext).imp id fun hQueued => h'.queued hQueued
    · exact Or.inr hQueued
  potential := h'.potential.trans h.potential

/-! ## Edges -/

omit [DecidableEq Shape] in
theorem mem_taggedIds {block : Block Shape Cell Handler}
    (hBlock : block ∈ graph.blocks) {parameter : Parameter}
    (hParameter : parameter ∈ block.parameters)
    (hTagged : parameter.representation = .taggedValue) :
    parameter.id ∈ graph.taggedIds := by
  rw [Graph.taggedIds, List.mem_flatMap]
  refine ⟨block, hBlock, List.mem_map.mpr ⟨parameter.definition, ?_, rfl⟩⟩
  refine List.mem_filter.mpr ⟨List.mem_append_left _
    (List.mem_map_of_mem hParameter), ?_⟩
  rw [isTagged, Parameter.definition, hTagged]
  rfl

omit [DecidableEq Shape] in
theorem unreached_insert_le (graph : Graph Shape Cell Handler)
    (reachable : Finset Nat) (i : Nat) :
    unreached graph (insert i reachable) ≤ unreached graph reachable :=
  Finset.card_le_card
    (Finset.sdiff_subset_sdiff (Finset.Subset.refl _)
      (Finset.subset_insert _ _))

omit [DecidableEq Shape] in
theorem unreached_insert_lt {reachable : Finset Nat} {i : Nat}
    (hi : i < graph.blocks.length) (hNew : i ∉ reachable) :
    unreached graph (insert i reachable) < unreached graph reachable := by
  refine Finset.card_lt_card (Finset.ssubset_iff_of_subset
    (Finset.sdiff_subset_sdiff (Finset.Subset.refl _)
      (Finset.subset_insert _ _)) |>.mpr ⟨i, ?_, ?_⟩)
  · exact Finset.mem_sdiff.mpr ⟨Finset.mem_range.mpr hi, hNew⟩
  · intro hMem
    exact (Finset.mem_sdiff.mp hMem).2 (Finset.mem_insert_self _ _)

theorem headroom_rises {facts next : Facts Shape} (h : Rises facts next)
    (ids : List InstructionId) :
    headroom TaggedValueSet.maximalRank ids (factRank next) ≤
      headroom TaggedValueSet.maximalRank ids (factRank facts) :=
  headroom_le fun id _ => h.factRank_le id

/-- A target that has changed has taken from the potential. -/
theorem potential_lt_of_changed {target : Block Shape Cell Handler}
    {i : Nat} (hTarget : graph.blocks[i]? = some target)
    {arguments : List InstructionId} {facts next : Facts Shape}
    {reachable : Finset Nat}
    (h : WidensParameters shapes target.parameters arguments facts next
      (decide (i ∉ reachable)) true) :
    headroom TaggedValueSet.maximalRank graph.taggedIds (factRank next) +
        unreached graph (insert i reachable) <
      headroom TaggedValueSet.maximalRank graph.taggedIds (factRank facts) +
        unreached graph reachable := by
  have hHeadroom := headroom_rises h.rises graph.taggedIds
  have hUnreached := unreached_insert_le graph reachable i
  by_cases hNew : i ∈ reachable
  · obtain ⟨parameter, hParameter, hTagged, hLess⟩ :=
      h.higher rfl (by simpa using hNew)
    have hMem := mem_taggedIds (List.mem_of_getElem? hTarget) hParameter
      hTagged
    have hHeadroomLess := headroom_lt
      (fun id _ => h.rises.factRank_le id) hMem hLess (factRank_le _ _)
    omega
  · have hLength := (List.getElem?_eq_some_iff.mp hTarget).1
    have hUnreachedLess := unreached_insert_lt hLength hNew
    omega

/-- The target of an edge is reachable, and its parameters have received the
facts of the arguments. -/
def Delivered (graph : Graph Shape Cell Handler) (facts : Facts Shape)
    (next : FactAnalysis Shape) (edge : BlockEdge) : Prop :=
  edge.target ∈ next.reachable ∧
    ∃ target, graph.blocks[edge.target]? = some target ∧
      Receives facts next.facts target.parameters edge.arguments

/-- What the verifier has found of an edge. -/
def EdgeAvailable (graph : Graph Shape Cell Handler)
    (definitions : List Definition) (edge : BlockEdge) : Prop :=
  ∃ target, graph.blocks[edge.target]? = some target ∧
    argumentsAvailable definitions edge.arguments target.parameters = true

omit [DecidableEq Shape] in
theorem Block.covers_parameters {facts : Facts Shape}
    {block : Block Shape Cell Handler}
    (h : Covers facts block.definitions) :
    Covers facts (block.parameters.map Parameter.definition) :=
  h.subset (List.subset_append_left _ _)

theorem visitEdge_spec {state : FactAnalysis Shape}
    (hState : state.WellFormed shapes graph)
    {definitions : List Definition} (hCovers : Covers state.facts definitions)
    {edge : BlockEdge} (hEdge : EdgeAvailable graph definitions edge) :
    ∃ next, visitEdge graph edge state = some next ∧
      next.WellFormed shapes graph ∧ Advances graph state next ∧
        Delivered graph state.facts next edge := by
  obtain ⟨target, hTarget, hArguments⟩ := hEdge
  have hTargetMem := List.mem_of_getElem? hTarget
  obtain ⟨facts, changed, hRun, hSpec⟩ := widenParameters_spec shapes
    target.parameters edge.arguments state.facts
    (decide (edge.target ∉ state.reachable)) hArguments hCovers
    (Block.covers_parameters (hState.covers target hTargetMem))
  have hLength := (List.getElem?_eq_some_iff.mp hTarget).1
  have hCoversNext : ∀ block ∈ graph.blocks,
      Covers facts block.definitions := fun block hBlock =>
    (hState.covers block hBlock).rises hSpec.rises
  have hReachable : ∀ i ∈ insert edge.target state.reachable,
      i < graph.blocks.length := by
    intro i hi
    rcases Finset.mem_insert.mp hi with rfl | hi
    · exact hLength
    · exact hState.reachable i hi
  have hPotential : changed = true →
      headroom TaggedValueSet.maximalRank graph.taggedIds (factRank facts) +
          unreached graph (insert edge.target state.reachable) <
        headroom TaggedValueSet.maximalRank graph.taggedIds
            (factRank state.facts) + unreached graph state.reachable := by
    intro hChanged
    subst hChanged
    exact potential_lt_of_changed hTarget hSpec
  rw [visitEdge, hTarget]
  simp only [Option.bind_eq_bind, Option.bind_some, hRun]
  by_cases hPush : changed = true ∧ edge.target ∉ state.queued
  · rw [if_pos hPush]
    refine ⟨_, rfl, ⟨hCoversNext, hSpec.lasts hState.lasts, ?_, ?_, ?_,
      hReachable⟩, ⟨hSpec.rises, ?_, Finset.subset_insert _ _,
      Finset.subset_insert _ _, ?_, ?_⟩, Finset.mem_insert_self _ _, target,
      hTarget, hSpec.receives⟩
    · intro i
      rw [List.mem_cons, Finset.mem_insert, hState.mem_worklist]
    · exact List.nodup_cons.mpr
        ⟨mt (hState.mem_worklist _).mp hPush.2, hState.nodup⟩
    · exact Finset.insert_subset_insert _ hState.queued
    · intro id
      by_cases hId : id ∈ target.parameters.map Parameter.id
      · exact Or.inr ⟨_, target, Finset.mem_insert_self _ _, hTarget, hId⟩
      · exact Or.inl (hSpec.frame id hId)
    · intro i hi
      rcases Finset.mem_insert.mp hi with rfl | hi
      · exact Or.inr (Finset.mem_insert_self _ _)
      · exact Or.inl hi
    · have hLess := hPotential hPush.1
      simp only [FactAnalysis.potential, List.length_cons]
      omega
  · rw [if_neg hPush]
    refine ⟨_, rfl, ⟨hCoversNext, hSpec.lasts hState.lasts,
      hState.mem_worklist, hState.nodup,
      hState.queued.trans (Finset.subset_insert _ _), hReachable⟩,
      ⟨hSpec.rises, ?_, Finset.subset_insert _ _, Finset.Subset.refl _, ?_,
        ?_⟩, Finset.mem_insert_self _ _, target, hTarget, hSpec.receives⟩
    · intro id
      cases hChanged : changed with
      | false => exact Or.inl (congrFun (hSpec.same hChanged) id)
      | true =>
          have hQueued : edge.target ∈ state.queued := by
            by_contra hNot
            exact hPush ⟨hChanged, hNot⟩
          by_cases hId : id ∈ target.parameters.map Parameter.id
          · exact Or.inr ⟨_, target, hQueued, hTarget, hId⟩
          · exact Or.inl (hSpec.frame id hId)
    · intro i hi
      rcases Finset.mem_insert.mp hi with rfl | hi
      · by_cases hQueued : edge.target ∈ state.queued
        · exact Or.inr hQueued
        · refine Or.inl ?_
          by_contra hNew
          exact hPush ⟨hSpec.stays (decide_eq_true hNew), hQueued⟩
      · exact Or.inl hi
    · have hHeadroom := headroom_rises hSpec.rises graph.taggedIds
      have hUnreached := unreached_insert_le graph
        state.reachable edge.target
      simp only [FactAnalysis.potential]
      omega

theorem Delivered.advances {facts : Facts Shape}
    {state next : FactAnalysis Shape} {edge : BlockEdge}
    (h : Delivered graph facts state edge)
    (hAdvances : Advances graph state next) :
    Delivered graph facts next edge := by
  obtain ⟨hReachable, target, hTarget, hReceives⟩ := h
  exact ⟨hAdvances.reachable hReachable, target, hTarget,
    hReceives.rises hAdvances.rises⟩

theorem visitEdges_spec {definitions : List Definition} :
    ∀ (edges : List BlockEdge) (state : FactAnalysis Shape),
      state.WellFormed shapes graph → Covers state.facts definitions →
      (∀ edge ∈ edges, EdgeAvailable graph definitions edge) →
      ∃ next, visitEdges graph edges state = some next ∧
        next.WellFormed shapes graph ∧ Advances graph state next ∧
          ∀ edge ∈ edges, Delivered graph state.facts next edge := by
  intro edges
  induction edges with
  | nil =>
      intro state hState _ _
      exact ⟨state, rfl, hState, Advances.refl state,
        fun _ h => (List.not_mem_nil h).elim⟩
  | cons edge edges ih =>
      intro state hState hCovers hEdges
      obtain ⟨middle, hRun, hMiddle, hAdvances, hDelivered⟩ :=
        visitEdge_spec hState hCovers (hEdges edge List.mem_cons_self)
      have hRest : ∀ other ∈ edges,
          EdgeAvailable graph definitions other := fun other hOther =>
        hEdges other (List.mem_cons_of_mem _ hOther)
      obtain ⟨next, hNext, hWellFormed, hAdvances', hDelivered'⟩ :=
        ih middle hMiddle (hCovers.rises hAdvances.rises) hRest
      refine ⟨next, ?_, hWellFormed, hAdvances.trans hAdvances', ?_⟩
      · rw [visitEdges, hRun]
        exact hNext
      · intro other hOther
        rcases List.mem_cons.mp hOther with rfl | hOther
        · exact hDelivered.advances hAdvances'
        · obtain ⟨hReachable, target, hTarget, hReceives⟩ :=
            hDelivered' other hOther
          obtain ⟨target', hTarget', hArguments⟩ := hRest other hOther
          rw [hTarget] at hTarget'
          cases hTarget'
          exact ⟨hReachable, target, hTarget,
            hReceives.of_rises hAdvances.rises
              (exists_facts_of_argumentsAvailable hCovers hArguments)⟩

/-! ## One turn -/

/-- The facts of a block are in the table, and handed on. -/
structure BlockClosed (shapes : Shapes Shape)
    (graph : Graph Shape Cell Handler) (state : FactAnalysis Shape)
    (block : Block Shape Cell Handler) : Prop where
  instructions : ∀ instruction ∈ block.instructions,
    InstructionClosed shapes state.facts instruction
  edges : ∀ edge ∈ block.blockSuccessorEdges,
    Delivered graph state.facts state edge

/-- The entry may be called with any value. -/
def EntryUnknown (graph : Graph Shape Cell Handler) (facts : Facts Shape) :
    Prop :=
  ∀ entry, graph.blocks[0]? = some entry →
    ∀ parameter ∈ entry.parameters,
      parameter.representation = .taggedValue →
        AtLeast facts parameter.id .unknown

/-- What holds between two turns. -/
structure FactAnalysis.Invariant (shapes : Shapes Shape)
    (graph : Graph Shape Cell Handler) (state : FactAnalysis Shape) :
    Prop where
  wellFormed : state.WellFormed shapes graph
  entry : 0 ∈ state.reachable
  entryUnknown : EntryUnknown graph state.facts
  closed : ∀ i ∈ state.reachable, i ∉ state.queued →
    ∀ block, graph.blocks[i]? = some block →
      BlockClosed shapes graph state block

omit [DecidableEq Shape] in
theorem Block.instruction_id_mem {block : Block Shape Cell Handler}
    {instruction : Instruction Shape Cell Handler}
    (h : instruction ∈ block.instructions) : instruction.id ∈ block.ids :=
  List.mem_append_left _ (List.mem_append_right _ (List.mem_map_of_mem h))

omit [DecidableEq Shape] in
theorem Block.parameter_id_mem {block : Block Shape Cell Handler}
    {id : InstructionId} (h : id ∈ block.parameters.map Parameter.id) :
    id ∈ block.ids :=
  List.mem_append_left _ (List.mem_append_left _ h)

omit [DecidableEq Shape] in
theorem Block.definition_id_mem {block : Block Shape Cell Handler}
    {definition : Definition} (h : definition ∈ block.definitions) :
    definition.id ∈ block.ids := by
  rw [Block.ids_eq]
  exact List.mem_append_left _ (List.mem_map_of_mem h)

omit [DecidableEq Shape] in
/-- What an instruction uses is defined in its block. -/
theorem operandsAvailable_of_mem :
    ∀ {instructions : List (Instruction Shape Cell Handler)}
      {definitions : List Definition},
      instructionsAvailable definitions instructions = true →
        ∀ instruction ∈ instructions, ∃ before,
          instruction.operandsAvailable before = true ∧
            before ⊆ definitions ++
              instructions.map Instruction.definition := by
  intro instructions
  induction instructions with
  | nil =>
      intro definitions _ instruction hMem
      cases hMem
  | cons first rest ih =>
      intro definitions h instruction hMem
      rw [instructionsAvailable, Bool.and_eq_true] at h
      rcases List.mem_cons.mp hMem with rfl | hMem
      · exact ⟨definitions, h.1, List.subset_append_left _ _⟩
      · obtain ⟨before, hBefore, hSubset⟩ := ih h.2 instruction hMem
        refine ⟨before, hBefore, ?_⟩
        rw [List.append_assoc] at hSubset
        exact hSubset

/-- A block stays closed while its own entries stay. -/
theorem BlockClosed.congr {next : FactAnalysis Shape}
    {block : Block Shape Cell Handler} (hVerified : block.Verified graph)
    {facts : Facts Shape}
    (hInstructions : ∀ instruction ∈ block.instructions,
      InstructionClosed shapes facts instruction)
    (hEdges : ∀ edge ∈ block.blockSuccessorEdges,
      Delivered graph facts next edge)
    (hSame : ∀ id ∈ block.ids, next.facts id = facts id) :
    BlockClosed shapes graph next block where
  instructions := by
    intro instruction hMem
    obtain ⟨before, hBefore, hSubset⟩ :=
      operandsAvailable_of_mem hVerified.instructions instruction hMem
    refine (hInstructions instruction hMem).congr
      (sourceFacts_congr hBefore fun definition hDefinition => ?_)
      (hSame _ (Block.instruction_id_mem hMem))
    exact hSame _ (Block.definition_id_mem (hSubset hDefinition))
  edges := by
    intro edge hMem
    obtain ⟨hReachable, target, hTarget, hReceives⟩ := hEdges edge hMem
    obtain ⟨target', hTarget', hArguments⟩ := hVerified.edges edge hMem
    rw [hTarget] at hTarget'
    cases hTarget'
    refine ⟨hReachable, target, hTarget, fun pair hPair hTagged => ?_⟩
    obtain ⟨x, hx, hAt⟩ := hReceives pair hPair hTagged
    have hMemArgument := mem_of_argumentsAvailable hArguments pair hPair
    exact ⟨x, (hSame _ (Block.definition_id_mem hMemArgument)).trans hx, hAt⟩

/-- The state in which the edges of a block are visited. -/
theorem wellFormed_of_widened {state : FactAnalysis Shape}
    (hState : state.WellFormed shapes graph) {i : Nat} {worklist : List Nat}
    (hWorklist : state.worklist = i :: worklist) {facts : Facts Shape}
    (hRises : Rises state.facts facts)
    (hLasts : FactsLast shapes state.facts → FactsLast shapes facts) :
    ({ state with
        facts, worklist
        queued := state.queued.erase i } :
      FactAnalysis Shape).WellFormed shapes graph := by
  have hNodup := hState.nodup
  rw [hWorklist, List.nodup_cons] at hNodup
  refine ⟨fun block hBlock => (hState.covers block hBlock).rises hRises,
    hLasts hState.lasts, ?_, hNodup.2,
    (Finset.erase_subset _ _).trans hState.queued, hState.reachable⟩
  intro j
  have hMem := hState.mem_worklist j
  rw [hWorklist, List.mem_cons] at hMem
  rw [Finset.mem_erase, ← hMem]
  constructor
  · intro hj
    exact ⟨fun hEq => hNodup.1 (hEq ▸ hj), Or.inr hj⟩
  · rintro ⟨hne, hEq | hj⟩
    · exact absurd hEq hne
    · exact hj

theorem visitBlock_spec (hGraph : graph.Published)
    {state : FactAnalysis Shape} (hState : state.Invariant shapes graph)
    (hBusy : state.done = false) :
    ∃ next, visitBlock shapes graph state = some next ∧
      next.Invariant shapes graph ∧
        next.potential graph < state.potential graph := by
  obtain ⟨i, worklist, hWorklist⟩ :
      ∃ i worklist, state.worklist = i :: worklist := by
    cases hList : state.worklist with
    | nil =>
        rw [FactAnalysis.done, hList] at hBusy
        cases hBusy
    | cons i worklist => exact ⟨i, worklist, rfl⟩
  have hWellFormed := hState.wellFormed
  have hQueued : i ∈ state.queued := by
    rw [← hWellFormed.mem_worklist, hWorklist]
    exact List.mem_cons_self
  have hLength := hWellFormed.reachable i (hWellFormed.queued hQueued)
  have hBlock : graph.blocks[i]? = some graph.blocks[i] :=
    List.getElem?_eq_getElem hLength
  have hBlockMem : graph.blocks[i] ∈ graph.blocks := List.getElem_mem hLength
  generalize graph.blocks[i] = block at hBlock hBlockMem
  have hVerified := hGraph.verified block hBlockMem
  have hIds := hGraph.nodup_ids hBlockMem
  have hDefinitionIds : ((block.parameters.map Parameter.definition).map
      Definition.id ++ block.instructions.map Instruction.id).Nodup := by
    rw [List.map_map]
    exact (List.nodup_append.mp hIds).1
  obtain ⟨facts, hWiden, hSpec⟩ := widenInstructions_spec shapes
    block.instructions _ state.facts hVerified.instructions hDefinitionIds
    (hWellFormed.covers block hBlockMem)
  have hMiddle := wellFormed_of_widened hWellFormed hWorklist hSpec.rises
    hSpec.lasts
  obtain ⟨next, hVisit, hNext, hAdvances, hDelivered⟩ := visitEdges_spec
    block.blockSuccessorEdges _ hMiddle (hMiddle.covers block hBlockMem)
    hVerified.edges
  have hRises : Rises state.facts next.facts :=
    hSpec.rises.trans hAdvances.rises
  -- entries of another block, or of this one, stay unless it is queued
  have hStays : ∀ j, j ∉ next.queued → ∀ other,
      graph.blocks[j]? = some other → ∀ id ∈ other.ids,
        next.facts id = facts id := by
    intro j hj other hOther id hId
    rcases hAdvances.frame id with hSame | ⟨k, target, hk, hTarget, hMem⟩
    · exact hSame
    · have hEq : j = k := by
        by_contra hne
        exact hGraph.ids_disjoint hOther hTarget hne hId
          (Block.parameter_id_mem hMem)
      exact absurd (hEq ▸ hk) hj
  refine ⟨next, ?_, ⟨hNext, hAdvances.reachable hState.entry, ?_, ?_⟩, ?_⟩
  · rw [visitBlock, hWorklist]
    simp only [Option.bind_eq_bind, hBlock, Option.bind_some, hWiden]
    exact hVisit
  · intro entry hEntry parameter hParameter hTagged
    exact (hState.entryUnknown entry hEntry parameter hParameter
      hTagged).rises hRises
  · intro j hj hjQueued other hOther
    by_cases hEq : j = i
    · subst hEq
      rw [hBlock] at hOther
      cases hOther
      exact BlockClosed.congr hVerified hSpec.closed hDelivered
        (hStays j hjQueued block hBlock)
    · have hOld : j ∈ state.reachable :=
        (hAdvances.fresh j hj).resolve_right hjQueued
      have hOldQueued : j ∉ state.queued := fun hMem =>
        hjQueued (hAdvances.queued (Finset.mem_erase.mpr ⟨hEq, hMem⟩))
      have hClosed := hState.closed j hOld hOldQueued other hOther
      refine BlockClosed.congr
        (hGraph.verified other (List.mem_of_getElem? hOther))
        hClosed.instructions ?_ ?_
      · intro edge hEdge
        obtain ⟨hReachable, target, hTarget, hReceives⟩ :=
          hClosed.edges edge hEdge
        exact ⟨hAdvances.reachable hReachable, target, hTarget,
          hReceives.rises hRises⟩
      · intro id hId
        rw [hStays j hjQueued other hOther id hId]
        refine hSpec.frame id fun hMem => ?_
        obtain ⟨instruction, hInstruction, rfl⟩ := List.mem_map.mp hMem
        exact hGraph.ids_disjoint hOther hBlock hEq hId
          (Block.instruction_id_mem hInstruction)
  · have hPotential := hAdvances.potential
    have hHeadroom := headroom_rises hSpec.rises graph.taggedIds
    simp only [FactAnalysis.potential, hWorklist, List.length_cons] at *
    omega

/-! ## The start -/

theorem widenEntry_spec (shapes : Shapes Shape) :
    ∀ (parameters : List Parameter) (facts : Facts Shape),
      Covers facts (parameters.map Parameter.definition) →
      ∃ next, widenEntry parameters facts = some next ∧
        Rises facts next ∧
          (∀ parameter ∈ parameters,
            parameter.representation = .taggedValue →
              AtLeast next parameter.id .unknown) ∧
            (FactsLast shapes facts → FactsLast shapes next) := by
  intro parameters
  induction parameters with
  | nil =>
      intro facts _
      exact ⟨facts, rfl, Rises.refl facts,
        fun _ h => (List.not_mem_nil h).elim, id⟩
  | cons parameter parameters ih =>
      intro facts hCovers
      rw [List.map_cons] at hCovers
      have hRest := hCovers.subset (List.subset_cons_self _ _)
      by_cases hTagged : parameter.representation = .taggedValue
      · obtain ⟨found, hFound⟩ := hCovers parameter.id (by
          rw [Parameter.definition, hTagged]
          exact List.mem_cons_self)
        obtain ⟨middle, widened, hWiden, hWidens, hAtLeast, hLasts⟩ :=
          widen_spec hFound .unknown
        obtain ⟨next, hNext, hRises, hUnknown, hLasts'⟩ :=
          ih middle (hRest.rises hWidens.rises)
        refine ⟨next, ?_, hWidens.rises.trans hRises, ?_, ?_⟩
        · rw [widenEntry, if_pos hTagged, hWiden]
          exact hNext
        · intro other hOther hOtherTagged
          rcases List.mem_cons.mp hOther with rfl | hOther
          · exact hAtLeast.rises hRises
          · exact hUnknown other hOther hOtherTagged
        · intro hLast
          exact hLasts' (hLasts shapes hLast (lasting_of_none rfl))
      · obtain ⟨next, hNext, hRises, hUnknown, hLasts⟩ := ih facts hRest
        refine ⟨next, ?_, hRises, ?_, hLasts⟩
        · rw [widenEntry, if_neg hTagged]
          exact hNext
        · intro other hOther hOtherTagged
          rcases List.mem_cons.mp hOther with rfl | hOther
          · exact absurd hOtherTagged hTagged
          · exact hUnknown other hOther hOtherTagged

omit [DecidableEq Shape] in
theorem covers_initialFacts {block : Block Shape Cell Handler}
    (hBlock : block ∈ graph.blocks) :
    Covers (graph.initialFacts : Facts Shape) block.definitions := by
  intro id hId
  refine ⟨.never, if_pos ?_⟩
  rw [Graph.taggedIds, List.mem_flatMap]
  exact ⟨block, hBlock, List.mem_map.mpr
    ⟨_, List.mem_filter.mpr ⟨hId, rfl⟩, rfl⟩⟩

omit [DecidableEq Shape] in
theorem factsLast_initialFacts :
    FactsLast shapes (graph.initialFacts : Facts Shape) := by
  intro id x hx
  rw [Graph.initialFacts] at hx
  split at hx
  · cases hx
    exact lasting_of_none rfl
  · cases hx

theorem initialAnalysis_spec (shapes : Shapes Shape)
    (hGraph : graph.Published) :
    ∃ start, initialAnalysis graph = some start ∧
      start.Invariant shapes graph ∧
        start.potential graph < graph.analysisTurns := by
  obtain ⟨entry, hEntry⟩ : ∃ entry, graph.blocks[0]? = some entry := by
    cases hBlocks : graph.blocks with
    | nil => exact absurd hBlocks hGraph.entry
    | cons entry rest => exact ⟨entry, rfl⟩
  have hEntryMem := List.mem_of_getElem? hEntry
  have hLength := (List.getElem?_eq_some_iff.mp hEntry).1
  obtain ⟨facts, hWiden, hRises, hUnknown, hLasts⟩ :=
    widenEntry_spec shapes entry.parameters graph.initialFacts
      (Block.covers_parameters (covers_initialFacts hEntryMem))
  refine ⟨{ facts, reachable := {0}, queued := {0}, worklist := [0] }, ?_,
    ⟨⟨fun block hBlock => (covers_initialFacts hBlock).rises hRises,
      hLasts factsLast_initialFacts, ?_, List.nodup_singleton 0,
      Finset.Subset.refl _, ?_⟩, Finset.mem_singleton_self 0, ?_, ?_⟩, ?_⟩
  · rw [initialAnalysis, hEntry]
    simp only [Option.bind_eq_bind, Option.bind_some, hWiden]
    rfl
  · intro i
    rw [List.mem_singleton, Finset.mem_singleton]
  · intro i hi
    rw [Finset.mem_singleton.mp hi]
    exact hLength
  · intro other hOther
    rw [hEntry] at hOther
    cases hOther
    exact hUnknown
  · intro i hi hNot
    exact absurd hi hNot
  · have hHeadroom := @headroom_le_mul _ TaggedValueSet.maximalRank
      graph.taggedIds (factRank facts)
    have hUnreached : unreached graph {0} ≤ graph.blocks.length := by
      have hCard := Finset.card_le_card (Finset.sdiff_subset
        (s := Finset.range graph.blocks.length) (t := {0}))
      rw [Finset.card_range] at hCard
      exact hCard
    simp only [FactAnalysis.potential, Graph.analysisTurns,
      List.length_singleton]
    omega

/-- The table of a state with an empty worklist. -/
structure Fixpoint (shapes : Shapes Shape)
    (graph : Graph Shape Cell Handler) (facts : Facts Shape) : Prop where
  covers : ∀ block ∈ graph.blocks, Covers facts block.definitions
  lasts : FactsLast shapes facts
  entryUnknown : EntryUnknown graph facts
  closed : ∃ reachable : Finset Nat, 0 ∈ reachable ∧
    ∀ i ∈ reachable, ∀ block, graph.blocks[i]? = some block →
      (∀ instruction ∈ block.instructions,
        InstructionClosed shapes facts instruction) ∧
      ∀ edge ∈ block.blockSuccessorEdges, edge.target ∈ reachable ∧
        ∃ target, graph.blocks[edge.target]? = some target ∧
          Receives facts facts target.parameters edge.arguments

theorem fixpoint_of_done {state : FactAnalysis Shape}
    (hState : state.Invariant shapes graph) (hDone : state.done = true) :
    Fixpoint shapes graph state.facts where
  covers := hState.wellFormed.covers
  lasts := hState.wellFormed.lasts
  entryUnknown := hState.entryUnknown
  closed := by
    refine ⟨state.reachable, hState.entry, fun i hi block hBlock => ?_⟩
    have hNot : i ∉ state.queued := by
      rw [← hState.wellFormed.mem_worklist, List.isEmpty_iff.mp hDone]
      exact List.not_mem_nil
    have hClosed := hState.closed i hi hNot block hBlock
    exact ⟨hClosed.instructions, hClosed.edges⟩

/-- The worklist ends, after as many turns however many more are allowed, and
the table is a fixpoint then. -/
theorem taggedValueFactAnalysis_spec (shapes : Shapes Shape)
    (hGraph : graph.Published) :
    ∃ start last, initialAnalysis graph = some start ∧
      (∀ turns, graph.analysisTurns ≤ turns →
        repeatTurns FactAnalysis.done (visitBlock shapes graph) turns
          start = some last) ∧
      last.worklist = [] ∧
      taggedValueFactAnalysis shapes graph = some last.facts ∧
      Fixpoint shapes graph last.facts := by
  obtain ⟨start, hStart, hInvariant, hPotential⟩ :=
    initialAnalysis_spec shapes hGraph
  obtain ⟨last, hRun, hLast, hDone⟩ := repeatTurns_ends
    (fun state hState hBusy => visitBlock_spec hGraph hState hBusy)
    graph.analysisTurns start hInvariant hPotential.le
  refine ⟨start, last, hStart, repeatTurns_of_done _ start hRun hDone,
    List.isEmpty_iff.mp hDone, ?_, fixpoint_of_done hLast hDone⟩
  rw [taggedValueFactAnalysis, hStart]
  simp only [Option.bind_eq_bind, Option.bind_some, hRun]
  exact check_bind hDone _

end States

end CloverVM.Jit
