import CloverVM.Runtime.OperatorProtocol

/-!
# The operator tables run the operator protocol

Each row of a table is an attempt of the protocol, up to a relation on run
states: equality when no function has a trusted handler, equal worlds when
some calls are replaced by handlers or skipped.
-/

namespace CloverVM.Runtime.OperatorRefinement

open CloverVM.Machine.Fallback
open CloverVM.Runtime.OperatorTables
open CloverVM.Runtime.OperatorWalk
open CloverVM.Runtime.OperatorProtocol

variable {C V F H E W K : Type} [DecidableEq C] [DecidableEq V]

section Rows

variable (m : ObjectModel C V F H E W K) (ops : Operands V)

/-- A relation on run states under which a row's call does what the call of
its function does. -/
structure Faithful (R : RunState V F W → RunState V F W → Prop) : Prop where
  world : ∀ {s t}, R s t → s.world = t.world
  neverStuck : ∀ order f s, rowCall m ops order f s ≠ .stuck
  call : ∀ {s t}, R s t → ∀ order f,
    AttemptsAgree R ((rowCall m ops order f s).attempt s)
      (callFunction m ops order f t)
  -- a skipped method is still there, and skipped, after the other one ran
  skipLasts : ∀ {s s' name f g},
    m.resolveSpecialMethod s.world ops.operand1 name = some (.function f) →
    rowCall m ops .reflected f s = .skipped →
    rowCall m ops .normal g s = .attempted (.declined s') →
    m.resolveSpecialMethod s'.world ops.operand1 name = some (.function f) ∧
      rowCall m ops .reflected f s' = .skipped

/-- A row as an attempt. -/
def rowAttempt (tableId : OperatorDispatchTableId) (step : OperatorStep)
    (s : RunState V F W) : Attempt (RunState V F W) (Final V E) :=
  (runRow m tableId ops step s).attempt s

/-- A row that calls the method of an operand whenever it finds one. -/
def methodRow (order : OperandOrder) (name : String) : OperatorStep :=
  ⟨name, callAction order, .ifMethodFound, 0⟩

variable {m ops} {tableId : OperatorDispatchTableId}

/-- Rows up to a fallback that always answers are a chain of attempts. -/
theorem runRows_eq_firstAnswer
    {fallback : RunState V F W → Final V E × RunState V F W}
    {last : OperatorStep} (rows more : List OperatorStep)
    (hLast : ∀ s, runRow m tableId ops last s =
      .attempted (.answered (fallback s).1 (fallback s).2))
    (hRows : ∀ step ∈ rows, step.elseSkip = 0 ∧
      ∀ s, runRow m tableId ops step s ≠ .stuck) :
    ∀ s, runRows m tableId ops (rows ++ last :: more) 0 s =
      some (firstAnswer fallback (rows.map (rowAttempt m ops tableId)) s) := by
  induction rows with
  | nil =>
      intro s
      rw [List.nil_append, runRows, hLast]
      rfl
  | cons step rows ih =>
      intro s
      have hStep := hRows step List.mem_cons_self
      have hRest := ih fun step h => hRows step (List.mem_cons_of_mem _ h)
      rw [List.cons_append, runRows_cons m tableId ops hStep.1 (hStep.2 s),
        List.map_cons]
      cases hAttempt : (runRow m tableId ops step s).attempt s with
      | declined s' =>
          have hDeclined : rowAttempt m ops tableId step s = .declined s' :=
            hAttempt
          rw [firstAnswer_cons_declined hDeclined]
          exact hRest s'
      | answered r s' =>
          have hAnswered : rowAttempt m ops tableId step s = .answered r s' :=
            hAttempt
          rw [firstAnswer_cons_answered hAnswered]

theorem runRow_methodRow (order : OperandOrder) (name : String)
    (s : RunState V F W) :
    runRow m tableId ops (methodRow order name) s =
      match m.resolveSpecialMethod s.world (receiver ops order) name with
      | none => .skipped
      | some attr => rowAttribute m ops order attr s :=
  runRow_call m ops tableId order name .ifMethodFound 0 s

/-- A reflected row for operands of different types. -/
def otherTypeRow (name : String) : OperatorStep :=
  ⟨name, .callBinaryReflected, .ifMethodFoundAndOperands01TypesDiffer, 0⟩

theorem runRow_otherTypeRow (name : String) (s : RunState V F W) :
    runRow m tableId ops (otherTypeRow name) s =
      if m.classOf s.world ops.operand0 = m.classOf s.world ops.operand1 then
        .skipped
      else runRow m tableId ops (methodRow .reflected name) s := by
  rw [runRow_methodRow]
  have h := runRow_call m ops tableId .reflected name
    .ifMethodFoundAndOperands01TypesDiffer 0 s
  rw [otherTypeRow]
  simp only [callAction, receiver, ObjectModel.resolveApplicableOperatorMethod]
    at h ⊢
  rw [h]
  by_cases hSame :
    m.classOf s.world ops.operand0 = m.classOf s.world ops.operand1
  · rw [if_pos hSame, if_pos hSame]
  · cases m.resolveSpecialMethod s.world ops.operand1 name <;>
      rw [if_neg hSame, if_neg hSame]

end Rows

namespace Faithful

variable {m : ObjectModel C V F H E W K} {ops : Operands V}
  {tableId : OperatorDispatchTableId}
  {R : RunState V F W → RunState V F W → Prop}

omit [DecidableEq C] [DecidableEq V] in
theorem rowAttribute_ne_stuck (hF : Faithful m ops R) (order : OperandOrder)
    (attr : ClassAttribute F) (s : RunState V F W) :
    rowAttribute m ops order attr s ≠ .stuck := by
  rw [rowAttribute]
  cases m.callTarget attr 2 with
  | error e => rintro ⟨⟩
  | ok f => exact hF.neverStuck order f s

theorem runRow_methodRow_ne_stuck (hF : Faithful m ops R)
    (order : OperandOrder) (name : String) (s : RunState V F W) :
    runRow m tableId ops (methodRow order name) s ≠ .stuck := by
  rw [runRow_methodRow]
  cases m.resolveSpecialMethod s.world (receiver ops order) name with
  | none => exact nofun
  | some attr => exact hF.rowAttribute_ne_stuck order attr s

theorem runRow_otherTypeRow_ne_stuck (hF : Faithful m ops R) (name : String)
    (s : RunState V F W) :
    runRow m tableId ops (otherTypeRow name) s ≠ .stuck := by
  rw [runRow_otherTypeRow]
  split
  · rintro ⟨⟩
  · exact hF.runRow_methodRow_ne_stuck .reflected name s

omit [DecidableEq C] [DecidableEq V] in
theorem rowAttribute_agrees (hF : Faithful m ops R) {s t : RunState V F W}
    (hst : R s t) (order : OperandOrder) (attr : ClassAttribute F) :
    AttemptsAgree R ((rowAttribute m ops order attr s).attempt s)
      (callAttribute m ops order attr t) := by
  rw [rowAttribute, callAttribute]
  cases m.callTarget attr 2 with
  | error e => exact ⟨rfl, hst⟩
  | ok f => exact hF.call hst order f

omit [DecidableEq C] [DecidableEq V] in
/-- Only a function's call is skipped. -/
theorem rowAttribute_skipped {order : OperandOrder} {attr : ClassAttribute F}
    {s : RunState V F W} (h : rowAttribute m ops order attr s = .skipped) :
    ∃ f, attr = .function f ∧ m.callTarget attr 2 = .ok f ∧
      rowCall m ops order f s = .skipped := by
  cases attr with
  | descriptorGet => cases h
  | other => cases h
  | function f =>
      rw [rowAttribute] at h
      cases hTarget : m.callTarget (.function f) 2 with
      | error e =>
          rw [hTarget] at h
          cases h
      | ok g =>
          rw [hTarget] at h
          rw [ObjectModel.callTarget] at hTarget
          split at hTarget
          · exact ⟨f, rfl, hTarget ▸ rfl, Except.ok.inj hTarget ▸ h⟩
          · cases hTarget

/-- A method row is the protocol's attempt at the method. -/
theorem methodRow_agrees (hF : Faithful m ops R) {s t : RunState V F W}
    (hst : R s t) (order : OperandOrder) (name : String) :
    AttemptsAgree R (rowAttempt m ops tableId (methodRow order name) s)
      (tryMethod m ops order name t) := by
  rw [rowAttempt, runRow_methodRow, tryMethod, hF.world hst]
  cases m.resolveSpecialMethod t.world (receiver ops order) name with
  | none => exact hst
  | some attr => exact hF.rowAttribute_agrees hst order attr

theorem otherTypeRow_agrees (hF : Faithful m ops R) {s t : RunState V F W}
    (hst : R s t) (name : String) :
    AttemptsAgree R (rowAttempt m ops tableId (otherTypeRow name) s)
      (tryReflectedOfOtherType m ops name t) := by
  rw [rowAttempt, runRow_otherTypeRow, tryReflectedOfOtherType, hF.world hst]
  split
  · exact hst
  · exact hF.methodRow_agrees hst .reflected name

/-- A method row that declines was skipped or called a function that
declined. -/
theorem methodRow_declined {order : OperandOrder} {name : String}
    {s s' : RunState V F W}
    (h : rowAttempt m ops tableId (methodRow order name) s = .declined s') :
    s' = s ∨ ∃ f, rowCall m ops order f s = .attempted (.declined s') := by
  rw [rowAttempt, runRow_methodRow] at h
  cases hAttr : m.resolveSpecialMethod s.world (receiver ops order) name with
  | none =>
      rw [hAttr] at h
      exact Or.inl (Attempt.declined.inj h).symm
  | some attr =>
      rw [hAttr] at h
      simp only [rowAttribute] at h
      cases hTarget : m.callTarget attr 2 with
      | error e =>
          rw [hTarget] at h
          cases h
      | ok f =>
          rw [hTarget] at h
          simp only at h
          cases hCall : rowCall m ops order f s with
          | skipped =>
              rw [hCall] at h
              exact Or.inl (Attempt.declined.inj h).symm
          | attempted a =>
              rw [hCall] at h
              exact Or.inr ⟨f, hCall.trans (congrArg _ h)⟩
          | stuck =>
              rw [hCall] at h
              exact Or.inl (Attempt.declined.inj h).symm

/-- A reflected method whose call is skipped is still skipped after the other
operand's method declined. -/
theorem skipped_after_methodRow (hF : Faithful m ops R)
    {s s' : RunState V F W} {normal reflected : String}
    {attr : ClassAttribute F}
    (hFound : m.resolveSpecialMethod s.world ops.operand1 reflected =
      some attr)
    (hSkipped : rowAttribute m ops .reflected attr s = .skipped)
    (hDeclined : rowAttempt m ops tableId (methodRow .normal normal) s =
      .declined s') :
    m.resolveSpecialMethod s'.world ops.operand1 reflected = some attr ∧
      rowAttribute m ops .reflected attr s' = .skipped := by
  rcases methodRow_declined hDeclined with rfl | ⟨g, hCall⟩
  · exact ⟨hFound, hSkipped⟩
  · obtain ⟨f, rfl, hTarget, hCallSkipped⟩ := rowAttribute_skipped hSkipped
    obtain ⟨hStill, hStillSkipped⟩ :=
      hF.skipLasts hFound hCallSkipped hCall
    refine ⟨hStill, ?_⟩
    rw [rowAttribute, hTarget]
    exact hStillSkipped

end Faithful

/-! ## Tables with a priority row -/

/-- The shape of both kinds of table. -/
def priorityTable (normal reflected : String)
    (priority : OperatorStepApplicability) (again last : OperatorStep) :
    List OperatorStep :=
  [ ⟨reflected, .callBinaryReflected, priority, 2⟩
  , methodRow .normal normal
  , last
  , methodRow .normal normal
  , again
  , last ]

section PriorityTable

variable {m : ObjectModel C V F H E W K} {ops : Operands V}
  {tableId : OperatorDispatchTableId}
  {R : RunState V F W → RunState V F W → Prop}

/-- What the rows of a table owe the protocol: the last one is its fallback,
and the second reflected row its second attempt at the reflected method,
which skips what it would have skipped before. -/
structure Serves (m : ObjectModel C V F H E W K) (ops : Operands V)
    (tableId : OperatorDispatchTableId)
    (R : RunState V F W → RunState V F W → Prop)
    (fallback : RunState V F W → Final V E × RunState V F W)
    (tryAgain : RunState V F W → Attempt (RunState V F W) (Final V E))
    (reflected : String) (again last : OperatorStep) : Prop where
  fallback_agrees : ∀ s t, R s t →
    (fallback s).1 = (fallback t).1 ∧ R (fallback s).2 (fallback t).2
  last_falls : ∀ s, runRow m tableId ops last s =
    .attempted (.answered (fallback s).1 (fallback s).2)
  again_elseSkip : again.elseSkip = 0
  again_ne_stuck : ∀ s, runRow m tableId ops again s ≠ .stuck
  again_agrees : ∀ s t, R s t →
    AttemptsAgree R (rowAttempt m ops tableId again s) (tryAgain t)
  again_skips : ∀ s attr,
    m.resolveSpecialMethod s.world ops.operand1 reflected = some attr →
    rowAttribute m ops .reflected attr s = .skipped →
    rowAttempt m ops tableId again s = .declined s

variable {fallback : RunState V F W → Final V E × RunState V F W}
  {tryAgain : RunState V F W → Attempt (RunState V F W) (Final V E)}
  {normal reflected : String} {again last : OperatorStep}

/-- A priority row that does not apply is followed by the last three rows. -/
theorem runRows_priorityTable_skipped {priority : OperatorStepApplicability}
    {s : RunState V F W}
    (h : runRow m tableId ops ⟨reflected, .callBinaryReflected, priority, 2⟩ s =
      .skipped) :
    runRows m tableId ops
        (priorityTable normal reflected priority again last) 0 s =
      runRows m tableId ops [methodRow .normal normal, again, last] 0 s := by
  rw [priorityTable, runRows, h]
  rfl

/-- The rows after the priority row that try the normal method only. -/
theorem runRows_normal (hF : Faithful m ops R)
    (hT : Serves m ops tableId R fallback tryAgain reflected again last)
    (more : List OperatorStep) (s : RunState V F W) :
    runRows m tableId ops (methodRow .normal normal :: last :: more) 0 s =
      some (firstAnswer fallback
        [rowAttempt m ops tableId (methodRow .normal normal)] s) := by
  refine runRows_eq_firstAnswer [methodRow .normal normal] more
    hT.last_falls ?_ s
  intro step hStep
  rw [List.mem_singleton.1 hStep]
  exact ⟨rfl, hF.runRow_methodRow_ne_stuck .normal normal⟩

/-- The rows that try the normal method and then the reflected one. -/
theorem runRows_normal_again (hF : Faithful m ops R)
    (hT : Serves m ops tableId R fallback tryAgain reflected again last)
    (s : RunState V F W) :
    runRows m tableId ops [methodRow .normal normal, again, last] 0 s =
      some (firstAnswer fallback
        [ rowAttempt m ops tableId (methodRow .normal normal)
        , rowAttempt m ops tableId again ] s) := by
  refine runRows_eq_firstAnswer [methodRow .normal normal, again] []
    hT.last_falls ?_ s
  intro step hStep
  rcases List.mem_pair.1 hStep with rfl | rfl
  · exact ⟨rfl, hF.runRow_methodRow_ne_stuck .normal normal⟩
  · exact ⟨hT.again_elseSkip, hT.again_ne_stuck⟩

/-- A run of the rows that ends like a protocol chain, in a related state. -/
def RunsLike (R : RunState V F W → RunState V F W → Prop)
    (run : Option (Final V E × RunState V F W))
    (spec : Final V E × RunState V F W) : Prop :=
  ∃ s', run = some (spec.1, s') ∧ R s' spec.2

omit [DecidableEq V] in
theorem runsLike_some {r spec : Final V E × RunState V F W}
    (h : r.1 = spec.1 ∧ R r.2 spec.2) : RunsLike R (some r) spec :=
  ⟨r.2, by rw [← h.1], h.2⟩

theorem runRows_withoutPriority (hF : Faithful m ops R)
    (hT : Serves m ops tableId R fallback tryAgain reflected again last)
    {priority : OperatorStepApplicability} {s t : RunState V F W}
    (hst : R s t)
    (hNone : m.resolveApplicableOperatorMethod s.world
      ⟨reflected, .callBinaryReflected, priority, 2⟩ ops.operand1 ops = none) :
    RunsLike R
      (runRows m tableId ops
        (priorityTable normal reflected priority again last) 0 s)
      (firstAnswer fallback [tryMethod m ops .normal normal, tryAgain] t) := by
  have hRow := runRow_call m ops tableId .reflected reflected priority 2 s
  rw [callAction, receiver, hNone] at hRow
  rw [runRows_priorityTable_skipped hRow, runRows_normal_again hF hT]
  refine runsLike_some (firstAnswer_agrees hT.fallback_agrees ?_ s t hst)
  exact .cons (fun s t h => hF.methodRow_agrees h .normal normal)
    (.cons hT.again_agrees .nil)

theorem runRows_withPriority (hF : Faithful m ops R)
    (hT : Serves m ops tableId R fallback tryAgain reflected again last)
    {priority : OperatorStepApplicability} {s t : RunState V F W}
    (hst : R s t) {attr : ClassAttribute F}
    (hApplies : m.resolveApplicableOperatorMethod s.world
      ⟨reflected, .callBinaryReflected, priority, 2⟩ ops.operand1 ops =
        some attr)
    (hFound : m.resolveSpecialMethod s.world ops.operand1 reflected =
      some attr) :
    RunsLike R
      (runRows m tableId ops
        (priorityTable normal reflected priority again last) 0 s)
      (firstAnswer fallback
        [ tryMethod m ops .reflected reflected
        , tryMethod m ops .normal normal ] t) := by
  have hRow := runRow_call m ops tableId .reflected reflected priority 2 s
  rw [callAction, receiver, hApplies] at hRow
  have hTry : tryMethod m ops .reflected reflected t =
      callAttribute m ops .reflected attr t := by
    rw [tryMethod, receiver, ← hF.world hst, hFound]
  have hAgree := hF.rowAttribute_agrees hst .reflected attr
  have hNormal : ∀ s t, R s t → RunsLike R
      (some (firstAnswer fallback
        [rowAttempt m ops tableId (methodRow .normal normal)] s))
      (firstAnswer fallback [tryMethod m ops .normal normal] t) := by
    intro s t h
    exact runsLike_some (firstAnswer_agrees hT.fallback_agrees
      (.cons (fun s t h => hF.methodRow_agrees h .normal normal) .nil) s t h)
  rw [← hTry] at hAgree
  cases hCall : rowAttribute m ops .reflected attr s with
  | stuck => exact absurd hCall (hF.rowAttribute_ne_stuck .reflected attr s)
  | attempted a =>
      rw [hCall] at hAgree
      rw [priorityTable, runRows, hRow.trans hCall]
      cases a with
      | declined s' =>
          cases hDeclined : tryMethod m ops .reflected reflected t with
          | answered r t' => cases hDeclined ▸ hAgree
          | declined t' =>
              rw [hDeclined] at hAgree
              rw [firstAnswer_cons_declined hDeclined]
              simp only
              rw [runRows_normal hF hT]
              exact hNormal s' t' hAgree
      | answered r s' =>
          cases hAnswered : tryMethod m ops .reflected reflected t with
          | declined t' => cases hAnswered ▸ hAgree
          | answered r' t' =>
              rw [hAnswered] at hAgree
              rw [firstAnswer_cons_answered hAnswered]
              exact ⟨s', by rw [hAgree.1], hAgree.2⟩
  | skipped =>
      rw [hCall] at hAgree
      cases hDeclined : tryMethod m ops .reflected reflected t with
      | answered r t' => cases hDeclined ▸ hAgree
      | declined t' =>
          rw [hDeclined] at hAgree
          rw [firstAnswer_cons_declined hDeclined]
          -- the rows of the other branch try the skipped method again
          rw [runRows_priorityTable_skipped (hRow.trans hCall),
            runRows_normal_again hF hT]
          have hIdle : ∀ s',
              rowAttempt m ops tableId (methodRow .normal normal) s =
                .declined s' →
              rowAttempt m ops tableId again s' = .declined s' := by
            intro s' hNormalDeclined
            obtain ⟨hStill, hStillSkipped⟩ :=
              hF.skipped_after_methodRow hFound hCall hNormalDeclined
            exact hT.again_skips s' attr hStill hStillSkipped
          rw [firstAnswer_cons_idle hIdle]
          exact hNormal s t' hAgree

end PriorityTable

/-! ## The tables of the binary operators -/

namespace BinaryOperator

def priorityRow : BinaryOperator → OperatorStepApplicability
  | .arithmetic _ => .ifArithmeticReflectedPriority
  | .comparison _ => .ifRichComparisonReflectedPriority

def againRow : BinaryOperator → OperatorStep
  | .arithmetic op => otherTypeRow op.methods.2
  | .comparison op => methodRow .reflected op.methods.2

def lastRow : BinaryOperator → OperatorStep
  | .arithmetic _ => raiseUnsupported
  | .comparison op => op.fallbackStep

theorem operatorDispatchTable_tableId (op : BinaryOperator) :
    operatorDispatchTable op.tableId =
      priorityTable op.methods.1 op.methods.2 (priorityRow op) (againRow op)
        (lastRow op) := by
  cases op with
  | arithmetic op => exact op.operatorDispatchTable_tableId
  | comparison op => exact op.operatorDispatchTable_tableId

end BinaryOperator

section Operators

variable {m : ObjectModel C V F H E W K} {ops : Operands V}
  {R : RunState V F W → RunState V F W → Prop}

theorem runRow_lastRow (op : BinaryOperator) (s : RunState V F W) :
    runRow m op.tableId ops (BinaryOperator.lastRow op) s =
      .attempted (.answered (fallback m ops op s).1
        (fallback m ops op s).2) := by
  cases op with
  | arithmetic op => rfl
  | comparison op => cases op <;> rfl

omit [DecidableEq C] in
theorem fallback_agrees (hF : Faithful m ops R) (op : BinaryOperator)
    {s t : RunState V F W} (hst : R s t) :
    (fallback m ops op s).1 = (fallback m ops op t).1 ∧
      R (fallback m ops op s).2 (fallback m ops op t).2 := by
  cases op with
  | arithmetic op => exact ⟨by simp only [fallback, hF.world hst], hst⟩
  | comparison op => exact ⟨rfl, hst⟩

/-- A reflected row skips what its call skips. -/
theorem rowAttempt_methodRow_skipped {tableId : OperatorDispatchTableId}
    {name : String} {s : RunState V F W} {attr : ClassAttribute F}
    (hFound : m.resolveSpecialMethod s.world ops.operand1 name = some attr)
    (hSkipped : rowAttribute m ops .reflected attr s = .skipped) :
    rowAttempt m ops tableId (methodRow .reflected name) s = .declined s := by
  rw [rowAttempt, runRow_methodRow, receiver, hFound]
  simp only [hSkipped]
  rfl

theorem rowAttempt_otherTypeRow_skipped {tableId : OperatorDispatchTableId}
    {name : String} {s : RunState V F W} {attr : ClassAttribute F}
    (hFound : m.resolveSpecialMethod s.world ops.operand1 name = some attr)
    (hSkipped : rowAttribute m ops .reflected attr s = .skipped) :
    rowAttempt m ops tableId (otherTypeRow name) s = .declined s := by
  rw [rowAttempt, runRow_otherTypeRow]
  split
  · rfl
  · exact rowAttempt_methodRow_skipped hFound hSkipped

theorem serves_operatorDispatchTable (hF : Faithful m ops R)
    (op : BinaryOperator) :
    Serves m ops op.tableId R (fallback m ops op) (tryReflectedLast m ops op)
      op.methods.2 (BinaryOperator.againRow op)
      (BinaryOperator.lastRow op) := by
  refine
    { fallback_agrees := fun s t hst => fallback_agrees hF op hst
      last_falls := runRow_lastRow op
      again_elseSkip := ?_
      again_ne_stuck := ?_
      again_agrees := ?_
      again_skips := ?_ }
  · cases op <;> rfl
  · intro s
    cases op with
    | arithmetic op => exact hF.runRow_otherTypeRow_ne_stuck _ s
    | comparison op => exact hF.runRow_methodRow_ne_stuck .reflected _ s
  · intro s t hst
    cases op with
    | arithmetic op => exact hF.otherTypeRow_agrees hst _
    | comparison op => exact hF.methodRow_agrees hst .reflected _
  · intro s attr hFound hSkipped
    cases op with
    | arithmetic op => exact rowAttempt_otherTypeRow_skipped hFound hSkipped
    | comparison op => exact rowAttempt_methodRow_skipped hFound hSkipped

/-- The step of the priority row. -/
def priorityStep (op : BinaryOperator) : OperatorStep :=
  ⟨op.methods.2, .callBinaryReflected, BinaryOperator.priorityRow op, 2⟩

omit [DecidableEq V] in
theorem resolveApplicable_of_not_priority {op : BinaryOperator} {w : W}
    (h : ¬ HasPriority m ops w op) :
    m.resolveApplicableOperatorMethod w (priorityStep op) ops.operand1 ops =
      none := by
  cases op with
  | arithmetic op => exact resolveReflectedPriority_of_not m ops h
  | comparison op =>
      simp only [priorityStep, BinaryOperator.priorityRow,
        ObjectModel.resolveApplicableOperatorMethod]
      split
      · rfl
      · rename_i hSub
        rw [not_or, not_not] at hSub
        by_contra hFound
        refine h ⟨Ne.symm hSub.1, ?_, Option.isSome_iff_ne_none.2 hFound⟩
        exact hSub.2.resolve_left (Ne.symm hSub.1)

omit [DecidableEq V] in
theorem resolveApplicable_of_priority {op : BinaryOperator} {w : W}
    (h : HasPriority m ops w op) :
    ∃ attr,
      m.resolveApplicableOperatorMethod w (priorityStep op) ops.operand1 ops =
        some attr ∧
      m.resolveSpecialMethod w ops.operand1 op.methods.2 = some attr := by
  cases op with
  | arithmetic op => exact resolveReflectedPriority_of_priority m ops h
  | comparison op =>
      obtain ⟨hDiffer, hBase, hFound⟩ := h
      obtain ⟨attr, hAttr⟩ := Option.isSome_iff_exists.1 hFound
      refine ⟨attr, ?_, hAttr⟩
      simp only [priorityStep, BinaryOperator.priorityRow,
        ObjectModel.resolveApplicableOperatorMethod]
      rw [if_neg]
      · exact hAttr
      · rw [not_or, not_not]
        exact ⟨Ne.symm hDiffer, Or.inr hBase⟩

/-- Rows that do what their methods do make the table of an operator run its
protocol. -/
theorem Faithful.runOperator (hF : Faithful m ops R) (op : BinaryOperator)
    {s t : RunState V F W} (hst : R s t) :
    RunsLike R (m.runOperator op.tableId ops s) (protocol m ops op t) := by
  have hT := serves_operatorDispatchTable hF op
  rw [runOperator_eq_runRows, BinaryOperator.operatorDispatchTable_tableId,
    protocol, protocolInOrder]
  by_cases h : HasPriority m ops t.world op
  · obtain ⟨attr, hApplies, hFound⟩ :=
      resolveApplicable_of_priority (hF.world hst ▸ h)
    rw [decide_eq_true h]
    exact runRows_withPriority hF hT hst hApplies hFound
  · rw [decide_eq_false h]
    exact runRows_withoutPriority hF hT hst
      (resolveApplicable_of_not_priority (hF.world hst ▸ h))

end Operators

end CloverVM.Runtime.OperatorRefinement
