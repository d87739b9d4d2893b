import CloverVM.Runtime.OperatorRefinement

/-!
# Operator dispatch and trusted handlers

Built-in functions may carry a resolver that replaces their call by a handler
or skips it.  An operator run without resolvers makes the calls of the
protocol; with resolvers that report what their functions do, it makes some of
them and ends in the same way.
-/

namespace CloverVM.Runtime.OperatorDispatch

open CloverVM.Machine.Fallback
open CloverVM.Runtime.OperatorTables
open CloverVM.Runtime.OperatorWalk
open CloverVM.Runtime.OperatorProtocol
open CloverVM.Runtime.OperatorRefinement

variable {C V F H E W K : Type}

section Resolvers

/-- The same program with every function called. -/
def untrusted (m : ObjectModel C V F H E W K) : ObjectModel C V F H E W K :=
  { m with trustedHandlerResolver := fun _ => none }

/-- What the resolvers answer for two operands is what the functions do. -/
structure HonestResolvers (m : ObjectModel C V F H E W K) (ops : Operands V) :
    Prop where
  handler : ∀ {w f order h},
    m.resolveTrusted w f ops order .binary = .trustedHandler h →
    m.runHandler h [ops.operand0, ops.operand1] w =
        m.call f (arguments ops order) w ∧
      (m.call f (arguments ops order) w).1 ≠ .notImplemented
  knownNotImplemented : ∀ {w f order},
    m.resolveTrusted w f ops order .binary = .knownNotImplementedSkipMethod →
    m.call f (arguments ops order) w = (.notImplemented, w)
  -- only methods of built-in classes are skipped, and these never change
  immutable : ∀ {w name f},
    m.resolveSpecialMethod w ops.operand1 name = some (.function f) →
    m.resolveTrusted w f ops .reflected .binary =
      .knownNotImplementedSkipMethod →
    ∀ g, let w' := (m.call g (arguments ops .normal) w).2
      m.resolveSpecialMethod w' ops.operand1 name = some (.function f) ∧
        m.resolveTrusted w' f ops .reflected .binary =
          .knownNotImplementedSkipMethod

variable {m : ObjectModel C V F H E W K} {ops : Operands V}

theorem rowCall_untrusted (order : OperandOrder) (f : F)
    (s : RunState V F W) :
    rowCall (untrusted m) ops order f s =
      .attempted (callFunction m ops order f s) := rfl

theorem attemptsAgree_refl (a : Attempt (RunState V F W) (Final V E)) :
    AttemptsAgree Eq a a := by
  cases a with
  | declined s => rfl
  | answered r s => exact ⟨rfl, rfl⟩

/-- Without resolvers a row is its method's call. -/
theorem faithful_untrusted : Faithful (untrusted m) ops Eq := by
  refine
    { world := fun h => h ▸ rfl
      neverStuck := fun _ _ _ => nofun
      call := ?_
      skipLasts := fun _ h => nomatch h }
  intro s t hst order f
  rw [rowCall_untrusted, hst]
  exact attemptsAgree_refl _

/-- The same world, and the calls made among those of the protocol. -/
def SomeCallsElided (s t : RunState V F W) : Prop :=
  s.world = t.world ∧ s.trace.Sublist t.trace

theorem callFunction_eq (order : OperandOrder) (f : F)
    (s : RunState V F W) :
    callFunction m ops order f s =
      outcomeAttempt
        ⟨(m.call f (arguments ops order) s.world).2,
          s.trace ++ [⟨f, arguments ops order⟩]⟩
        (m.call f (arguments ops order) s.world).1 := rfl

theorem outcomeAttempt_agrees {R : RunState V F W → RunState V F W → Prop}
    {s t : RunState V F W} (hst : R s t) (o : Outcome V E) :
    AttemptsAgree R (outcomeAttempt s o) (outcomeAttempt t o) := by
  cases o with
  | value v => exact ⟨rfl, hst⟩
  | notImplemented => exact hst
  | exception e => exact ⟨rfl, hst⟩

theorem callFunction_agrees {s t : RunState V F W}
    (hst : SomeCallsElided s t) (order : OperandOrder) (f : F) :
    AttemptsAgree SomeCallsElided (callFunction m ops order f s)
      (callFunction m ops order f t) := by
  rw [callFunction_eq, callFunction_eq, hst.1]
  exact outcomeAttempt_agrees ⟨rfl, hst.2.append_right _⟩ _

/-- A handler that stands for a call ends it without recording it. -/
theorem handlerCall_agrees {s t : RunState V F W}
    (hst : SomeCallsElided s t) {order : OperandOrder} {f : F} {h : H}
    (hResolved :
      m.resolveTrusted s.world f ops order .binary = .trustedHandler h)
    (hHandler : m.runHandler h [ops.operand0, ops.operand1] s.world =
        m.call f (arguments ops order) s.world ∧
      (m.call f (arguments ops order) s.world).1 ≠ .notImplemented) :
    rowCall m ops order f s ≠ .stuck ∧
      AttemptsAgree SomeCallsElided ((rowCall m ops order f s).attempt s)
        (callFunction m ops order f t) := by
  have hTrace := hst.2.trans
    (List.sublist_append_left t.trace [⟨f, arguments ops order⟩])
  rw [callFunction_eq, ← hst.1]
  simp only [rowCall, hResolved, hHandler.1]
  cases hCall : m.call f (arguments ops order) s.world with
  | mk o w =>
      rw [hCall] at hHandler
      cases o with
      | value v => exact ⟨by rintro ⟨⟩, rfl, rfl, hTrace⟩
      | exception e => exact ⟨by rintro ⟨⟩, rfl, rfl, hTrace⟩
      | notImplemented => exact absurd rfl hHandler.2

theorem HonestResolvers.rowCall_agrees (hm : HonestResolvers m ops)
    {s t : RunState V F W} (hst : SomeCallsElided s t) (order : OperandOrder)
    (f : F) :
    rowCall m ops order f s ≠ .stuck ∧
      AttemptsAgree SomeCallsElided ((rowCall m ops order f s).attempt s)
        (callFunction m ops order f t) := by
  cases hResolved : m.resolveTrusted s.world f ops order .binary with
  | noTrustedHandlerCallUntrusted =>
      simp only [rowCall, hResolved]
      exact ⟨by rintro ⟨⟩, callFunction_agrees hst order f⟩
  | trustedHandler h =>
      exact handlerCall_agrees hst hResolved (hm.handler hResolved)
  | knownNotImplementedSkipMethod =>
      simp only [rowCall, hResolved]
      refine ⟨by rintro ⟨⟩, ?_⟩
      rw [callFunction_eq, ← hst.1, hm.knownNotImplemented hResolved]
      exact ⟨rfl, hst.2.trans (List.sublist_append_left _ _)⟩

theorem rowCall_skipped_iff (order : OperandOrder) (f : F)
    (s : RunState V F W) :
    rowCall m ops order f s = .skipped ↔
      m.resolveTrusted s.world f ops order .binary =
        .knownNotImplementedSkipMethod := by
  rw [rowCall]
  cases m.resolveTrusted s.world f ops order .binary with
  | noTrustedHandlerCallUntrusted => exact ⟨by rintro ⟨⟩, by rintro ⟨⟩⟩
  | knownNotImplementedSkipMethod => exact ⟨fun _ => rfl, fun _ => rfl⟩
  | trustedHandler h =>
      refine ⟨?_, by rintro ⟨⟩⟩
      simp only
      split <;> rintro ⟨⟩

/-- Only a function that was called declines. -/
theorem rowCall_declined {order : OperandOrder} {f : F}
    {s s' : RunState V F W}
    (h : rowCall m ops order f s = .attempted (.declined s')) :
    s'.world = (m.call f (arguments ops order) s.world).2 := by
  rw [rowCall] at h
  cases hResolved : m.resolveTrusted s.world f ops order .binary with
  | knownNotImplementedSkipMethod =>
      rw [hResolved] at h
      cases h
  | trustedHandler handler =>
      rw [hResolved] at h
      simp only at h
      split at h <;> cases h
  | noTrustedHandlerCallUntrusted =>
      rw [hResolved] at h
      have hCall := RowRun.attempted.inj h
      rw [callFunction_eq] at hCall
      cases hOutcome : (m.call f (arguments ops order) s.world).1 with
      | value v =>
          rw [hOutcome] at hCall
          cases hCall
      | exception e =>
          rw [hOutcome] at hCall
          cases hCall
      | notImplemented =>
          rw [hOutcome] at hCall
          rw [← Attempt.declined.inj hCall]

/-- Honest resolvers elide calls and nothing else. -/
theorem HonestResolvers.faithful (hm : HonestResolvers m ops) :
    Faithful m ops SomeCallsElided := by
  refine
    { world := fun h => h.1
      neverStuck := fun order f s =>
        (hm.rowCall_agrees ⟨rfl, List.Sublist.refl s.trace⟩ order f).1
      call := fun hst order f => (hm.rowCall_agrees hst order f).2
      skipLasts := ?_ }
  intro s s' name f g hFound hSkipped hDeclined
  rw [rowCall_skipped_iff] at hSkipped ⊢
  rw [rowCall_declined hDeclined]
  exact hm.immutable hFound hSkipped g

end Resolvers

/-! ## Calls of the protocol -/

section Calls

variable {m : ObjectModel C V F H E W K} {ops : Operands V}

/-- A state reached by calls with these arguments, each at most once and in
this order. -/
def CallsAmong (s s' : RunState V F W) (args : List (List V)) : Prop :=
  ∃ calls, s'.trace = s.trace ++ calls ∧ (calls.map Call.args).Sublist args

theorem CallsAmong.rfl {s : RunState V F W} {args : List (List V)} :
    CallsAmong s s args :=
  ⟨[], (List.append_nil _).symm, List.nil_sublist _⟩

theorem CallsAmong.trans {s s' s'' : RunState V F W}
    {args args' : List (List V)} (h : CallsAmong s s' args)
    (h' : CallsAmong s' s'' args') : CallsAmong s s'' (args ++ args') := by
  obtain ⟨calls, hTrace, hArgs⟩ := h
  obtain ⟨calls', hTrace', hArgs'⟩ := h'
  refine ⟨calls ++ calls', ?_, ?_⟩
  · rw [hTrace', hTrace, List.append_assoc]
  · rw [List.map_append]
    exact hArgs.append hArgs'

theorem outcomeAttempt_state (s : RunState V F W) (o : Outcome V E) :
    (outcomeAttempt s o).state = s := by
  cases o <;> rfl

/-- Trying an operand's method calls it at most once. -/
theorem tryMethod_calls (order : OperandOrder) (name : String)
    (s : RunState V F W) :
    CallsAmong s (tryMethod m ops order name s).state
      [arguments ops order] := by
  rw [tryMethod]
  cases m.resolveSpecialMethod s.world (receiver ops order) name with
  | none => exact CallsAmong.rfl
  | some attr =>
      simp only [callAttribute]
      cases m.callTarget attr 2 with
      | error e => exact CallsAmong.rfl
      | ok f =>
          simp only [callFunction_eq, outcomeAttempt_state]
          exact ⟨[⟨f, arguments ops order⟩], rfl, List.Sublist.refl _⟩

variable [DecidableEq C]

theorem tryReflectedLast_calls (op : BinaryOperator) (s : RunState V F W) :
    CallsAmong s (tryReflectedLast m ops op s).state
      [arguments ops .reflected] := by
  cases op with
  | comparison op => exact tryMethod_calls .reflected op.methods.2 s
  | arithmetic op =>
      simp only [tryReflectedLast, tryReflectedOfOtherType]
      split
      · exact CallsAmong.rfl
      · exact tryMethod_calls .reflected op.methods.2 s

variable [DecidableEq V]

omit [DecidableEq C] in
theorem fallback_state (op : BinaryOperator) (s : RunState V F W) :
    (fallback m ops op s).2 = s := by
  cases op <;> rfl

omit [DecidableEq C] in
/-- Two attempts make their calls and no others. -/
theorem firstAnswer_pair_calls (op : BinaryOperator)
    {x y : RunState V F W → Attempt (RunState V F W) (Final V E)}
    {args args' : List V} (hx : ∀ s, CallsAmong s (x s).state [args])
    (hy : ∀ s, CallsAmong s (y s).state [args']) (s : RunState V F W) :
    CallsAmong s (firstAnswer (fallback m ops op) [x, y] s).2
      [args, args'] := by
  have hFallback : ∀ s, (fallback m ops op s).2 = s := fallback_state op
  rcases firstAnswer_pair_state hFallback x y s with h | h
  · rw [h]
    exact (hx s).trans CallsAmong.rfl
  · rw [h]
    exact (hx s).trans (hy _)

/-- Each operand's method is called at most once. -/
theorem protocol_calls (op : BinaryOperator) (s : RunState V F W) :
    CallsAmong s (protocol m ops op s).2
        [arguments ops .reflected, arguments ops .normal] ∨
      CallsAmong s (protocol m ops op s).2
        [arguments ops .normal, arguments ops .reflected] := by
  rw [protocol, protocolInOrder]
  cases decide (HasPriority m ops s.world op) with
  | true =>
      left
      exact firstAnswer_pair_calls op (tryMethod_calls .reflected _)
        (tryMethod_calls .normal _) s
  | false =>
      right
      exact firstAnswer_pair_calls op (tryMethod_calls .normal _)
        (tryReflectedLast_calls op) s

end Calls

section Operators

variable [DecidableEq C] [DecidableEq V]

/-- Walking an operator's table from its first row and resuming after each
`NotImplemented` runs the protocol: with every function called it makes the
protocol's calls, at most one for each operand, in the protocol's order and
with its result; and resolvers that report what their functions do change
neither the result nor the world, and add no call. -/
theorem runOperator_follows_protocol (m : ObjectModel C V F H E W K)
    (op : BinaryOperator) (ops : Operands V) (s : RunState V F W) :
    (untrusted m).runOperator op.tableId ops s = some (protocol m ops op s) ∧
      (CallsAmong s (protocol m ops op s).2
          [arguments ops .reflected, arguments ops .normal] ∨
        CallsAmong s (protocol m ops op s).2
          [arguments ops .normal, arguments ops .reflected]) ∧
      (HonestResolvers m ops →
        RunsLike SomeCallsElided (m.runOperator op.tableId ops s)
          (protocol m ops op s)) := by
  refine ⟨?_, protocol_calls op s, ?_⟩
  · have hF : Faithful (untrusted m) ops Eq := faithful_untrusted
    obtain ⟨s', hRun, hEq⟩ := hF.runOperator op (Eq.refl s)
    rw [hRun, hEq]
    rfl
  · intro hm
    exact hm.faithful.runOperator op ⟨rfl, List.Sublist.refl _⟩

/-! ## Inherited reflected methods -/

/-- The right operand's class is a proper subclass of the left one's and finds
another implementation of the reflected method. -/
def OverridesReflected [DecidableEq F] (m : ObjectModel C V F H E W K)
    (ops : Operands V) (w : W) (name : String) : Prop :=
  m.classOf w ops.operand1 ≠ m.classOf w ops.operand0 ∧
    m.classOf w ops.operand0 ∈ m.mro w (m.classOf w ops.operand1) ∧
    m.resolveSpecialMethod w ops.operand1 name ≠ none ∧
    m.resolveSpecialMethod w ops.operand1 name ≠
      m.resolveSpecialMethod w ops.operand0 name

instance [DecidableEq F] (m : ObjectModel C V F H E W K) (ops : Operands V)
    (w : W) (name : String) : Decidable (OverridesReflected m ops w name) :=
  inferInstanceAs (Decidable (_ ∧ _))

/-- A binary operator that asks the reflected method first only when it
overrides the left operand's. -/
def overridingProtocol [DecidableEq F] (m : ObjectModel C V F H E W K)
    (ops : Operands V) (op : BinaryOperator) (s : RunState V F W) :
    Final V E × RunState V F W :=
  protocolInOrder m ops
    (decide (OverridesReflected m ops s.world op.methods.2)) op s

end Operators

/-- Class `0` has `__lt__`, `__gt__` and `__add__`; class `1` derives from it,
and class `2` from it and from class `3`, which has `__radd__`.  A value is an
instance of the class it names, and a function returns its own number. -/
def inheritingModel : ObjectModel Nat Nat Nat Nat Unit Unit Unit where
  classOf _ v := v
  mro _ c :=
    match c with
    | 1 => [1, 0]
    | 2 => [2, 0, 3]
    | c => [c]
  presentAttribute _ c name :=
    if c = 0 ∧ name = "__lt__" then some (.function 10)
    else if c = 0 ∧ name = "__gt__" then some (.function 11)
    else if c = 0 ∧ name = "__add__" then some (.function 12)
    else if c = 3 ∧ name = "__radd__" then some (.function 13)
    else none
  shapeKey _ _ := ()
  isTuple _ _ := false
  acceptsPositionalOnlyCallArity _ n := n == 2
  trustedHandlerResolver f :=
    if f = 11 then some fun _ _ _ _ => .trustedHandler 11 else none
  membershipIterFallbackFunction := 0
  membershipSequenceFallbackFunction := 0
  call f _ w := (.value f, w)
  runHandler h _ w := (.value h, w)

/-- An inherited `__gt__` is asked before the left operand's `__lt__`, and a
`__radd__` from a base after the left operand's class is not asked first. -/
theorem not_forall_overridingProtocol :
    (¬ ∀ (m : ObjectModel Nat Nat Nat Nat Unit Unit Unit)
        (op : Comparison) (ops : Operands Nat) (s : RunState Nat Nat Unit),
        (untrusted m).runOperator op.tableId ops s =
          some (overridingProtocol m ops (.comparison op) s)) ∧
      ¬ ∀ (m : ObjectModel Nat Nat Nat Nat Unit Unit Unit)
        (op : ArithmeticOperator) (ops : Operands Nat)
        (s : RunState Nat Nat Unit),
        (untrusted m).runOperator op.tableId ops s =
          some (overridingProtocol m ops (.arithmetic op) s) := by
  constructor
  · intro h
    exact absurd (h inheritingModel .lt ⟨0, 1, 0⟩ ⟨(), []⟩) (by decide)
  · intro h
    exact absurd (h inheritingModel .add ⟨0, 2, 0⟩ ⟨(), []⟩) (by decide)

/-- The resolver of the inherited `__gt__` is honest. -/
theorem honestResolvers_inheritingModel :
    HonestResolvers inheritingModel ⟨0, 1, 0⟩ := by
  have hResolver : ∀ {f handler}, ∀ order,
      inheritingModel.resolveTrusted () f ⟨0, 1, 0⟩ order .binary =
        .trustedHandler handler → f = 11 ∧ handler = 11 := by
    intro f handler order h
    by_cases hf : f = 11
    · subst hf
      exact ⟨rfl, (TrustedResolution.trustedHandler.inj h).symm⟩
    · simp only [ObjectModel.resolveTrusted, inheritingModel, hf, if_false]
        at h
      exact nomatch h
  have hKnown : ∀ f order,
      inheritingModel.resolveTrusted () f ⟨0, 1, 0⟩ order .binary ≠
        .knownNotImplementedSkipMethod := by
    intro f order
    by_cases hf : f = 11
    · subst hf
      exact nofun
    · simp only [ObjectModel.resolveTrusted, inheritingModel, hf, if_false]
      exact nofun
  refine { handler := ?_, knownNotImplemented := ?_, immutable := ?_ }
  · intro w f order h hAnswer
    obtain ⟨rfl, rfl⟩ := hResolver order hAnswer
    exact ⟨rfl, nofun⟩
  · intro w f order hAnswer
    exact absurd hAnswer (hKnown f order)
  · intro w name f _ hAnswer
    exact absurd hAnswer (hKnown f .reflected)

theorem runOperator_inheritingModel :
    RunsLike SomeCallsElided
      (inheritingModel.runOperator .compareLt ⟨0, 1, 0⟩ ⟨(), []⟩)
      (.value 11, ⟨(), [⟨11, [1, 0]⟩]⟩) :=
  (runOperator_follows_protocol inheritingModel (.comparison .lt) ⟨0, 1, 0⟩
    ⟨(), []⟩).2.2 honestResolvers_inheritingModel

end CloverVM.Runtime.OperatorDispatch
