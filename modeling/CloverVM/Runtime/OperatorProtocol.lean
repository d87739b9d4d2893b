import CloverVM.Machine.Fallback
import CloverVM.Runtime.OperatorWalk

/-!
# The operator protocol

What the dispatch tables are for: a binary operator asks its operands'
methods in turn until one answers, and otherwise compares by identity or
raises.  The protocol is stated as a chain of attempts, each looking up one
method when its turn comes.
-/

namespace CloverVM.Runtime.OperatorProtocol

open CloverVM.Machine.Fallback
open CloverVM.Runtime.OperatorTables
open CloverVM.Runtime.OperatorWalk

variable {C V F H E W K : Type} [DecidableEq C] [DecidableEq V]

/-- What a row does, its call included. -/
inductive RowRun (σ ρ : Type) where
  | skipped
  | attempted (a : Attempt σ ρ)
  | stuck

/-- The answer or refusal a method's outcome amounts to. -/
def outcomeAttempt (s : RunState V F W) :
    Outcome V E → Attempt (RunState V F W) (Final V E)
  | .value v => .answered (.value v) s
  | .exception e => .answered (.exception e) s
  | .notImplemented => .declined s

namespace RowRun

variable {σ ρ : Type}

/-- A row that does not apply declines. -/
def attempt (s : σ) : RowRun σ ρ → Attempt σ ρ
  | .skipped => .declined s
  | .attempted a => a
  | .stuck => .declined s

end RowRun

section Rows

variable (m : ObjectModel C V F H E W K) (tableId : OperatorDispatchTableId)
  (ops : Operands V)

/-- Run one row in the current world. -/
def runRow (step : OperatorStep) (s : RunState V F W) :
    RowRun (RunState V F W) (Final V E) :=
  match m.walkRow s.world tableId ops step with
  | .failedApplicability => .skipped
  | .callUntrusted f args =>
      let (outcome, s') := m.callRecorded f args s
      .attempted (outcomeAttempt s' outcome)
  | .callTrusted handler args =>
      match m.runHandler handler args s.world with
      | (.value v, world) =>
          .attempted (.answered (.value v) { s with world := world })
      | (.exception e, world) =>
          .attempted (.answered (.exception e) { s with world := world })
      | (.notImplemented, _) => .stuck
  | .native truth => .attempted (.answered (.truth truth) s)
  | .raise e => .attempted (.answered (.raised e) s)

/-- Run the rows in turn; the next `skip` of them are passed over. -/
def runRows : List OperatorStep → Nat → RunState V F W →
    Option (Final V E × RunState V F W)
  | [], _, _ => none
  | _ :: rest, skip + 1, s => runRows rest skip s
  | step :: rest, 0, s =>
      match runRow m tableId ops step s with
      | .skipped => runRows rest step.elseSkip s
      | .attempted (.declined s') => runRows rest 0 s'
      | .attempted (.answered r s') => some (r, s')
      | .stuck => none

/-- Walking from a row and resuming after each `NotImplemented` runs the rows
from there in turn. -/
theorem dispatchWalkResult_walkRows {rows : List OperatorStep} :
    ∀ {index skip fuel : Nat} {s : RunState V F W},
      (operatorDispatchTable tableId).drop index = rows →
      rows.length ≤ fuel →
      m.dispatchWalkResult (m.runFrom tableId ops fuel) s
          (m.walkRows s.world tableId ops rows skip index) =
        runRows m tableId ops rows skip s := by
  induction rows with
  | nil =>
      intro index skip fuel s _ _
      rfl
  | cons step rest ih =>
      intro index skip fuel s hRows hFuel
      have hRest : (operatorDispatchTable tableId).drop (index + 1) = rest := by
        rw [← List.drop_drop, hRows]
        rfl
      have hLength : rest.length + 1 ≤ fuel := hFuel
      cases skip with
      | succ skip => exact ih hRest (by omega)
      | zero =>
          rw [ObjectModel.walkRows, runRows, runRow]
          cases hRow : m.walkRow s.world tableId ops step with
          | failedApplicability => exact ih hRest (by omega)
          | native truth => rfl
          | raise e => rfl
          | callTrusted handler args =>
              simp only [ObjectModel.dispatchWalkResult]
              rcases m.runHandler handler args s.world with
                ⟨_ | _ | _, world⟩ <;> rfl
          | callUntrusted f args =>
              simp only [ObjectModel.dispatchWalkResult]
              rcases m.callRecorded f args s with ⟨outcome, s'⟩
              cases outcome with
              | value v => rfl
              | exception e => rfl
              | notImplemented =>
                  -- the resumed walk has one row fewer and needs one call less
                  obtain ⟨fuel, rfl⟩ : ∃ n, fuel = n + 1 :=
                    ⟨fuel - 1, by omega⟩
                  simp only [ObjectModel.runFrom,
                    ObjectModel.walkOperatorTable, hRest, outcomeAttempt]
                  exact ih hRest (by omega)

theorem runOperator_eq_runRows (s : RunState V F W) :
    m.runOperator tableId ops s =
      runRows m tableId ops (operatorDispatchTable tableId) 0 s := by
  rw [ObjectModel.runOperator, ObjectModel.runFrom,
    ObjectModel.walkOperatorTable]
  exact dispatchWalkResult_walkRows m tableId ops rfl (Nat.le_refl _)

/-- A row that skips no further rows hands on to the next one when it does
not apply, just as when its call declines. -/
theorem runRows_cons {step : OperatorStep} {rest : List OperatorStep}
    {s : RunState V F W} (hSkip : step.elseSkip = 0)
    (hStuck : runRow m tableId ops step s ≠ .stuck) :
    runRows m tableId ops (step :: rest) 0 s =
      match (runRow m tableId ops step s).attempt s with
      | .declined s' => runRows m tableId ops rest 0 s'
      | .answered r s' => some (r, s') := by
  rw [runRows, hSkip]
  cases hRow : runRow m tableId ops step s with
  | skipped => rfl
  | attempted a => cases a <;> rfl
  | stuck => exact absurd hRow hStuck

end Rows

/-! ## The operators -/

inductive ArithmeticOperator where
  | add | sub | mul | matMul | pow | trueDiv | floorDiv | mod | lShift
  | rShift | and | xor | or
deriving DecidableEq, Repr

inductive Comparison where
  | eq | ne | lt | le | gt | ge
deriving DecidableEq, Repr

/-- A binary operator with a reflected method. -/
inductive BinaryOperator where
  | arithmetic (op : ArithmeticOperator)
  | comparison (op : Comparison)
deriving DecidableEq, Repr

namespace ArithmeticOperator

def tableId : ArithmeticOperator → OperatorDispatchTableId
  | .add => .add
  | .sub => .sub
  | .mul => .mul
  | .matMul => .matMul
  | .pow => .binaryPow
  | .trueDiv => .trueDiv
  | .floorDiv => .floorDiv
  | .mod => .mod
  | .lShift => .lShift
  | .rShift => .rShift
  | .and => .and
  | .xor => .xor
  | .or => .or

/-- The method of the left operand and the reflected one of the right. -/
def methods : ArithmeticOperator → String × String
  | .add => ("__add__", "__radd__")
  | .sub => ("__sub__", "__rsub__")
  | .mul => ("__mul__", "__rmul__")
  | .matMul => ("__matmul__", "__rmatmul__")
  | .pow => ("__pow__", "__rpow__")
  | .trueDiv => ("__truediv__", "__rtruediv__")
  | .floorDiv => ("__floordiv__", "__rfloordiv__")
  | .mod => ("__mod__", "__rmod__")
  | .lShift => ("__lshift__", "__rlshift__")
  | .rShift => ("__rshift__", "__rrshift__")
  | .and => ("__and__", "__rand__")
  | .xor => ("__xor__", "__rxor__")
  | .or => ("__or__", "__ror__")

theorem operatorDispatchTable_tableId (op : ArithmeticOperator) :
    operatorDispatchTable op.tableId =
      binaryArithmeticOperatorTable op.methods.1 op.methods.2 := by
  cases op <;> rfl

end ArithmeticOperator

namespace Comparison

def tableId : Comparison → OperatorDispatchTableId
  | .eq => .compareEq
  | .ne => .compareNe
  | .lt => .compareLt
  | .le => .compareLe
  | .gt => .compareGt
  | .ge => .compareGe

/-- Each comparison is reflected by its converse. -/
def methods : Comparison → String × String
  | .eq => ("__eq__", "__eq__")
  | .ne => ("__ne__", "__ne__")
  | .lt => ("__lt__", "__gt__")
  | .le => ("__le__", "__ge__")
  | .gt => ("__gt__", "__lt__")
  | .ge => ("__ge__", "__le__")

/-- The answer when no method gives one: equality falls back to identity,
and there is no ordering to fall back to. -/
def fallback (ops : Operands V) : Comparison → Final V E
  | .eq => .truth (decide (ops.operand0 = ops.operand1))
  | .ne => .truth (decide (ops.operand0 ≠ ops.operand1))
  | _ => .raised ⟨"TypeError", "unsupported operand type(s) for comparison"⟩

/-- The table row of the fallback. -/
def fallbackStep : Comparison → OperatorStep
  | .eq => identityEq
  | .ne => identityNe
  | _ => raiseOrdering

theorem operatorDispatchTable_tableId (op : Comparison) :
    operatorDispatchTable op.tableId =
      richCompareTable op.methods.1 op.methods.2 op.fallbackStep := by
  cases op <;> rfl

end Comparison

namespace BinaryOperator

def tableId : BinaryOperator → OperatorDispatchTableId
  | .arithmetic op => op.tableId
  | .comparison op => op.tableId

def methods : BinaryOperator → String × String
  | .arithmetic op => op.methods
  | .comparison op => op.methods

end BinaryOperator

/-! ## The protocol -/

section Protocol

variable (m : ObjectModel C V F H E W K) (ops : Operands V)

def receiver : OperandOrder → V
  | .normal => ops.operand0
  | .reflected => ops.operand1

/-- The receiver and the other operand. -/
def arguments : OperandOrder → List V
  | .normal => [ops.operand0, ops.operand1]
  | .reflected => [ops.operand1, ops.operand0]

/-- Call a function that was found, and take `NotImplemented` for a
refusal. -/
def callFunction (order : OperandOrder) (f : F) (s : RunState V F W) :
    Attempt (RunState V F W) (Final V E) :=
  let (outcome, s') := m.callRecorded f (arguments ops order) s
  outcomeAttempt s' outcome

/-- Call an attribute that was found; one that is no function of the right
arity is an error of its own. -/
def callAttribute (order : OperandOrder) (attr : ClassAttribute F)
    (s : RunState V F W) : Attempt (RunState V F W) (Final V E) :=
  match m.callTarget attr 2 with
  | .error e => .answered (.raised e) s
  | .ok f => callFunction m ops order f s

/-- Look the method up on the receiver's class and call it. -/
def tryMethod (order : OperandOrder) (name : String) (s : RunState V F W) :
    Attempt (RunState V F W) (Final V E) :=
  match m.resolveSpecialMethod s.world (receiver ops order) name with
  | none => .declined s
  | some attr => callAttribute m ops order attr s

/-- Try the reflected method of an operand of another type. -/
def tryReflectedOfOtherType (name : String) (s : RunState V F W) :
    Attempt (RunState V F W) (Final V E) :=
  if m.classOf s.world ops.operand0 = m.classOf s.world ops.operand1 then
    .declined s
  else tryMethod m ops .reflected name s

/-- The right operand's class is a proper subclass of the left one's, and a
class before the left one's in its MRO defines the reflected method. -/
def HasArithmeticPriority (w : W) (name : String) : Prop :=
  m.classOf w ops.operand1 ≠ m.classOf w ops.operand0 ∧
    m.classOf w ops.operand0 ∈ m.mro w (m.classOf w ops.operand1) ∧
    ∃ c ∈ (m.mro w (m.classOf w ops.operand1)).takeWhile
        (· ≠ m.classOf w ops.operand0),
      (m.presentAttribute w c name).isSome = true

instance (w : W) (name : String) :
    Decidable (HasArithmeticPriority m ops w name) :=
  inferInstanceAs (Decidable (_ ∧ _))

/-- The right operand's class is a proper subclass of the left one's and has
the reflected method, inherited or not. -/
def HasComparisonPriority (w : W) (name : String) : Prop :=
  m.classOf w ops.operand1 ≠ m.classOf w ops.operand0 ∧
    m.classOf w ops.operand0 ∈ m.mro w (m.classOf w ops.operand1) ∧
    (m.resolveSpecialMethod w ops.operand1 name).isSome = true

instance (w : W) (name : String) :
    Decidable (HasComparisonPriority m ops w name) :=
  inferInstanceAs (Decidable (_ ∧ _))

/-- The right operand's reflected method comes first. -/
def HasPriority (w : W) : BinaryOperator → Prop
  | .arithmetic op => HasArithmeticPriority m ops w op.methods.2
  | .comparison op => HasComparisonPriority m ops w op.methods.2

instance (w : W) (op : BinaryOperator) : Decidable (HasPriority m ops w op) :=
  match op with
  | .arithmetic op =>
      inferInstanceAs (Decidable (HasArithmeticPriority m ops w op.methods.2))
  | .comparison op =>
      inferInstanceAs (Decidable (HasComparisonPriority m ops w op.methods.2))

/-- The reflected method after the normal one: arithmetic does not ask an
operand of the same type again, comparison does. -/
def tryReflectedLast : BinaryOperator → RunState V F W →
    Attempt (RunState V F W) (Final V E)
  | .arithmetic op => tryReflectedOfOtherType m ops op.methods.2
  | .comparison op => tryMethod m ops .reflected op.methods.2

/-- The end of an operator that no method answers. -/
def fallback (op : BinaryOperator) (s : RunState V F W) :
    Final V E × RunState V F W :=
  match op with
  | .arithmetic op =>
      (.raised (m.raiseUnsupportedError s.world op.tableId ops.operand0), s)
  | .comparison op => (op.fallback ops, s)

/-- A binary operator that asks the reflected method first or last. -/
def protocolInOrder (reflectedFirst : Bool) (op : BinaryOperator) :
    RunState V F W → Final V E × RunState V F W :=
  firstAnswer (fallback m ops op)
    (if reflectedFirst then
      [ tryMethod m ops .reflected op.methods.2
      , tryMethod m ops .normal op.methods.1 ]
    else
      [ tryMethod m ops .normal op.methods.1
      , tryReflectedLast m ops op ])

/-- A binary operator: both methods in the order the priority gives, then the
fallback. -/
def protocol (op : BinaryOperator) (s : RunState V F W) :
    Final V E × RunState V F W :=
  protocolInOrder m ops (decide (HasPriority m ops s.world op)) op s

end Protocol

/-! ## Rows as attempts -/

section CallRows

variable (m : ObjectModel C V F H E W K) (ops : Operands V)

/-- What a call row does once it has found its function: call it, run the
trusted handler that replaces it, or skip it. -/
def rowCall (order : OperandOrder) (f : F) (s : RunState V F W) :
    RowRun (RunState V F W) (Final V E) :=
  match m.resolveTrusted s.world f ops order .binary with
  | .noTrustedHandlerCallUntrusted =>
      .attempted (callFunction m ops order f s)
  | .trustedHandler handler =>
      match m.runHandler handler [ops.operand0, ops.operand1] s.world with
      | (.value v, world) =>
          .attempted (.answered (.value v) { s with world := world })
      | (.exception e, world) =>
          .attempted (.answered (.exception e) { s with world := world })
      | (.notImplemented, _) => .stuck
  | .knownNotImplementedSkipMethod => .skipped

/-- What a call row does with the attribute it has found. -/
def rowAttribute (order : OperandOrder) (attr : ClassAttribute F)
    (s : RunState V F W) : RowRun (RunState V F W) (Final V E) :=
  match m.callTarget attr 2 with
  | .error e => .attempted (.answered (.raised e) s)
  | .ok f => rowCall m ops order f s

/-- The action of a binary call row. -/
def callAction : OperandOrder → OperatorStepAction
  | .normal => .callBinary
  | .reflected => .callBinaryReflected

theorem runRow_call (tableId : OperatorDispatchTableId) (order : OperandOrder)
    (name : String) (applicability : OperatorStepApplicability)
    (elseSkip : Nat) (s : RunState V F W) :
    runRow m tableId ops ⟨name, callAction order, applicability, elseSkip⟩ s =
      match m.resolveApplicableOperatorMethod s.world
          ⟨name, callAction order, applicability, elseSkip⟩
          (receiver ops order) ops with
      | none => .skipped
      | some attr => rowAttribute m ops order attr s := by
  cases order with
  | normal =>
      simp only [runRow, ObjectModel.walkRow, ObjectModel.walkCallRow,
        callAction, OperatorStepAction.isReflected, Bool.false_eq_true,
        if_false, receiver, ObjectModel.callArguments, List.length_cons,
        List.length_nil]
      cases m.resolveApplicableOperatorMethod s.world
        ⟨name, .callBinary, applicability, elseSkip⟩ ops.operand0 ops with
      | none => rfl
      | some attr =>
          simp only [rowAttribute]
          cases m.callTarget attr 2 with
          | error e => rfl
          | ok f =>
              simp only [rowCall]
              cases m.resolveTrusted s.world f ops .normal .binary <;> rfl
  | reflected =>
      simp only [runRow, ObjectModel.walkRow, ObjectModel.walkCallRow,
        callAction, OperatorStepAction.isReflected, if_true, receiver,
        ObjectModel.callArguments, List.length_cons, List.length_nil]
      cases m.resolveApplicableOperatorMethod s.world
        ⟨name, .callBinaryReflected, applicability, elseSkip⟩ ops.operand1
        ops with
      | none => rfl
      | some attr =>
          simp only [rowAttribute]
          cases m.callTarget attr 2 with
          | error e => rfl
          | ok f =>
              simp only [rowCall]
              cases m.resolveTrusted s.world f ops .reflected .binary <;> rfl

omit [DecidableEq V] in
/-- The lookup of a reflected method with priority finds what the whole MRO
does. -/
theorem lookupChain_takeWhile {w : W} {mro : List C} {stop : C}
    {name : String} {attr : ClassAttribute F}
    (h : m.lookupChain w (mro.takeWhile (· ≠ stop)) name = some attr) :
    m.lookupChain w mro name = some attr := by
  rw [ObjectModel.lookupChain] at h ⊢
  rw [← List.takeWhile_append_dropWhile (p := (· ≠ stop)) (l := mro),
    List.findSome?_append, h]
  rfl

omit [DecidableEq V] in
theorem resolveReflectedPriority_of_not {w : W} {name : String}
    (h : ¬ HasArithmeticPriority m ops w name) :
    m.resolveReflectedPrioritySpecialMethod w ops.operand1 ops.operand0 name =
      none := by
  simp only [ObjectModel.resolveReflectedPrioritySpecialMethod]
  split
  · rfl
  · rename_i hDiffer
    split
    · rename_i hBase
      rw [ObjectModel.lookupChain, List.findSome?_eq_none_iff]
      intro c hc
      by_contra hPresent
      exact h ⟨hDiffer, hBase, c, hc, Option.isSome_iff_ne_none.2 hPresent⟩
    · rfl

omit [DecidableEq V] in
theorem resolveReflectedPriority_of_priority {w : W} {name : String}
    (h : HasArithmeticPriority m ops w name) :
    ∃ attr,
      m.resolveReflectedPrioritySpecialMethod w ops.operand1 ops.operand0
        name = some attr ∧
      m.resolveSpecialMethod w ops.operand1 name = some attr := by
  obtain ⟨hDiffer, hBase, c, hc, hPresent⟩ := h
  have hFound :
      (m.lookupChain w ((m.mro w (m.classOf w ops.operand1)).takeWhile
        (· ≠ m.classOf w ops.operand0)) name).isSome = true := by
    rw [ObjectModel.lookupChain, List.findSome?_isSome_iff]
    exact ⟨c, hc, hPresent⟩
  obtain ⟨attr, hAttr⟩ := Option.isSome_iff_exists.1 hFound
  refine ⟨attr, ?_, lookupChain_takeWhile m hAttr⟩
  simp only [ObjectModel.resolveReflectedPrioritySpecialMethod,
    if_neg hDiffer, if_pos hBase]
  exact hAttr

end CallRows

end CloverVM.Runtime.OperatorProtocol
