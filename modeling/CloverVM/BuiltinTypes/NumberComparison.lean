import CloverVM.BuiltinTypes.NumberOperators
import CloverVM.Runtime.OperatorRefinement

/-!
# Integers and floats together

With doubles that round to the nearest, a comparison of a small integer and a
float compares the double nearest to the integer.  It is the comparison of the
numbers themselves unless the integer rounds to the float and is not equal to
it.  An integer object has no comparison with a float and no true division.
-/

namespace CloverVM.BuiltinTypes.NumberComparison

open CloverVM.Machine CloverVM.Machine.FloatFormat CloverVM.ObjectModel
open CloverVM.Runtime CloverVM.BuiltinTypes.BigInt
open CloverVM.Runtime.OperatorTables CloverVM.Runtime.OperatorWalk
open CloverVM.Runtime.OperatorProtocol CloverVM.Runtime.OperatorRefinement
open CloverVM.BuiltinTypes.NumberOperators

section Numbers

variable {δ : Type} (machine : DoubleMachine δ) (finite : δ → Option ℚ)
  (heap : Heap δ)

/-- The conversion and the division round to the nearest double, and the
comparisons are exact; `finite` is the number of a finite double. -/
structure RoundsToNearest : Prop where
  representable : ∀ {x q}, finite x = some q → binary64.Representable q
  zero : finite machine.zero = some 0
  ofInt64 : ∀ word,
    finite (machine.ofInt64 word) = some (binary64.round word.toInt)
  compare : ∀ {x y p q}, finite x = some p → finite y = some q →
    ∀ op, machine.compare op x y = holds p q op
  divide : ∀ {x y p q}, finite x = some p → finite y = some q → q ≠ 0 →
    |binary64.round (p / q)| < 2 ^ 1024 →
    finite (machine.divide x y) = some (binary64.round (p / q))

/-- An `int` is a small integer, or an object of an integer that is none. -/
inductive HoldsInt : Reference → Int → Prop
  | smi {word : Value} (hSmi : word.isSmi = true) :
      HoldsInt (.inline word) word.smi
  | bigInt {address : Nat} {view : ConstBigIntView}
      (hAt : heap[address]? = some (.bigInt view)) (hView : Normalized view)
      (hLarge : ¬ SmiRange view.toInt) :
      HoldsInt (.pointer address) view.toInt

/-- A finite `float`. -/
inductive HoldsFloat : Reference → ℚ → Prop
  | float {address : Nat} {value : δ} {q : ℚ}
      (hAt : heap[address]? = some (.float value))
      (hFinite : finite value = some q) :
      HoldsFloat (.pointer address) q

variable {heap}

theorem HoldsInt.classOf {r : Reference} {n : Int} (h : HoldsInt heap r n) :
    classOf heap r = .intClass := by
  cases h with
  | smi hSmi => simp only [NumberOperators.classOf, hSmi, if_true]
  | bigInt hAt _ _ => simp only [NumberOperators.classOf, hAt]

theorem tryGetSmiOrBool_smi {word : Value} (hSmi : word.isSmi = true) :
    isSmiOrBoolValue word = true ∧
      tryGetSmiOrBool (.inline word) = some word.getSmi := by
  have hRead := smiOrBoolAsInt_spec (.smi hSmi)
  have hKind : isSmiOrBoolValue word = true := by
    by_contra hNot
    rw [smiOrBoolAsInt, check_bind_of_not hNot] at hRead
    cases hRead
  refine ⟨hKind, ?_⟩
  rw [tryGetSmiOrBool, if_pos hKind, hRead, ← getSmi_ofInt (smiRange_smi word),
    ofInt_smi hSmi]

end Numbers

/-! ## Walking the tables -/

section Walk

variable {δ : Type} {machine : DoubleMachine δ} {heap : Heap δ}
  {left right : Reference}

/-- The operation of the class `float` for a comparison. -/
def comparisonFunction : Comparison → FloatFunction
  | .eq => .equal
  | .ne => .notEqual
  | .lt => .less
  | .le => .lessEqual
  | .gt => .greater
  | .ge => .greaterEqual

/-- The comparison with its sides exchanged. -/
def converse : Comparison → Comparison
  | .eq => .eq
  | .ne => .ne
  | .lt => .gt
  | .le => .ge
  | .gt => .lt
  | .ge => .le

theorem run_comparisonFunction (op : Comparison) (x y : δ) :
    (comparisonFunction op).run machine x y =
      .ok (.truth (machine.compare op x y)) := by
  cases op <;> rfl

theorem reflected_comparisonFunction (op : Comparison) :
    (comparisonFunction (converse op)).reflected = comparisonFunction op := by
  cases op <;> rfl

/-- The method of a class for a comparison. -/
def comparisonMethod (cls : NumberClass) (op : Comparison) : Method :=
  if cls = .floatClass then .floatOperation (comparisonFunction op)
  else .intCompare op

/-- The classes of numbers. -/
def IsNumberClass (cls : NumberClass) : Prop :=
  cls = .intClass ∨ cls = .floatClass

theorem resolveSpecialMethod_comparison
    (h : IsNumberClass (classOf heap left)) (op : Comparison) :
    (numberModel machine).resolveSpecialMethod heap left op.methods.1 =
        some (.function (comparisonMethod (classOf heap left) op)) ∧
      (numberModel machine).resolveSpecialMethod heap left op.methods.2 =
        some (.function
          (comparisonMethod (classOf heap left) (converse op))) := by
  have hClass : (numberModel machine).classOf heap left = classOf heap left :=
    rfl
  simp only [ObjectModel.resolveSpecialMethod, hClass]
  rcases h with h | h <;> rw [h] <;> cases op <;> exact ⟨rfl, rfl⟩

/-- A method that was found is called, or a handler runs in its place. -/
theorem runRow_method {tableId : OperatorDispatchTableId}
    {order : OperandOrder} {name : String} {method : Method}
    {s : RunState Reference Method (Heap δ)}
    (hMethod : (numberModel machine).resolveSpecialMethod s.world
      (receiver (operands left right) order) name =
        some (.function method)) :
    runRow (numberModel machine) tableId (operands left right)
        (methodRow order name) s =
      rowCall (numberModel machine) (operands left right) order method s := by
  rw [runRow_methodRow, hMethod]
  rfl

/-- Neither class of numbers derives from the other. -/
theorem runOperator_comparison (hLeft : IsNumberClass (classOf heap left))
    (hRight : IsNumberClass (classOf heap right)) (op : Comparison) :
    (numberModel machine).runOperator op.tableId (operands left right)
        ⟨heap, []⟩ =
      runRows (numberModel machine) op.tableId (operands left right)
        [ methodRow .normal op.methods.1
        , methodRow .reflected op.methods.2
        , op.fallbackStep ] 0 ⟨heap, []⟩ := by
  have hPriority : (numberModel machine).resolveApplicableOperatorMethod heap
      ⟨op.methods.2, .callBinaryReflected,
        .ifRichComparisonReflectedPriority, 2⟩ right (operands left right) =
      none := by
    have hClasses :
        (numberModel machine).classOf heap left = classOf heap left ∧
        (numberModel machine).classOf heap right = classOf heap right :=
      ⟨rfl, rfl⟩
    simp only [ObjectModel.resolveApplicableOperatorMethod, operands,
      hClasses, ObjectModel.isSubclassOf]
    rcases hLeft with h | h <;> rcases hRight with h' | h' <;>
      rw [h, h', if_pos (by simp [numberModel])]
  have hRow : runRow (numberModel machine) op.tableId (operands left right)
      ⟨op.methods.2, .callBinaryReflected,
        .ifRichComparisonReflectedPriority, 2⟩ ⟨heap, []⟩ = .skipped := by
    have hCall := runRow_call (numberModel machine) (operands left right)
      op.tableId .reflected op.methods.2 .ifRichComparisonReflectedPriority 2
      ⟨heap, []⟩
    simp only [callAction, receiver] at hCall
    rw [hCall]
    simp only [operands] at hPriority ⊢
    rw [hPriority]
  rw [runOperator_eq_runRows, op.operatorDispatchTable_tableId,
    richCompareTable, callBinaryReflected, runRows, hRow]
  rfl

/-- A method that is declined hands on to the next row. -/
theorem runRows_declined {tableId : OperatorDispatchTableId}
    {order : OperandOrder} {name : String} {rest : List OperatorStep}
    {method : Method} {s s' : RunState Reference Method (Heap δ)}
    (hMethod : (numberModel machine).resolveSpecialMethod s.world
      (receiver (operands left right) order) name = some (.function method))
    (hCall : rowCall (numberModel machine) (operands left right) order method
      s = .attempted (.declined s')) :
    runRows (numberModel machine) tableId (operands left right)
        (methodRow order name :: rest) 0 s =
      runRows (numberModel machine) tableId (operands left right) rest 0
        s' := by
  rw [runRows, runRow_method hMethod, hCall]

/-- A method that answers ends the operator. -/
theorem runRows_answered {tableId : OperatorDispatchTableId}
    {order : OperandOrder} {name : String} {rest : List OperatorStep}
    {method : Method} {s s' : RunState Reference Method (Heap δ)}
    {final : Final Reference Failure}
    (hMethod : (numberModel machine).resolveSpecialMethod s.world
      (receiver (operands left right) order) name = some (.function method))
    (hCall : rowCall (numberModel machine) (operands left right) order method
      s = .attempted (.answered final s')) :
    runRows (numberModel machine) tableId (operands left right)
        (methodRow order name :: rest) 0 s = some (final, s') := by
  rw [runRows, runRow_method hMethod, hCall]

/-- The method of the left operand answers a comparison. -/
theorem runOperator_answered (hLeft : IsNumberClass (classOf heap left))
    (hRight : IsNumberClass (classOf heap right)) {op : Comparison}
    {final : Final Reference Failure}
    {s : RunState Reference Method (Heap δ)}
    (hCall : rowCall (numberModel machine) (operands left right) .normal
      (comparisonMethod (classOf heap left) op) ⟨heap, []⟩ =
        .attempted (.answered final s)) :
    (numberModel machine).runOperator op.tableId (operands left right)
      ⟨heap, []⟩ = some (final, s) := by
  rw [runOperator_comparison hLeft hRight]
  exact runRows_answered (resolveSpecialMethod_comparison hLeft op).1 hCall

/-- The method of the left operand declines, and the one of the right operand
is asked. -/
theorem runOperator_reflected (hLeft : IsNumberClass (classOf heap left))
    (hRight : IsNumberClass (classOf heap right)) {op : Comparison}
    {trace : List (Call Reference Method)}
    (hCall : rowCall (numberModel machine) (operands left right) .normal
      (comparisonMethod (classOf heap left) op) ⟨heap, []⟩ =
        .attempted (.declined ⟨heap, trace⟩)) :
    (numberModel machine).runOperator op.tableId (operands left right)
        ⟨heap, []⟩ =
      runRows (numberModel machine) op.tableId (operands left right)
        [methodRow .reflected op.methods.2, op.fallbackStep] 0
        ⟨heap, trace⟩ := by
  rw [runOperator_comparison hLeft hRight]
  exact runRows_declined (resolveSpecialMethod_comparison hLeft op).1 hCall

/-- A method without a handler that returns `NotImplemented`. -/
theorem rowCall_declined {order : OperandOrder} {method : Method}
    {trace : List (Call Reference Method)}
    (hResolve : (numberModel machine).resolveTrusted heap method
      (operands left right) order .binary = .noTrustedHandlerCallUntrusted)
    (hCall : callMethod machine method
      (arguments (operands left right) order) heap =
        (.notImplemented, heap)) :
    rowCall (numberModel machine) (operands left right) order method
        ⟨heap, trace⟩ =
      .attempted (.declined ⟨heap, trace ++
        [⟨method, arguments (operands left right) order⟩]⟩) := by
  rw [rowCall, hResolve]
  simp only [callFunction, ObjectModel.callRecorded, numberModel, hCall,
    outcomeAttempt]

/-- A handler that runs in place of a method. -/
theorem rowCall_trusted {order : OperandOrder} {method : Method}
    {handler : Handler} {heap' : Heap δ} {v : Reference}
    {trace : List (Call Reference Method)}
    (hResolve : (numberModel machine).resolveTrusted heap method
      (operands left right) order .binary = .trustedHandler handler)
    (hRun : callHandler machine handler [left, right] heap =
      (.value v, heap')) :
    rowCall (numberModel machine) (operands left right) order method
        ⟨heap, trace⟩ =
      .attempted (.answered (.value v) ⟨heap', trace⟩) := by
  rw [rowCall, hResolve]
  simp only [operands, numberModel, hRun]

end Walk

/-! ## Small integers, integer objects and floats -/

section Kinds

variable {δ : Type} {machine : DoubleMachine δ} {finite : δ → Option ℚ}
  {heap : Heap δ} {word : Value} {a b : Nat} {view : ConstBigIntView}
  {x y : δ}

theorem classOf_smi (h : word.isSmi = true) :
    classOf heap (.inline word) = .intClass := by
  rw [classOf, if_pos h]

theorem classOf_bigInt (h : heap[a]? = some (.bigInt view)) :
    classOf heap (.pointer a) = .intClass := by
  rw [classOf, h]

theorem classOf_float (h : heap[a]? = some (.float x)) :
    classOf heap (.pointer a) = .floatClass := by
  rw [classOf, h]

theorem keyOf_smi (h : word.isSmi = true) :
    keyOf heap (.inline word) = .smi := by
  rw [keyOf, if_pos h]

theorem keyOf_bigInt (h : heap[a]? = some (.bigInt view)) :
    keyOf heap (.pointer a) = .bigInt := by
  rw [keyOf, h]

theorem keyOf_float (h : heap[a]? = some (.float x)) :
    keyOf heap (.pointer a) = .float := by
  rw [keyOf, h]

theorem asFloat_float (h : heap[a]? = some (.float x)) :
    asFloat heap (.pointer a) = some x := by
  rw [asFloat, h]

theorem smiOrBoolAsDouble_smi (h : word.isSmi = true) :
    smiOrBoolAsDouble machine (.inline word) =
      some (machine.ofInt64 word.getSmi) := by
  rw [smiOrBoolAsDouble, (tryGetSmiOrBool_smi h).2]
  rfl

/-- The class `int` declines a float. -/
theorem nativeIntCompareOperator_float {r : Reference} {n : Int}
    (hInt : HoldsInt heap r n) (hFloat : heap[a]? = some (.float x))
    (op : Comparison) :
    nativeIntCompareOperator heap op r (.pointer a) =
      (.notImplemented, heap) := by
  have hSelf : isIntlikeValue heap r = true := by
    cases hInt with
    | smi hSmi =>
        rw [isIntlikeValue, isSmiOrBool, (tryGetSmiOrBool_smi hSmi).1]
        rfl
    | bigInt hAt _ _ =>
        rw [isIntlikeValue, asBigInt, hAt]
        rfl
  have hOther : isIntlikeValue heap (.pointer a) = false := by
    rw [isIntlikeValue, asBigInt, hFloat]
    rfl
  rw [nativeIntCompareOperator, hSelf, hOther]
  rfl

/-- The class `float` declines an integer object. -/
theorem floatNative_bigInt (hFloat : heap[a]? = some (.float x))
    (hAt : heap[b]? = some (.bigInt view)) (function : FloatFunction) :
    floatNative machine heap function (.pointer a) (.pointer b) =
      (.notImplemented, heap) := by
  have hOther : tryGetFloatOrSmiOrBool machine heap (.pointer b) = none := by
    rw [tryGetFloatOrSmiOrBool, isSmiOrBool, asFloat, hAt]
    rfl
  rw [floatNative, asFloat_float hFloat]
  simp only [hOther]

/-- The handlers give the comparison of the two doubles. -/
theorem callHandler_comparison {left right : Reference}
    {adaptation : FloatBinaryAdaptation} {l r : δ} (op : Comparison)
    (hRun : adaptedFloatOperation machine heap (comparisonFunction op)
      adaptation left right =
        boxed heap ((comparisonFunction op).run machine l r)) :
    callHandler machine
        (.floatBinary (comparisonFunction op) adaptation) [left, right]
        heap =
      (.value (.inline (fromBool (machine.compare op l r))), heap) := by
  rw [callHandler, hRun, run_comparisonFunction]
  rfl

end Kinds

/-! ## Comparisons -/

section Comparisons

variable {δ : Type} {machine : DoubleMachine δ} {finite : δ → Option ℚ}
  {heap : Heap δ} {word : Value} {a b : Nat} {view : ConstBigIntView}
  {x y : δ}

/-- The operator gives a truth value and leaves the heap alone. -/
def Answers (heap : Heap δ) (result : OperatorResult δ) (truth : Bool) :
    Prop :=
  ∃ trace, result = some (.truth truth, ⟨heap, trace⟩) ∨
    result = some (.value (.inline (fromBool truth)), ⟨heap, trace⟩)

/-- The operator raises an exception and leaves the heap alone. -/
def Raises (heap : Heap δ) (result : OperatorResult δ)
    (e : BuiltinException) : Prop :=
  ∃ trace, result = some (.raised e, ⟨heap, trace⟩) ∨
    result = some (.exception (.raised e), ⟨heap, trace⟩)

theorem comparisonMethod_int (op : Comparison) :
    comparisonMethod .intClass op = .intCompare op := rfl

theorem comparisonMethod_float (op : Comparison) :
    comparisonMethod .floatClass op =
      .floatOperation (comparisonFunction op) := rfl

/-- The method of the class `int` in the row of either operand. -/
theorem rowCall_intCompare {left right : Reference} {order : OperandOrder}
    {r : Reference} {n : Int} {op : Comparison}
    {trace : List (Call Reference Method)} (hInt : HoldsInt heap r n)
    (hFloat : heap[a]? = some (.float x))
    (hArguments : arguments (operands left right) order = [r, .pointer a]) :
    ∃ trace', rowCall (numberModel machine) (operands left right) order
        (.intCompare op) ⟨heap, trace⟩ =
      .attempted (.declined ⟨heap, trace'⟩) := by
  refine ⟨_, rowCall_declined rfl ?_⟩
  rw [hArguments]
  exact nativeIntCompareOperator_float hInt hFloat op

/-- An operand that is a pointer is dispatched on. -/
theorem compareInstruction_right (op : Comparison) (left : Reference) :
    compareInstruction machine op left (.pointer a) heap =
      (numberModel machine).runOperator op.tableId
        (operands left (.pointer a)) ⟨heap, []⟩ := by
  cases left <;> rfl

theorem compareInstruction_left (op : Comparison) (right : Reference) :
    compareInstruction machine op (.pointer a) right heap =
      (numberModel machine).runOperator op.tableId
        (operands (.pointer a) right) ⟨heap, []⟩ := rfl

/-- A small integer on the left of a float. -/
theorem answers_smi_float (hSmi : word.isSmi = true)
    (hFloat : heap[a]? = some (.float x)) (op : Comparison) :
    Answers heap (compareInstruction machine op (.inline word) (.pointer a)
      heap) (machine.compare op (machine.ofInt64 word.getSmi) x) := by
  have hLeft : IsNumberClass (classOf heap (.inline word)) :=
    Or.inl (classOf_smi hSmi)
  have hRight : IsNumberClass (classOf heap (.pointer a)) :=
    Or.inr (classOf_float hFloat)
  obtain ⟨trace, hDeclined⟩ :=
    @rowCall_intCompare δ machine heap a x (.inline word) (.pointer a)
      .normal (.inline word) word.smi op [] (.smi hSmi) hFloat rfl
  refine ⟨trace, Or.inr ?_⟩
  rw [compareInstruction_right]
  rw [← comparisonMethod_int, ← classOf_smi hSmi] at hDeclined
  rw [runOperator_reflected hLeft hRight hDeclined]
  refine runRows_answered (resolveSpecialMethod_comparison hRight op).2 ?_
  rw [classOf_float hFloat, comparisonMethod_float]
  have hHandler : adaptedFloatOperation machine heap (comparisonFunction op)
      .intlikeFloat (.inline word) (.pointer a) =
        boxed heap ((comparisonFunction op).run machine
          (machine.ofInt64 word.getSmi) x) := by
    simp only [adaptedFloatOperation, smiOrBoolAsDouble_smi hSmi,
      asFloat_float hFloat, asserted, Option.bind_eq_bind,
      Option.bind_some]
  refine rowCall_trusted ?_ (callHandler_comparison op hHandler)
  simp only [ObjectModel.resolveTrusted, numberModel, methodResolver,
    binaryResolver, operands, keyOf_smi hSmi, keyOf_float hFloat,
    reflected_comparisonFunction, resolveFloatHandlers]
  rfl

/-- A handler of the class `float` answers when its object is on the left. -/
theorem answers_float_left {right : Reference} {r : δ}
    {adaptation : FloatBinaryAdaptation} (op : Comparison)
    (hFloat : heap[a]? = some (.float x))
    (hRight : IsNumberClass (classOf heap right))
    (hHandlers : resolveFloatHandlers (comparisonFunction op) .float
      (keyOf heap right) =
        .trustedHandler (.floatBinary (comparisonFunction op) adaptation))
    (hRun : adaptedFloatOperation machine heap (comparisonFunction op)
      adaptation (.pointer a) right =
        boxed heap ((comparisonFunction op).run machine x r)) :
    Answers heap (compareInstruction machine op (.pointer a) right heap)
      (machine.compare op x r) := by
  have hLeft : IsNumberClass (classOf heap (.pointer a)) :=
    Or.inr (classOf_float hFloat)
  refine ⟨[], Or.inr ?_⟩
  rw [compareInstruction_left]
  refine runOperator_answered hLeft hRight ?_
  rw [classOf_float hFloat, comparisonMethod_float]
  refine rowCall_trusted ?_ (callHandler_comparison op hRun)
  have hKey : keyOf heap (.pointer a) = .float := keyOf_float hFloat
  simp only [ObjectModel.resolveTrusted, numberModel, methodResolver,
    binaryResolver, operands, hKey, hHandlers]
  rfl

/-- A small integer on the right of a float. -/
theorem answers_float_smi (hSmi : word.isSmi = true)
    (hFloat : heap[a]? = some (.float x)) (op : Comparison) :
    Answers heap (compareInstruction machine op (.pointer a) (.inline word)
      heap) (machine.compare op x (machine.ofInt64 word.getSmi)) := by
  refine @answers_float_left δ machine heap a x (.inline word) _ .floatIntlike
    op hFloat (Or.inl (classOf_smi hSmi)) ?_ ?_
  · rw [keyOf_smi hSmi]
    rfl
  · simp only [adaptedFloatOperation, smiOrBoolAsDouble_smi hSmi,
      asFloat_float hFloat, asserted, Option.bind_eq_bind, Option.bind_some]

/-- Two floats. -/
theorem answers_float_float (hLeft : heap[a]? = some (.float x))
    (hRight : heap[b]? = some (.float y)) (op : Comparison) :
    Answers heap (compareInstruction machine op (.pointer a) (.pointer b)
      heap) (machine.compare op x y) := by
  refine @answers_float_left δ machine heap a x (.pointer b) _ .floatFloat
    op hLeft (Or.inr (classOf_float hRight)) ?_ ?_
  · rw [keyOf_float hRight]
    rfl
  · simp only [adaptedFloatOperation, asFloat_float hLeft,
      asFloat_float hRight, asserted, Option.bind_eq_bind, Option.bind_some]

/-- The end of a comparison of two objects that no method answers. -/
def Unanswered (heap : Heap δ) (result : OperatorResult δ) :
    Comparison → Prop
  | .eq => Answers heap result false
  | .ne => Answers heap result true
  | _ => Raises heap result
      { typeName := "TypeError"
        message := "unsupported operand type(s) for comparison" }

/-- The fallback of a comparison of two objects. -/
theorem unanswered_fallback {left right : Reference} (hne : left ≠ right)
    (op : Comparison) (trace : List (Call Reference Method)) :
    Unanswered heap (runRows (numberModel machine) op.tableId
      (operands left right) [op.fallbackStep] 0 ⟨heap, trace⟩) op := by
  have hTruth : decide (left = right) = false ∧
      decide (left ≠ right) = true :=
    ⟨decide_eq_false hne, decide_eq_true hne⟩
  cases op with
  | eq =>
      refine ⟨trace, Or.inl ?_⟩
      rw [← hTruth.1]
      rfl
  | ne =>
      refine ⟨trace, Or.inl ?_⟩
      rw [← hTruth.2]
      rfl
  | lt => exact ⟨trace, Or.inl rfl⟩
  | le => exact ⟨trace, Or.inl rfl⟩
  | gt => exact ⟨trace, Or.inl rfl⟩
  | ge => exact ⟨trace, Or.inl rfl⟩

/-- The class `float` has no handler for an integer object and declines it,
on either side. -/
theorem rowCall_float_bigInt {left right : Reference} {order : OperandOrder}
    {trace : List (Call Reference Method)} (op : Comparison)
    (hFloat : heap[a]? = some (.float x))
    (hAt : heap[b]? = some (.bigInt view))
    (hArguments : arguments (operands left right) order =
      [.pointer a, .pointer b]) :
    ∃ trace', rowCall (numberModel machine) (operands left right) order
        (.floatOperation (comparisonFunction op)) ⟨heap, trace⟩ =
      .attempted (.declined ⟨heap, trace'⟩) := by
  refine ⟨_, rowCall_declined ?_ ?_⟩
  · cases order with
    | normal =>
        obtain ⟨rfl, hRight⟩ := List.cons_eq_cons.mp hArguments
        obtain ⟨rfl, -⟩ := List.cons_eq_cons.mp hRight
        simp only [ObjectModel.resolveTrusted, numberModel, methodResolver,
          binaryResolver, operands, keyOf_bigInt hAt, keyOf_float hFloat,
          resolveFloatHandlers]
        rfl
    | reflected =>
        obtain ⟨rfl, hRight⟩ := List.cons_eq_cons.mp hArguments
        obtain ⟨rfl, -⟩ := List.cons_eq_cons.mp hRight
        simp only [ObjectModel.resolveTrusted, numberModel, methodResolver,
          binaryResolver, operands, keyOf_bigInt hAt, keyOf_float hFloat,
          resolveFloatHandlers]
        rfl
  · rw [hArguments]
    exact floatNative_bigInt hFloat hAt _

/-- An integer object on the left of a float. -/
theorem unanswered_bigInt_float (hAt : heap[b]? = some (.bigInt view))
    (hView : Normalized view) (hLarge : ¬ SmiRange view.toInt)
    (hFloat : heap[a]? = some (.float x)) (op : Comparison) :
    Unanswered heap (compareInstruction machine op (.pointer b) (.pointer a)
      heap) op := by
  have hLeft : IsNumberClass (classOf heap (.pointer b)) :=
    Or.inl (classOf_bigInt hAt)
  have hRight : IsNumberClass (classOf heap (.pointer a)) :=
    Or.inr (classOf_float hFloat)
  have hne : Reference.pointer b ≠ .pointer a := by
    rintro ⟨⟩
    rw [hAt] at hFloat
    cases hFloat
  obtain ⟨trace, hInt⟩ :=
    @rowCall_intCompare δ machine heap a x (.pointer b) (.pointer a)
      .normal (.pointer b) view.toInt op [] (.bigInt hAt hView hLarge) hFloat
      rfl
  obtain ⟨trace', hReflected⟩ :=
    @rowCall_float_bigInt δ machine heap a b view x (.pointer b) (.pointer a)
      .reflected trace (converse op) hFloat hAt rfl
  rw [compareInstruction_left]
  rw [← comparisonMethod_int, ← classOf_bigInt hAt] at hInt
  rw [← comparisonMethod_float, ← classOf_float hFloat] at hReflected
  rw [runOperator_reflected hLeft hRight hInt,
    runRows_declined (resolveSpecialMethod_comparison hRight op).2 hReflected]
  exact unanswered_fallback hne op trace'

/-- An integer object on the right of a float. -/
theorem unanswered_float_bigInt (hAt : heap[b]? = some (.bigInt view))
    (hView : Normalized view) (hLarge : ¬ SmiRange view.toInt)
    (hFloat : heap[a]? = some (.float x)) (op : Comparison) :
    Unanswered heap (compareInstruction machine op (.pointer a) (.pointer b)
      heap) op := by
  have hLeft : IsNumberClass (classOf heap (.pointer a)) :=
    Or.inr (classOf_float hFloat)
  have hRight : IsNumberClass (classOf heap (.pointer b)) :=
    Or.inl (classOf_bigInt hAt)
  have hne : Reference.pointer a ≠ .pointer b := by
    rintro ⟨⟩
    rw [hAt] at hFloat
    cases hFloat
  obtain ⟨trace, hDeclined⟩ :=
    @rowCall_float_bigInt δ machine heap a b view x (.pointer a) (.pointer b)
      .normal [] op hFloat hAt rfl
  obtain ⟨trace', hReflected⟩ :=
    @rowCall_intCompare δ machine heap a x (.pointer a) (.pointer b)
      .reflected (.pointer b) view.toInt (converse op) trace
      (.bigInt hAt hView hLarge) hFloat rfl
  rw [compareInstruction_left]
  rw [← comparisonMethod_float, ← classOf_float hFloat] at hDeclined
  rw [← comparisonMethod_int, ← classOf_bigInt hAt] at hReflected
  rw [runOperator_reflected hLeft hRight hDeclined,
    runRows_declined (resolveSpecialMethod_comparison hRight op).2 hReflected]
  exact unanswered_fallback hne op trace'

/-- The word of a small integer, without the tag of the booleans. -/
theorem smi_word (hSmi : word.isSmi = true) :
    word.integer &&& ~~~valueBooleanTag = word.integer ∧
      word.integer &&& valueNotSmiOrBooleanMask = 0#64 ∧
      word.integer.toInt = word.smi * 2 ^ 5 := by
  have hTag : word.integer &&& valueNotSmiMask = 0#64 := by
    simpa [Value.isSmi] using hSmi
  have hBoolean : word.integer &&& valueBooleanTag = 0#64 := by
    have hPart : valueNotSmiMask &&& valueBooleanTag = valueBooleanTag :=
      rfl
    rw [← hPart, ← BitVec.and_assoc, hTag]
    rfl
  refine ⟨and_not_of_and_eq_zero hBoolean, ?_, ?_⟩
  · rw [valueNotSmiOrBooleanMask, ← BitVec.and_assoc, hTag]
    rfl
  · have hFits := (fits_iff_smiRange _).mpr (smiRange_smi word)
    have hValue := Fixnum.toInt_encode (by decide) hFits
    rwa [← ofInt_integer, ofInt_smi hSmi] at hValue

theorem xor_and_distrib (u v mask : BitVec 64) :
    (u ^^^ v) &&& mask = (u &&& mask) ^^^ (v &&& mask) := by
  ext i hi
  simp only [BitVec.getElem_and, BitVec.getElem_xor]
  exact Bool.and_xor_distrib_right _ _ _

/-- Two small integers are compared by their words. -/
theorem inlineComparison_smi {other : Value} (hSmi : word.isSmi = true)
    (hOther : other.isSmi = true) (op : Comparison) :
    inlineComparison word other op =
      some (holds word.smi other.smi op) := by
  obtain ⟨hWord, hKind, hValue⟩ := smi_word hSmi
  obtain ⟨hWord', hKind', hValue'⟩ := smi_word hOther
  have hBoth : bothSmiOrBool word other = true := by
    rw [bothSmiOrBool, BitVec.and_or_distrib_right, hKind, hKind']
    rfl
  have hDifference : wordDifference word other = 0#64 ↔
      word.smi = other.smi := by
    rw [wordDifference, valueBooleanToIntegerMask,
      xor_and_distrib, hWord, hWord', BitVec.xor_eq_zero_iff,
      ← BitVec.toInt_inj, hValue, hValue']
    omega
  have hCompare : smiOrBoolComparisonValue word = word.smi * 2 ^ 5 ∧
      smiOrBoolComparisonValue other = other.smi * 2 ^ 5 := by
    simp only [smiOrBoolComparisonValue, hWord, hWord', hValue, hValue',
      and_self]
  cases op with
  | eq =>
      rw [inlineComparison, holds]
      congr 1
      rw [Bool.eq_iff_iff, beq_iff_eq, hDifference, decide_eq_true_eq]
  | ne =>
      rw [inlineComparison, holds]
      congr 1
      rw [Bool.eq_iff_iff, bne_iff_ne, ne_eq, hDifference, decide_eq_true_eq]
  | lt =>
      simp only [inlineComparison, hBoth, if_true, hCompare, holds]
      congr 2
      rw [eq_iff_iff]
      omega
  | le =>
      simp only [inlineComparison, hBoth, if_true, hCompare, holds]
      congr 2
      rw [eq_iff_iff]
      omega
  | gt =>
      simp only [inlineComparison, hBoth, if_true, hCompare, holds]
      congr 2
      rw [eq_iff_iff]
      omega
  | ge =>
      simp only [inlineComparison, hBoth, if_true, hCompare, holds]
      congr 2
      rw [eq_iff_iff]
      omega

theorem answers_smi_smi {other : Value} (hSmi : word.isSmi = true)
    (hOther : other.isSmi = true) (op : Comparison) :
    Answers heap (compareInstruction machine op (.inline word)
      (.inline other) heap) (holds word.smi other.smi op) := by
  refine ⟨[], Or.inl ?_⟩
  simp only [compareInstruction, inlineComparison_smi hSmi hOther]

/-- An operator gives one truth value. -/
theorem Answers.unique {result : OperatorResult δ} {s t : Bool}
    (hs : Answers heap result s) (ht : Answers heap result t) : s = t := by
  obtain ⟨trace, hs | hs⟩ := hs
  · obtain ⟨trace', ht | ht⟩ := ht
    · have hSame := congrArg Prod.fst (Option.some.inj (hs.symm.trans ht))
      exact Final.truth.inj hSame
    · cases congrArg Prod.fst (Option.some.inj (hs.symm.trans ht))
  · obtain ⟨trace', ht | ht⟩ := ht
    · cases congrArg Prod.fst (Option.some.inj (hs.symm.trans ht))
    · have hSame := congrArg Prod.fst (Option.some.inj (hs.symm.trans ht))
      have hWord := Reference.inline.inj (Final.value.inj hSame)
      revert hWord
      cases s <;> cases t <;> decide

end Comparisons

/-! ## Division -/

section Division

variable {δ : Type} {machine : DoubleMachine δ} {finite : δ → Option ℚ}
  {heap : Heap δ} {left right : Reference}

/-- The operator gives a new float of this number. -/
def DividesTo (finite : δ → Option ℚ) (heap : Heap δ)
    (result : OperatorResult δ) (q : ℚ) : Prop :=
  ∃ trace d, finite d = some q ∧
    result = some (.value (.pointer heap.length),
      ⟨heap ++ [.float d], trace⟩)

/-- Two integers have one class, and none before the other. -/
theorem opTrueDiv_rows (hLeft : classOf heap left = .intClass)
    (hRight : classOf heap right = .intClass) :
    opTrueDiv machine left right heap =
      runRows (numberModel machine) .trueDiv (operands left right)
        [ methodRow .normal "__truediv__"
        , otherTypeRow "__rtruediv__"
        , raiseUnsupported ] 0 ⟨heap, []⟩ := by
  have hSame : (numberModel machine).classOf heap left =
      (numberModel machine).classOf heap right := hLeft.trans hRight.symm
  have hRow : runRow (numberModel machine) .trueDiv (operands left right)
      ⟨"__rtruediv__", .callBinaryReflected, .ifArithmeticReflectedPriority,
        2⟩ ⟨heap, []⟩ = .skipped := by
    have hCall := runRow_call (numberModel machine) (operands left right)
      .trueDiv .reflected "__rtruediv__" .ifArithmeticReflectedPriority 2
      ⟨heap, []⟩
    simp only [callAction, receiver, operands,
      ObjectModel.resolveApplicableOperatorMethod,
      ObjectModel.resolveReflectedPrioritySpecialMethod, hSame, if_true]
      at hCall
    exact hCall
  rw [opTrueDiv, runOperator_eq_runRows, operatorDispatchTable,
    binaryArithmeticOperatorTable, callBinaryReflected, runRows, hRow]
  rfl

theorem resolveSpecialMethod_trueDiv
    (hLeft : classOf heap left = .intClass) :
    (numberModel machine).resolveSpecialMethod heap left "__truediv__" =
      some (.function .intTrueDiv) := by
  have hClass : (numberModel machine).classOf heap left = .intClass := hLeft
  simp only [ObjectModel.resolveSpecialMethod, hClass]
  rfl

/-- Two small integers, converted and divided. -/
theorem opTrueDiv_smi {word other : Value} (hSmi : word.isSmi = true)
    (hOther : other.isSmi = true) (hne : other.smi ≠ 0) :
    opTrueDiv machine (.inline word) (.inline other) heap =
      some (.value (.pointer heap.length),
        ⟨heap ++ [.float (machine.divide (machine.ofInt64 word.getSmi)
          (machine.ofInt64 other.getSmi))], []⟩) := by
  have hZero : other.getSmi ≠ 0 := by
    intro hSame
    rw [Value.smi, hSame] at hne
    exact hne rfl
  rw [opTrueDiv_rows (classOf_smi hSmi) (classOf_smi hOther)]
  refine runRows_answered
    (resolveSpecialMethod_trueDiv (classOf_smi hSmi)) ?_
  refine @rowCall_trusted δ machine heap _ _ .normal .intTrueDiv .smiTrueDiv
    _ _ _ ?_ ?_
  · simp only [ObjectModel.resolveTrusted, numberModel, methodResolver,
      binaryResolver, operands, keyOf_smi hSmi, keyOf_smi hOther]
    rfl
  · simp only [callHandler, intlikeIntlikeOperator,
      (tryGetSmiOrBool_smi hSmi).2, (tryGetSmiOrBool_smi hOther).2,
      Option.bind_eq_bind, Option.bind_some, asserted, smiTrueDivOperator,
      if_neg hZero, boxed]

/-- No resolver takes an integer object. -/
theorem resolveTrusted_trueDiv {a b : Int} (hLeft : HoldsInt heap left a)
    (hRight : HoldsInt heap right b)
    (hLarge : ¬ (SmiRange a ∧ SmiRange b)) :
    (numberModel machine).resolveTrusted heap .intTrueDiv
      (operands left right) .normal .binary =
        .noTrustedHandlerCallUntrusted := by
  simp only [ObjectModel.resolveTrusted, numberModel, methodResolver,
    binaryResolver, operands]
  cases hLeft with
  | smi hSmi =>
      cases hRight with
      | smi hOther => exact absurd ⟨smiRange_smi _, smiRange_smi _⟩ hLarge
      | bigInt hAt hView hNot =>
          rw [keyOf_smi hSmi, keyOf_bigInt hAt]
          rfl
  | bigInt hAt hView hNot =>
      cases hRight with
      | smi hOther =>
          rw [keyOf_smi hOther, keyOf_bigInt hAt]
          rfl
      | bigInt hOther _ _ =>
          rw [keyOf_bigInt hAt, keyOf_bigInt hOther]
          rfl

/-- The division of a small integer declines an object. -/
theorem callMethod_trueDiv_bigInt {word : Value} {address : Nat}
    (hSmi : word.isSmi = true) :
    callMethod machine .intTrueDiv
        (arguments (operands (.inline word) (.pointer address)) .normal)
        heap = (.notImplemented, heap) := by
  simp only [arguments, operands, callMethod, nativeIntBinaryOperator,
    (tryGetSmiOrBool_smi hSmi).2]
  rfl

/-- An integer object has no division: its own method refuses it, and declines
it as the divisor. -/
theorem opTrueDiv_bigInt {a b : Int} (hLeft : HoldsInt heap left a)
    (hRight : HoldsInt heap right b)
    (hLarge : ¬ (SmiRange a ∧ SmiRange b)) :
    ∃ message, Raises heap (opTrueDiv machine left right heap)
      { typeName := "TypeError", message := message } := by
  have hResolve := @resolveTrusted_trueDiv δ machine heap left right a b
    hLeft hRight hLarge
  have hRows := @opTrueDiv_rows δ machine heap left right hLeft.classOf
    hRight.classOf
  have hMethod := @resolveSpecialMethod_trueDiv δ machine heap left
    hLeft.classOf
  have hSame : (numberModel machine).classOf heap left =
      (numberModel machine).classOf heap right :=
    hLeft.classOf.trans hRight.classOf.symm
  have hSkipped : ∀ trace, runRow (numberModel machine) .trueDiv
      (operands left right) (otherTypeRow "__rtruediv__") ⟨heap, trace⟩ =
        .skipped := by
    intro trace
    rw [runRow_otherTypeRow]
    exact if_pos hSame
  cases hLeft with
  | @bigInt address _ hAt hView hNot =>
      refine ⟨"int.__truediv__ expects an int receiver",
        [⟨.intTrueDiv, [.pointer address, right]⟩], Or.inr ?_⟩
      rw [hRows]
      refine runRows_answered hMethod ?_
      rw [rowCall, hResolve]
      rfl
  | @smi word hSmi =>
      cases hRight with
      | smi hOther => exact absurd ⟨smiRange_smi _, smiRange_smi _⟩ hLarge
      | @bigInt address _ hAt hView hNot =>
          have hCall :=
            @callMethod_trueDiv_bigInt δ machine heap _ address hSmi
          refine ⟨"unsupported operand type(s) for /",
            [⟨.intTrueDiv, [.inline word, .pointer address]⟩],
            Or.inl ?_⟩
          rw [hRows,
            runRows_declined hMethod (rowCall_declined hResolve hCall),
            runRows, hSkipped]
          rfl

end Division

/-! ## Rounding an operand -/

section Rounding

/-- A comparison asks which of the two sides is less. -/
theorem holds_congr {α β : Type} [LinearOrder α] [LinearOrder β] {a b : α}
    {c d : β} (hLess : a < b ↔ c < d) (hMore : b < a ↔ d < c)
    (op : Comparison) : holds a b op = holds c d op := by
  have hEqual : a = b ↔ c = d := by
    rw [eq_iff_le_not_lt, eq_iff_le_not_lt, ← not_lt, ← not_lt, hLess, hMore]
  cases op with
  | eq => exact decide_eq_decide.mpr hEqual
  | ne => exact decide_eq_decide.mpr (not_congr hEqual)
  | lt => exact decide_eq_decide.mpr hLess
  | le =>
      refine decide_eq_decide.mpr ?_
      rw [← not_lt, ← not_lt, hMore]
  | gt => exact decide_eq_decide.mpr hMore
  | ge =>
      refine decide_eq_decide.mpr ?_
      show b ≤ a ↔ d ≤ c
      rw [← not_lt, ← not_lt, hLess]

variable {n d : ℚ}

/-- Rounding a number to the nearest does not change how it compares with a
double, unless the double is what it is rounded to. -/
theorem holds_round_iff (hd : binary64.Representable d) :
    (∀ op, holds (binary64.round n) d op = holds n d op ∧
      holds d (binary64.round n) op = holds d n op) ↔
      (binary64.round n = d → n = d) := by
  constructor
  · intro h hRound
    have hSame := (h .eq).1
    simp only [holds, hRound, decide_true] at hSame
    exact of_decide_eq_true hSame.symm
  · intro h op
    rcases lt_trichotomy n d with hLess | hSame | hMore
    · have hRound : binary64.round n < d :=
        lt_of_le_of_ne (binary64.round_le hd hLess.le)
          fun hEq => hLess.ne (h hEq)
      exact ⟨holds_congr (iff_of_true hRound hLess)
          (iff_of_false hRound.not_gt hLess.not_gt) op,
        holds_congr (iff_of_false hRound.not_gt hLess.not_gt)
          (iff_of_true hRound hLess) op⟩
    · rw [hSame, binary64.round_of_representable hd]
      exact ⟨rfl, rfl⟩
    · have hRound : d < binary64.round n :=
        lt_of_le_of_ne (binary64.le_round hd hMore.le)
          fun hEq => hMore.ne (h hEq.symm).symm
      exact ⟨holds_congr (iff_of_false hRound.not_gt hMore.not_gt)
          (iff_of_true hRound hMore) op,
        holds_congr (iff_of_true hRound hMore)
          (iff_of_false hRound.not_gt hMore.not_gt) op⟩

theorem representable_one : binary64.Representable 1 := by
  have h := binary64.representable_intCast (m := 1) (by decide) (by decide)
  rwa [Int.cast_one] at h

/-- An integer other than zero is not rounded to zero. -/
theorem one_le_abs_round {b : Int} (hb : b ≠ 0) :
    1 ≤ |binary64.round b| := by
  rcases lt_or_gt_of_ne hb with hNeg | hPos
  · have hLe : (b : ℚ) ≤ -1 := by exact_mod_cast Int.le_sub_one_of_lt hNeg
    have hRound := binary64.round_le
      (Format.Representable.neg _ representable_one) hLe
    rw [le_abs]
    exact Or.inr (by linarith)
  · have hLe : (1 : ℚ) ≤ b := by exact_mod_cast hPos
    exact le_trans (binary64.le_round representable_one hLe) (le_abs_self _)

/-- The quotient of two small integers is in range. -/
theorem abs_quotient_lt {a b : Int} (ha : SmiRange a) (hb : b ≠ 0) :
    |binary64.round (binary64.round a / binary64.round b)| < 2 ^ 1024 := by
  have hBound : binary64.Representable ((2 : ℚ) ^ (58 : ℤ)) :=
    binary64.representable_zpow (by decide)
  have hNumber : |(a : ℚ)| ≤ 2 ^ (58 : ℤ) := by
    simp only [SmiRange, valueSmiMin, valueSmiMax] at ha
    rw [abs_le]
    constructor
    · have hLow : ((-2 ^ 58 : ℤ) : ℚ) ≤ a := Int.cast_le.mpr ha.1
      norm_num at hLow ⊢
      exact hLow
    · have hHigh : (a : ℚ) ≤ ((2 ^ 58 : ℤ) : ℚ) :=
        Int.cast_le.mpr (by omega)
      norm_num at hHigh ⊢
      exact hHigh
  have hDividend := binary64.abs_round_le hBound hNumber
  have hDivisor := one_le_abs_round hb
  have hQuotient : |binary64.round a / binary64.round b| ≤
      2 ^ (58 : ℤ) := by
    rw [abs_div]
    exact le_trans (div_le_self (abs_nonneg _) hDivisor) hDividend
  refine lt_of_le_of_lt (binary64.abs_round_le hBound hQuotient) ?_
  rw [zpow_ofNat]
  exact pow_lt_pow_right₀ (by norm_num) (by norm_num)

end Rounding

/-! ## The results together -/

section Results

variable {δ : Type} {machine : DoubleMachine δ} {finite : δ → Option ℚ}
  {heap : Heap δ} {left right : Reference}

theorem HoldsInt.exists_word {n : Int} (h : HoldsInt heap left n)
    (hSmall : SmiRange n) :
    ∃ word : Value, left = .inline word ∧ word.isSmi = true ∧
      word.smi = n := by
  cases h with
  | smi hSmi => exact ⟨_, rfl, hSmi, rfl⟩
  | bigInt hAt hView hLarge => exact absurd hSmall hLarge

/-- A number that a double has: a finite float, or a small integer that is
one. -/
inductive HoldsDouble (finite : δ → Option ℚ) (heap : Heap δ) :
    Reference → ℚ → Prop
  | int {r : Reference} {n : Int} (hInt : HoldsInt heap r n)
      (hSmall : SmiRange n) (hDouble : binary64.Representable n) :
      HoldsDouble finite heap r n
  | float {r : Reference} {d : ℚ} (hFloat : HoldsFloat finite heap r d) :
      HoldsDouble finite heap r d

/-- A small integer and a float are compared as doubles. -/
theorem answers_small_float (hM : RoundsToNearest machine finite) {n : Int}
    {d : ℚ} (hInt : HoldsInt heap left n) (hSmall : SmiRange n)
    (hFloat : HoldsFloat finite heap right d) (op : Comparison) :
    Answers heap (compareInstruction machine op left right heap)
        (holds (binary64.round n) d op) ∧
      Answers heap (compareInstruction machine op right left heap)
        (holds d (binary64.round n) op) := by
  obtain ⟨word, rfl, hSmi, hWord⟩ := HoldsInt.exists_word hInt hSmall
  obtain ⟨hAt, hFinite⟩ := hFloat
  have hConvert := hM.ofInt64 word.getSmi
  have hValue : word.getSmi.toInt = n := hWord
  rw [hValue] at hConvert
  rw [← hM.compare hConvert hFinite op, ← hM.compare hFinite hConvert op]
  exact ⟨answers_smi_float hSmi hAt op, answers_float_smi hSmi hAt op⟩

/-- Numbers that doubles have are compared exactly. -/
theorem answers_doubles (hM : RoundsToNearest machine finite) {p q : ℚ}
    (hLeft : HoldsDouble finite heap left p)
    (hRight : HoldsDouble finite heap right q) (op : Comparison) :
    Answers heap (compareInstruction machine op left right heap)
      (holds p q op) := by
  cases hLeft with
  | int hInt hSmall hDouble =>
      cases hRight with
      | int hInt' hSmall' _ =>
          obtain ⟨word, rfl, hSmi, rfl⟩ := HoldsInt.exists_word hInt hSmall
          obtain ⟨other, rfl, hOther, rfl⟩ :=
            HoldsInt.exists_word hInt' hSmall'
          have hExact := holds_congr (a := word.smi) (b := other.smi)
            (c := (word.smi : ℚ)) (d := (other.smi : ℚ)) Int.cast_lt.symm
            Int.cast_lt.symm op
          rw [← hExact]
          exact answers_smi_smi hSmi hOther op
      | float hFloat =>
          have hAnswer := (answers_small_float hM hInt hSmall hFloat op).1
          rwa [binary64.round_of_representable hDouble] at hAnswer
  | float hFloat =>
      cases hRight with
      | int hInt hSmall hDouble =>
          have hAnswer := (answers_small_float hM hInt hSmall hFloat op).2
          rwa [binary64.round_of_representable hDouble] at hAnswer
      | float hFloat' =>
          obtain ⟨hAt, hFinite⟩ := hFloat
          obtain ⟨hAt', hFinite'⟩ := hFloat'
          rw [← hM.compare hFinite hFinite' op]
          exact answers_float_float hAt hAt' op

/-- An integer object and a float. -/
theorem unanswered_large_float {n : Int} {d : ℚ}
    (hInt : HoldsInt heap left n) (hLarge : ¬ SmiRange n)
    (hFloat : HoldsFloat finite heap right d) (op : Comparison) :
    Unanswered heap (compareInstruction machine op left right heap) op ∧
      Unanswered heap (compareInstruction machine op right left heap) op := by
  obtain ⟨hAt, -⟩ := hFloat
  cases hInt with
  | smi hSmi => exact absurd (smiRange_smi _) hLarge
  | bigInt hObject hView hNot =>
      exact ⟨unanswered_bigInt_float hObject hView hNot hAt op,
        unanswered_float_bigInt hObject hView hNot hAt op⟩

/-- Two small integers are divided as doubles. -/
theorem dividesTo_small (hM : RoundsToNearest machine finite) {a b : Int}
    (hLeft : HoldsInt heap left a) (hRight : HoldsInt heap right b)
    (ha : SmiRange a) (hb : SmiRange b) (hne : b ≠ 0) :
    DividesTo finite heap (opTrueDiv machine left right heap)
      (binary64.round (binary64.round a / binary64.round b)) := by
  obtain ⟨word, rfl, hSmi, rfl⟩ := HoldsInt.exists_word hLeft ha
  obtain ⟨other, rfl, hOther, rfl⟩ := HoldsInt.exists_word hRight hb
  have hZero : binary64.round other.smi ≠ 0 := by
    have hFar := one_le_abs_round hne
    intro hSame
    rw [hSame, abs_zero] at hFar
    exact absurd hFar (by norm_num)
  refine ⟨[], _, ?_, opTrueDiv_smi hSmi hOther hne⟩
  exact hM.divide (hM.ofInt64 word.getSmi) (hM.ofInt64 other.getSmi) hZero
    (abs_quotient_lt ha hne)

/-- What the operators do with integers and floats: a small integer is rounded
to a double before it is compared with a float or divided, which is exact
where the float is not what it is rounded to; an integer object is neither
equal to a float nor ordered, and is not divided.  On small integers that are
doubles and floats together the comparisons are exact. -/
theorem number_operators (machine : DoubleMachine δ)
    (finite : δ → Option ℚ) (hM : RoundsToNearest machine finite)
    (heap : Heap δ) :
    (∀ left right n d, HoldsInt heap left n → SmiRange n →
      HoldsFloat finite heap right d →
      (∀ op,
        Answers heap (compareInstruction machine op left right heap)
          (holds (binary64.round n) d op) ∧
        Answers heap (compareInstruction machine op right left heap)
          (holds d (binary64.round n) op)) ∧
      ((∀ op,
        holds (binary64.round n) d op = holds (n : ℚ) d op ∧
        holds d (binary64.round n) op = holds d (n : ℚ) op) ↔
        (binary64.round n = d → (n : ℚ) = d))) ∧
    (∀ left right n d, HoldsInt heap left n → ¬ SmiRange n →
      HoldsFloat finite heap right d → ∀ op,
        Unanswered heap (compareInstruction machine op left right heap) op ∧
        Unanswered heap (compareInstruction machine op right left heap)
          op) ∧
    (∀ left right p q, HoldsDouble finite heap left p →
      HoldsDouble finite heap right q → ∀ op,
        Answers heap (compareInstruction machine op left right heap)
          (holds p q op)) ∧
    (∀ left right a b, HoldsInt heap left a → HoldsInt heap right b →
      b ≠ 0 →
      (SmiRange a → SmiRange b →
        DividesTo finite heap (opTrueDiv machine left right heap)
          (binary64.round (binary64.round a / binary64.round b)) ∧
        (binary64.Representable a → binary64.Representable b →
          binary64.round (binary64.round a / binary64.round b) =
            binary64.round (a / b))) ∧
      (¬ (SmiRange a ∧ SmiRange b) →
        ∃ message, Raises heap (opTrueDiv machine left right heap)
          { typeName := "TypeError", message := message })) := by
  refine ⟨?_, ?_, ?_, ?_⟩
  · intro left right n d hInt hSmall hFloat
    refine ⟨answers_small_float hM hInt hSmall hFloat, ?_⟩
    obtain ⟨-, hFinite⟩ := hFloat
    exact holds_round_iff (hM.representable hFinite)
  · intro left right n d hInt hLarge hFloat
    exact unanswered_large_float hInt hLarge hFloat
  · intro left right p q hLeft hRight
    exact answers_doubles hM hLeft hRight
  · intro left right a b hLeft hRight hne
    refine ⟨fun ha hb => ⟨dividesTo_small hM hLeft hRight ha hb hne, ?_⟩,
      opTrueDiv_bigInt hLeft hRight⟩
    intro hDividend hDivisor
    rw [binary64.round_of_representable hDividend,
      binary64.round_of_representable hDivisor]

end Results

/-! ## A machine -/

/-- A finite double by its number. -/
def Double := { q : ℚ // binary64.Representable q }

def roundDouble (q : ℚ) : Double :=
  ⟨binary64.round q, binary64.round_representable q⟩

/-- Finite doubles by their numbers, and one that is not finite. -/
def rationalMachine : DoubleMachine (Option Double) where
  zero := some (roundDouble 0)
  ofInt64 word := some (roundDouble word.toInt)
  compare op x y :=
    match x, y with
    | some p, some q => holds p.1 q.1 op
    | _, _ => op = .ne
  divide x y :=
    match x, y with
    | some p, some q =>
        if q.1 ≠ 0 ∧ |binary64.round (p.1 / q.1)| < 2 ^ 1024 then
          some (roundDouble (p.1 / q.1))
        else none
    | _, _ => none

def finiteNumber (x : Option Double) : Option ℚ := x.map (·.1)

theorem finiteNumber_eq_some {x : Option Double} {q : ℚ}
    (h : finiteNumber x = some q) : ∃ d : Double, x = some d ∧ d.1 = q := by
  obtain ⟨d, hd, hNumber⟩ := Option.map_eq_some_iff.mp h
  exact ⟨d, hd, hNumber⟩

theorem rationalMachine_roundsToNearest :
    RoundsToNearest rationalMachine finiteNumber := by
  refine
    { representable := ?_
      zero := ?_
      ofInt64 := fun _ => rfl
      compare := ?_
      divide := ?_ }
  · intro x q hFinite
    obtain ⟨d, -, rfl⟩ := finiteNumber_eq_some hFinite
    exact d.2
  · show some (binary64.round 0) = some 0
    rw [Format.round_zero]
  · intro x y p q hx hy op
    obtain ⟨d, rfl, rfl⟩ := finiteNumber_eq_some hx
    obtain ⟨e, rfl, rfl⟩ := finiteNumber_eq_some hy
    rfl
  · intro x y p q hx hy hne hRange
    obtain ⟨d, rfl, rfl⟩ := finiteNumber_eq_some hx
    obtain ⟨e, rfl, rfl⟩ := finiteNumber_eq_some hy
    simp only [rationalMachine, if_pos (And.intro hne hRange)]
    rfl

theorem representable_two : binary64.Representable 2 := by
  have h := binary64.representable_intCast (m := 2) (by decide) (by decide)
  exact_mod_cast h

/-- `1 / 2` is the float `0.5`. -/
theorem number_operators_half :
    DividesTo finiteNumber []
      (opTrueDiv rationalMachine (.inline (Value.ofInt 1))
        (.inline (Value.ofInt 2)) []) (1 / 2) := by
  have hOne : HoldsInt ([] : Heap (Option Double))
      (.inline (Value.ofInt 1)) 1 := .smi (isSmi_ofInt 1)
  have hTwo : HoldsInt ([] : Heap (Option Double))
      (.inline (Value.ofInt 2)) 2 := .smi (isSmi_ofInt 2)
  have hDivision := ((number_operators rationalMachine finiteNumber
    rationalMachine_roundsToNearest []).2.2.2 _ _ 1 2 hOne hTwo
      (by decide)).1 (by decide) (by decide)
  have hHalf : binary64.Representable (1 / 2 : ℚ) := by
    have h := binary64.representable_zpow (e := -1) (by decide)
    rwa [zpow_neg_one, ← one_div] at h
  have hRound : binary64.round (binary64.round ((1 : Int) : ℚ) /
      binary64.round ((2 : Int) : ℚ)) = 1 / 2 := by
    push_cast
    rw [binary64.round_of_representable representable_one,
      binary64.round_of_representable representable_two,
      binary64.round_of_representable hHalf]
  rw [← hRound]
  exact hDivision.1

/-- The heap with the float `2 ** 53`. -/
def heapWithPower : Heap (Option Double) :=
  [.float (some (roundDouble (2 ^ 53)))]

theorem round_two_pow_53 : binary64.round (2 ^ 53) = 2 ^ 53 := by
  have h := binary64.representable_zpow (e := 53) (by decide)
  exact binary64.round_of_representable (by exact_mod_cast h)

/-- A tie, of which the even mantissa is the lower one. -/
theorem round_two_pow_53_succ :
    binary64.round ((9007199254740993 : Int) : ℚ) = 2 ^ 53 := by
  have hNumber : |((9007199254740993 : Int) : ℚ)| = 9007199254740993 := by
    norm_num
  have hLog : Int.log 2 |((9007199254740993 : Int) : ℚ)| = 53 := by
    rw [hNumber]
    refine le_antisymm (Int.lt_add_one_iff.mp ?_) ?_
    · refine (Int.lt_zpow_iff_log_lt (by decide) (by norm_num)).mp ?_
      norm_num
    · refine (Int.zpow_le_iff_le_log (by decide) (by norm_num)).mp ?_
      norm_num
  have hUnit : binary64.unit ((9007199254740993 : Int) : ℚ) = 2 := by
    rw [Format.unit, Format.exponent, hLog]
    norm_num [binary64]
  have hFloor : ⌊(9007199254740993 / 2 : ℚ)⌋ = 4503599627370496 := by
    rw [Int.floor_eq_iff]
    norm_num
  rw [Format.round, Format.mantissa, hUnit]
  push_cast
  rw [roundHalfEven, hFloor]
  norm_num

/-- `2 ** 53 + 1 == 2.0 ** 53` is true. -/
theorem eq_of_rounded :
    RoundsToNearest rationalMachine finiteNumber ∧
      HoldsInt heapWithPower (.inline (Value.ofInt 9007199254740993))
        9007199254740993 ∧
      HoldsFloat finiteNumber heapWithPower (.pointer 0) 9007199254740992 ∧
      ¬ Answers heapWithPower
        (compareInstruction rationalMachine .eq
          (.inline (Value.ofInt 9007199254740993)) (.pointer 0)
          heapWithPower)
        (holds ((9007199254740993 : Int) : ℚ) 9007199254740992 .eq) := by
  have hInt : HoldsInt heapWithPower
      (.inline (Value.ofInt 9007199254740993)) 9007199254740993 :=
    .smi (isSmi_ofInt 9007199254740993)
  have hPower : finiteNumber (some (roundDouble (2 ^ 53))) =
      some 9007199254740992 := by
    show some (binary64.round (2 ^ 53)) = _
    rw [round_two_pow_53]
    norm_num
  have hFloat : HoldsFloat finiteNumber heapWithPower (.pointer 0)
      9007199254740992 := .float rfl hPower
  refine ⟨rationalMachine_roundsToNearest, hInt, hFloat, fun hExact => ?_⟩
  have hRounded := (answers_small_float rationalMachine_roundsToNearest hInt
    (by decide) hFloat .eq).1
  rw [round_two_pow_53_succ] at hRounded
  have hSame := hExact.unique hRounded
  norm_num [holds] at hSame

end CloverVM.BuiltinTypes.NumberComparison
