import CloverVM.ObjectModel.Function

/-!
# Function definitions

How the code generator turns the parameters of a `def` into a signature: the
groups of parameters are laid out in one order, the keyword-bindable ones are
listed by name, and the defaults become one span of slots with a mask.
-/

namespace CloverVM.Compiler.FunctionDefinition

open CloverVM.ObjectModel

variable {V : Type}

/-- A `PARAMETER` node; the default is the value of its expression. -/
structure Parameter (V : Type) where
  name : String
  default : Option V

/-- The groups of a `PARAMETER_SIGNATURE` node. -/
structure ParameterSignature (V : Type) where
  posonly : List (Parameter V) := []
  posOrKw : List (Parameter V) := []
  vararg : Option String := none
  kwonly : List (Parameter V) := []
  kwarg : Option String := none

inductive ParameterNode (V : Type) where
  | parameter (p : Parameter V)
  | varargs (name : String)
  | kwargs (name : String)

/-- The default of a node; only a `PARAMETER` has one. -/
def ParameterNode.default : ParameterNode V → Option V
  | .parameter p => p.default
  | .varargs _ => none
  | .kwargs _ => none

/-- A `PARAMETER` node with children. -/
def ParameterNode.hasDefault (node : ParameterNode V) : Bool :=
  node.default.isSome

namespace ParameterSignature

variable (sig : ParameterSignature V)

/-- `supported_runtime_parameter_order`. -/
def order : List (ParameterNode V) :=
  sig.posonly.map .parameter ++ sig.posOrKw.map .parameter ++
    sig.vararg.toList.map .varargs ++ sig.kwonly.map .parameter ++
    sig.kwarg.toList.map .kwargs

def nPositional : Nat := sig.posonly.length + sig.posOrKw.length

/-- The index of the first keyword-only parameter. -/
def firstKwonlyIdx : Nat :=
  sig.posonly.length + sig.posOrKw.length +
    if sig.vararg.isSome then 1 else 0

theorem length_toList_vararg :
    sig.vararg.toList.length = if sig.vararg.isSome then 1 else 0 := by
  cases sig.vararg <;> rfl

theorem length_order :
    sig.order.length =
      sig.firstKwonlyIdx + sig.kwonly.length + sig.kwarg.toList.length := by
  simp only [order, List.length_append, List.length_map, firstKwonlyIdx,
    length_toList_vararg]

theorem nPositional_le_firstKwonlyIdx :
    sig.nPositional ≤ sig.firstKwonlyIdx := Nat.le_add_right _ _

theorem getElem?_order_positional {i : Nat} (h : i < sig.nPositional) :
    sig.order[i]? = ((sig.posonly ++ sig.posOrKw)[i]?).map .parameter := by
  have hLength : i < (sig.posonly.map ParameterNode.parameter ++
      sig.posOrKw.map ParameterNode.parameter).length := by
    simp only [List.length_append, List.length_map]
    exact h
  rw [order, List.append_assoc, List.append_assoc,
    List.getElem?_append_left hLength, ← List.map_append, List.getElem?_map]

theorem getElem?_order_vararg {name : String} (h : sig.vararg = some name) :
    sig.order[sig.nPositional]? = some (.varargs name) := by
  have hLength : (sig.posonly.map ParameterNode.parameter ++
      sig.posOrKw.map ParameterNode.parameter).length = sig.nPositional := by
    simp only [List.length_append, List.length_map, nPositional]
  rw [order, List.append_assoc, List.append_assoc,
    List.getElem?_append_right (Nat.le_of_eq hLength), hLength, Nat.sub_self,
    h]
  rfl

theorem getElem?_order_kwonly {j : Nat} (h : j < sig.kwonly.length) :
    sig.order[sig.firstKwonlyIdx + j]? = (sig.kwonly[j]?).map .parameter := by
  have hLength : (sig.posonly.map ParameterNode.parameter ++
      sig.posOrKw.map ParameterNode.parameter ++
      sig.vararg.toList.map ParameterNode.varargs).length = sig.firstKwonlyIdx := by
    simp only [List.length_append, List.length_map, firstKwonlyIdx,
      length_toList_vararg]
  rw [order, List.append_assoc, List.getElem?_append_right (by omega), hLength,
    Nat.add_sub_cancel_left, List.getElem?_append_left (by simpa using h),
    List.getElem?_map]

theorem getElem?_order_kwarg {name : String} (h : sig.kwarg = some name) :
    sig.order[sig.firstKwonlyIdx + sig.kwonly.length]? =
      some (.kwargs name) := by
  have hLength : (sig.posonly.map ParameterNode.parameter ++
      sig.posOrKw.map ParameterNode.parameter ++
      sig.vararg.toList.map ParameterNode.varargs ++
      sig.kwonly.map ParameterNode.parameter).length =
        sig.firstKwonlyIdx + sig.kwonly.length := by
    simp only [List.length_append, List.length_map, firstKwonlyIdx,
      length_toList_vararg]
  rw [order, List.getElem?_append_right (Nat.le_of_eq hLength), hLength,
    Nat.sub_self, h]
  rfl

/-- An index is in the positional group, the `*args` slot, the keyword-only
group or the `**kwargs` slot. -/
theorem order_cases {i : Nat} (h : i < sig.order.length) :
    i < sig.nPositional ∨
      (i = sig.nPositional ∧ sig.vararg.isSome = true) ∨
      (∃ j, j < sig.kwonly.length ∧ i = sig.firstKwonlyIdx + j) ∨
      (i = sig.firstKwonlyIdx + sig.kwonly.length ∧
        sig.kwarg.isSome = true) := by
  have hFirst : sig.firstKwonlyIdx =
      sig.nPositional + if sig.vararg.isSome then 1 else 0 := rfl
  rw [length_order] at h
  by_cases hPositional : i < sig.nPositional
  · exact Or.inl hPositional
  · right
    by_cases hBefore : i < sig.firstKwonlyIdx
    · left
      cases hVararg : sig.vararg.isSome with
      | true =>
          rw [hFirst, hVararg, if_pos rfl] at hBefore
          exact ⟨by omega, rfl⟩
      | false =>
          rw [hFirst, hVararg, if_neg Bool.false_ne_true] at hBefore
          omega
    · right
      by_cases hKwonly : i < sig.firstKwonlyIdx + sig.kwonly.length
      · exact Or.inl ⟨i - sig.firstKwonlyIdx, by omega, by omega⟩
      · right
        cases hKwarg : sig.kwarg with
        | none =>
            rw [hKwarg] at h
            simp only [Option.toList_none, List.length_nil] at h
            omega
        | some name =>
            rw [hKwarg] at h
            simp only [Option.toList_some, List.length_singleton] at h
            exact ⟨by omega, rfl⟩

/-- The default of the parameter at an index. -/
def defaultAt (i : Nat) : Option V := (sig.order[i]?).bind (·.default)

theorem lt_length_of_defaultAt {i : Nat} {v : V}
    (h : sig.defaultAt i = some v) : i < sig.order.length := by
  by_contra hLe
  rw [defaultAt, List.getElem?_eq_none (Nat.not_lt.mp hLe)] at h
  exact nomatch h

end ParameterSignature

namespace ParameterSignature

variable {sig : ParameterSignature V}

theorem firstKwonlyIdx_of_vararg (h : sig.vararg.isSome = true) :
    sig.firstKwonlyIdx = sig.nPositional + 1 := by
  rw [firstKwonlyIdx, h]
  rfl

theorem length_order_of_kwarg (h : sig.kwarg.isSome = true) :
    sig.order.length = sig.firstKwonlyIdx + sig.kwonly.length + 1 := by
  obtain ⟨name, hName⟩ := Option.isSome_iff_exists.mp h
  rw [length_order, hName]
  rfl

theorem defaultAt_vararg (h : sig.vararg.isSome = true) :
    sig.defaultAt sig.nPositional = none := by
  obtain ⟨name, hName⟩ := Option.isSome_iff_exists.mp h
  rw [defaultAt, sig.getElem?_order_vararg hName]
  rfl

theorem defaultAt_kwarg (h : sig.kwarg.isSome = true) :
    sig.defaultAt (sig.firstKwonlyIdx + sig.kwonly.length) = none := by
  obtain ⟨name, hName⟩ := Option.isSome_iff_exists.mp h
  rw [defaultAt, sig.getElem?_order_kwarg hName]
  rfl

end ParameterSignature

/-! ## Code generation -/

/-- `parameter_sequence_has_required_parameter`. -/
def parameterSequenceHasRequiredParameter (ps : List (Parameter V)) : Bool :=
  ps.any (·.default.isNone)

/-- `codegen_function`: the signature and the keyword-bindable names, before
the defaults are known. -/
def codegenFunction (sig : ParameterSignature V) : CodeObject where
  functionSignature :=
    { nParameters := sig.order.length
      nPositionalParameters := sig.posonly.length + sig.posOrKw.length
      nPosonlyParameters := sig.posonly.length
      nPosOrKwParameters := sig.posOrKw.length
      nKwonlyParameters := sig.kwonly.length
      hasRequiredKeywordOnlyParameters :=
        parameterSequenceHasRequiredParameter sig.kwonly
      hasVarargs := sig.vararg.isSome
      hasKwargs := sig.kwarg.isSome }
  functionKeywordRemap :=
    (sig.posOrKw.mapIdx fun i p => (p.name, sig.posonly.length + i)) ++
      sig.kwonly.mapIdx fun i p => (p.name, sig.firstKwonlyIdx + i)

/-- `first_default_parameter_index`; the number of parameters when there is no
default. -/
def firstDefaultParameterIndex (order : List (ParameterNode V)) : Nat :=
  order.findIdx ParameterNode.hasDefault

/-- `last_default_parameter_index`, which searches from the end. -/
def lastDefaultParameterIndex (order : List (ParameterNode V)) : Nat :=
  let offset := order.reverse.findIdx ParameterNode.hasDefault
  if offset < order.length then order.length - offset - 1 else order.length

/-- The mask of the slots with a default, of which the first is `i`. -/
def presenceMask : List (ParameterNode V) → Nat → BitVec 64 → BitVec 64
  | [], _, mask => mask
  | node :: rest, i, mask =>
      presenceMask rest (i + 1)
        (if node.hasDefault then mask ||| (1#64 <<< i) else mask)

/-- `codegen_function_definition`: the function object a definition creates.
Slots of the span without a default hold `None`. -/
def codegenFunctionDefinition (noneValue : V) (sig : ParameterSignature V) :
    Except (String × String) (Function V) :=
  let code := codegenFunction sig
  let firstDefaultIdx := firstDefaultParameterIndex sig.order
  if firstDefaultIdx = sig.order.length then .ok { codeObject := code }
  else
    let lastDefaultIdx := lastDefaultParameterIndex sig.order
    let defaultSpanSize := lastDefaultIdx - firstDefaultIdx + 1
    if defaultSpanSize > 64 then
      .error ("SyntaxError", "default parameter span exceeds mask capacity")
    else
      let span := (sig.order.drop firstDefaultIdx).take defaultSpanSize
      .ok
        { codeObject :=
            { code with
              functionSignature :=
                { code.functionSignature with
                  firstDefaultSlot := firstDefaultIdx
                  defaultPresenceMask := presenceMask span 0 0 } }
          defaultParameters :=
            some (span.map fun node => node.default.getD noneValue) }

theorem presenceMask_getLsbD {nodes : List (ParameterNode V)} :
    ∀ {i : Nat} {mask : BitVec 64} {d : Nat}, d < 64 →
      (presenceMask nodes i mask).getLsbD d =
        (mask.getLsbD d ||
          (decide (i ≤ d) &&
            ((nodes[d - i]?).bind (·.default)).isSome)) := by
  induction nodes with
  | nil =>
      intro i mask d _
      simp [presenceMask]
  | cons node rest ih =>
      intro i mask d hd
      rw [presenceMask, ih hd]
      have hBit : (1#64 <<< i).getLsbD d = decide (i = d) := by
        rw [← BitVec.twoPow_eq, BitVec.getLsbD_twoPow]
        by_cases hEq : i = d
        · simp [hEq, hd]
        · simp [hEq]
      rcases Nat.lt_trichotomy i d with hLt | rfl | hGt
      · have hSub : d - i = d - (i + 1) + 1 := by omega
        have hNe : i ≠ d := by omega
        rw [hSub, List.getElem?_cons_succ]
        cases node.hasDefault <;>
          simp [hBit, hNe, hLt.le, Nat.succ_le_of_lt hLt]
      · rw [Nat.sub_self, List.getElem?_cons_zero]
        cases hSome : node.hasDefault with
        | true =>
            have hDefault : node.default.isSome = true := hSome
            simp [hBit, hDefault]
        | false =>
            have hDefault : node.default = none := Option.not_isSome_iff_eq_none.mp
              (Bool.eq_false_iff.mp hSome)
            simp [hDefault]
      · have hNe : i ≠ d := by omega
        have hLe : ¬ i ≤ d := by omega
        have hSucc : ¬ i + 1 ≤ d := by omega
        cases node.hasDefault <;> simp [hBit, hNe, hLe, hSucc]

end CloverVM.Compiler.FunctionDefinition
