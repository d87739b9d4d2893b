import CloverVM.Bytecode.Frame
import CloverVM.Runtime.ArgumentBinding
import CloverVM.Runtime.BuiltinException

/-!
# Entering a function's frame

A caller leaves the positional arguments of a call where the parameters of the
new frame begin and the keyword values above them.  Entering the frame fills
in defaults over their whole span, then `*args`, then `**kwargs`, then the
keyword values.
-/

namespace CloverVM.Runtime.CallEntry

open CloverVM.Bytecode.Frame
open CloverVM.ObjectModel
open CloverVM.Compiler.FunctionDefinition
open CloverVM.Runtime.ArgumentBinding

variable {V : Type}

/-- The tuples and dicts a call creates. -/
structure Objects (V : Type) where
  makeTuple : List V → V
  makeDict : List (String × V) → V

/-- A frame that has been entered, with the stack by offset from the caller's
frame pointer. -/
structure Entered (V : Type) where
  codeObject : CodeObject
  newFp : Int
  slots : Slots V

/-- What the new frame's code reads as a parameter. -/
def Entered.parameter (e : Entered V) (i : Nat) : V :=
  e.slots (e.newFp +
    encodeReg
      (roundUpToAbiAlignment e.codeObject.functionSignature.nParameters) i)

inductive FunctionCallAdaptation where
  | fixedArity
  | defaultable
  | full
deriving DecidableEq, Repr

/-- `is_fixed_arity_function`. -/
def isFixedArityFunction (f : Function V) : Bool :=
  !f.signature.hasVarargs && !f.signature.hasKwargs &&
    decide (f.minPositionalArity = f.maxPositionalArity)

/-- `function_call_adaptation_for_positional_call`. -/
def functionCallAdaptationForPositionalCall (f : Function V) (nArgs : Nat) :
    FunctionCallAdaptation :=
  if f.signature.hasVarargs || f.signature.hasKwargs then .full
  else if f.defaultParameters.isSome then
    if nArgs = f.signature.nParameters then .fixedArity else .defaultable
  else if isFixedArityFunction f then .fixedArity
  else .defaultable

/-- The adaptation of `populate_keyword_call_cache_with_guard`. -/
def functionCallAdaptationForKeywordCall (f : Function V) :
    FunctionCallAdaptation :=
  if f.signature.hasVarargs || f.signature.hasKwargs then .full
  else if f.defaultParameters.isSome then .defaultable
  else if isFixedArityFunction f then .fixedArity
  else .defaultable

section Enter

variable (objects : Objects V) (header : FrameHeader V) (f : Function V)
  (firstArgReg : Int)

/-- The slot a store to `new_fp[encode_reg(i)]` writes. -/
def slotOf (i : Nat) : Int :=
  parameterSlot f.signature.nParameters firstArgReg i

/-- Store values in the parameters from an index on. -/
def fillParameters : List V → Nat → Slots V → Slots V
  | [], _, slots => slots
  | v :: vs, i, slots =>
      fillParameters vs (i + 1) (store slots (slotOf f firstArgReg i) v)

/-- `initialize_default_parameters_from_slot`: the defaults of the span from a
slot on. -/
def initializeDefaultParametersFromSlot (defaultFillStartSlot : Nat)
    (slots : Slots V) : Slots V :=
  match f.defaultParameters with
  | none => slots
  | some defaults =>
      let firstDefaultSlot := f.signature.firstDefaultSlot
      let start :=
        if defaultFillStartSlot < firstDefaultSlot then firstDefaultSlot
        else defaultFillStartSlot
      fillParameters f firstArgReg (defaults.drop (start - firstDefaultSlot))
        start slots

/-- `initialize_missing_default_arguments`. -/
def initializeMissingDefaultArguments (nArgs : Nat) (slots : Slots V) :
    Slots V :=
  initializeDefaultParametersFromSlot f firstArgReg
    (if nArgs < f.signature.nPositionalParameters then nArgs
      else f.signature.nPositionalParameters) slots

/-- `make_varargs_argument`: the arguments after the positional parameters,
which lie below their slots. -/
def makeVarargsArgument (nArgs : Nat) (slots : Slots V) : V :=
  let nPositional := f.signature.nPositionalParameters
  let nExtraArgs := if nArgs > nPositional then nArgs - nPositional else 0
  objects.makeTuple
    ((List.range nExtraArgs).map fun idx : Nat =>
      slots (slotOf f firstArgReg nPositional - idx))

def storeVarargsArgument (tuple : V) (slots : Slots V) : Slots V :=
  store slots (slotOf f firstArgReg f.signature.nPositionalParameters) tuple

/-- `store_kwargs_argument`: the last parameter. -/
def storeKwargsArgument (dict : V) (slots : Slots V) : Slots V :=
  store slots (slotOf f firstArgReg (f.signature.nParameters - 1)) dict

/-- The stores of the full adaptation before any keyword value: the tuple is
made before the defaults overwrite the surplus arguments. -/
def adaptFully (nArgs defaultFillStartSlot : Nat) (slots : Slots V) :
    Slots V :=
  let varargsTuple := makeVarargsArgument objects f firstArgReg nArgs slots
  let slots :=
    initializeDefaultParametersFromSlot f firstArgReg defaultFillStartSlot
      slots
  let slots :=
    if f.signature.hasVarargs then
      storeVarargsArgument f firstArgReg varargsTuple slots
    else slots
  if f.signature.hasKwargs then
    storeKwargsArgument f firstArgReg (objects.makeDict []) slots
  else slots

/-- `invoke_function_at_new_fp`. -/
def invokeFunctionAtNewFp (slots : Slots V) : Entered V :=
  let newFp :=
    newFramePointerFromFirstArg
      (roundUpToAbiAlignment f.signature.nParameters) firstArgReg
  { codeObject := f.codeObject
    newFp := newFp
    slots := initializeFrameHeader slots newFp header }

/-- The stores of `enter_function_frame_from_positional_args`. -/
def adaptPositionalCall (adaptation : FunctionCallAdaptation) (nArgs : Nat)
    (slots : Slots V) : Slots V :=
  match adaptation with
  | .fixedArity => slots
  | .defaultable =>
      initializeMissingDefaultArguments f firstArgReg nArgs slots
  | .full =>
      adaptFully objects f firstArgReg nArgs
        (if nArgs < f.signature.nPositionalParameters then nArgs
          else f.signature.nPositionalParameters) slots

/-- `enter_function_frame_from_positional_args`. -/
def enterFunctionFrameFromPositionalArgs (nArgs : Nat)
    (adaptation : FunctionCallAdaptation) (slots : Slots V) : Entered V :=
  invokeFunctionAtNewFp header f firstArgReg
    (adaptPositionalCall objects f firstArgReg adaptation nArgs slots)

/-- The stores of `enter_function_frame_from_keyword_args` before the keyword
values. -/
def adaptKeywordCall (adaptation : FunctionCallAdaptation)
    (nPosArgs defaultFillStartSlot : Nat) (slots : Slots V) : Slots V :=
  match adaptation with
  | .full =>
      adaptFully objects f firstArgReg nPosArgs defaultFillStartSlot slots
  | .defaultable =>
      initializeDefaultParametersFromSlot f firstArgReg defaultFillStartSlot
        slots
  | .fixedArity => slots

/-- The destination of a keyword that no parameter takes. -/
def keywordDestKwargsDict : Int := 0

/-- Store the keyword values, or collect those for `**kwargs`. -/
def storeKeywords (collects : Bool) (newFp firstKwValueReg : Int) :
    List Int → List String → Nat → Slots V → List (String × V) →
      Slots V × List (String × V)
  | dest :: dests, name :: names, kwIdx, slots, dict =>
      let value := slots (firstKwValueReg - kwIdx)
      if collects && decide (dest = keywordDestKwargsDict) then
        storeKeywords collects newFp firstKwValueReg dests names (kwIdx + 1)
          slots (dict ++ [(name, value)])
      else
        storeKeywords collects newFp firstKwValueReg dests names (kwIdx + 1)
          (store slots (newFp + dest) value) dict
  | _, _, _, slots, dict => (slots, dict)

/-- `enter_function_frame_from_keyword_args`.  The slot of `**kwargs` holds
the dict throughout, with the items inserted so far. -/
def enterFunctionFrameFromKeywordArgs (adaptation : FunctionCallAdaptation)
    (defaultFillStartSlot : Nat) (keywordDestRegs : List Int)
    (keywordNames : List String) (nPosArgs : Nat) (firstKwValueReg : Int)
    (slots : Slots V) : Entered V :=
  let slots :=
    adaptKeywordCall objects f firstArgReg adaptation nPosArgs
      defaultFillStartSlot slots
  let collects := decide (adaptation = .full) && f.signature.hasKwargs
  let newFp :=
    newFramePointerFromFirstArg
      (roundUpToAbiAlignment f.signature.nParameters) firstArgReg
  let (slots, dict) :=
    storeKeywords collects newFp firstKwValueReg keywordDestRegs keywordNames
      0 slots []
  let slots :=
    if collects then
      storeKwargsArgument f firstArgReg (objects.makeDict dict) slots
    else slots
  invokeFunctionAtNewFp header f firstArgReg slots

end Enter

/-! ## Resolving keywords -/

section Resolve

variable (f : Function V)

/-- The parameter a keyword of a call names. -/
def namedParameter (name : String) : Option Nat :=
  match remapIndex f.codeObject.functionKeywordRemap name with
  | none => none
  | some parameterIdx =>
      if parameterIdx ≥ f.signature.nParameters then none
      else some parameterIdx

/-- The keyword loop of `build_and_populate_keyword_call_cache`: the register
of each keyword and the parameters filled. -/
def resolveKeywords : List String → List String → (Nat → Bool) →
    Except BuiltinException (List Int × (Nat → Bool))
  | [], _, filled => .ok ([], filled)
  | name :: names, previous, filled =>
      if name ∈ previous then
        .error ⟨"TypeError", "invalid keyword argument"⟩
      else
        match namedParameter f name with
        | none =>
            if f.signature.hasKwargs then
              match resolveKeywords names (name :: previous) filled with
              | .ok (dests, filled) =>
                  .ok (keywordDestKwargsDict :: dests, filled)
              | .error e => .error e
            else .error ⟨"TypeError", "invalid keyword argument"⟩
        | some parameterIdx =>
            if filled parameterIdx then
              .error ⟨"TypeError", "invalid keyword argument"⟩
            else
              match resolveKeywords names (name :: previous)
                (fun i => decide (i = parameterIdx) || filled i) with
              | .ok (dests, filled) =>
                  .ok (encodeReg
                    (roundUpToAbiAlignment f.signature.nParameters)
                    parameterIdx :: dests, filled)
              | .error e => .error e

/-- A parameter that is neither filled nor has a default. -/
def missingParameter (filled : Nat → Bool) : Bool :=
  (List.range f.signature.nParameters).any fun parameterIdx =>
    !(f.signature.hasVarargs &&
        decide (parameterIdx = f.signature.nPositionalParameters)) &&
      !(f.signature.hasKwargs &&
        decide (parameterIdx = f.signature.nParameters - 1)) &&
      !filled parameterIdx &&
      !f.signature.hasDefaultForParameter parameterIdx

/-- `build_and_populate_keyword_call_cache`: where the default fill starts and
the register of each keyword. -/
def buildKeywordCall (names : List String) (nPosArgs : Nat) :
    Except BuiltinException (Nat × List Int) :=
  let nPositional := f.signature.nPositionalParameters
  if nPosArgs > nPositional ∧ f.signature.hasVarargs = false then
    .error ⟨"TypeError", "wrong number of arguments"⟩
  else
    let nFilledByPosition :=
      if nPosArgs < nPositional then nPosArgs else nPositional
    match resolveKeywords f names [] (fun i => decide (i < nFilledByPosition))
      with
    | .error e => .error e
    | .ok (dests, filled) =>
        if missingParameter f filled then
          .error ⟨"TypeError", "wrong number of arguments"⟩
        else
          .ok
            (if nFilledByPosition > f.signature.firstDefaultSlot then
                nFilledByPosition
              else f.signature.firstDefaultSlot, dests)

end Resolve

/-! ## What entering a frame leaves in its parameters -/

/-- Values in consecutive slots from a register down. -/
def Placed (values : List V) (firstReg : Int) (slots : Slots V) : Prop :=
  ∀ (i : Nat) (v : V), values[i]? = some v → slots (firstReg - i) = v

section Slots

variable {objects : Objects V} {f : Function V} {firstArgReg : Int}

theorem slotOf_eq (hn : f.signature.nParameters ≤ 124) {i : Nat}
    (hi : i < f.signature.nParameters) :
    slotOf f firstArgReg i = firstArgReg - i := parameterSlot_eq _ hn hi

/-- A slot that no store of the range reaches keeps its value. -/
theorem fillParameters_of_ne (hn : f.signature.nParameters ≤ 124) :
    ∀ {vs : List V} {start : Nat} {slots : Slots V} {s : Int},
      start + vs.length ≤ f.signature.nParameters →
      (∀ i, start ≤ i → i < start + vs.length → s ≠ firstArgReg - i) →
      fillParameters f firstArgReg vs start slots s = slots s := by
  intro vs
  induction vs with
  | nil =>
      intro start slots s _ _
      rfl
  | cons v vs ih =>
      intro start slots s hInside hNe
      rw [List.length_cons] at hInside hNe
      rw [fillParameters,
        ih (by omega) fun i hLow hHigh => hNe i (by omega) (by omega)]
      refine store_of_ne ?_
      rw [slotOf_eq hn (by omega)]
      exact hNe start (Nat.le_refl _) (by omega)

theorem fillParameters_getElem (hn : f.signature.nParameters ≤ 124) :
    ∀ {vs : List V} {start : Nat} {slots : Slots V} {j : Nat} {v : V},
      start + vs.length ≤ f.signature.nParameters → vs[j]? = some v →
      fillParameters f firstArgReg vs start slots
        (firstArgReg - (start + j : Nat)) = v := by
  intro vs
  induction vs with
  | nil =>
      intro start slots j v _ hv
      exact nomatch hv
  | cons w vs ih =>
      intro start slots j v hInside hv
      rw [List.length_cons] at hInside
      rw [fillParameters]
      cases j with
      | zero =>
          rw [List.getElem?_cons_zero] at hv
          rw [fillParameters_of_ne hn (by omega)
            fun i hLow hHigh => by omega, slotOf_eq hn (by omega)]
          exact (store_self _ _ _).trans (Option.some.inj hv)
      | succ j =>
          rw [List.getElem?_cons_succ] at hv
          have hIndex : start + (j + 1) = start + 1 + j := by omega
          rw [hIndex]
          exact ih (by omega) hv

theorem fillStart_eq_max (start first : Nat) :
    (if start < first then first else start) = max start first := by
  split <;> omega

variable {sig : ParameterSignature V}

/-- The fill starts no earlier than asked. -/
theorem initializeDefaults_of_lt (hf : Implements f sig)
    (hn : f.signature.nParameters ≤ 124) {start : Nat} {slots : Slots V}
    {s : Int} (h : ∀ i, start ≤ i → i < f.signature.nParameters →
      s ≠ firstArgReg - i) :
    initializeDefaultParametersFromSlot f firstArgReg start slots s =
      slots s := by
  rw [initializeDefaultParametersFromSlot]
  cases hDefaults : f.defaultParameters with
  | none => rfl
  | some defaults =>
      have hInside := hf.spanInside defaults hDefaults
      rw [← hf.nParameters] at hInside
      simp only [fillStart_eq_max]
      by_cases hStart : max start f.signature.firstDefaultSlot -
          f.signature.firstDefaultSlot ≤ defaults.length
      · refine fillParameters_of_ne hn ?_ fun i hLow hHigh =>
          h i (by omega) ?_
        · rw [List.length_drop]
          omega
        · rw [List.length_drop] at hHigh
          omega
      · rw [List.drop_eq_nil_of_le (by omega)]
        rfl

/-- A parameter from the start on that has a default gets it. -/
theorem initializeDefaults_default (hf : Implements f sig)
    (hn : f.signature.nParameters ≤ 124) {start i : Nat} {slots : Slots V}
    {v : V} (hStart : start ≤ i) (hDefault : sig.defaultAt i = some v) :
    initializeDefaultParametersFromSlot f firstArgReg start slots
      (firstArgReg - i) = v := by
  obtain ⟨defaults, hDefaults, hItem⟩ := hf.default hDefault
  have hInside := hf.spanInside defaults hDefaults
  rw [← hf.nParameters] at hInside
  have hFirst : f.signature.firstDefaultSlot ≤ i := by
    have hHas := hf.hasDefault i
    rw [hDefault] at hHas
    exact ((FunctionSignature.hasDefaultForParameter_iff _ _).mp hHas).1
  have hLt := (List.getElem?_eq_some_iff.mp hItem).1
  rw [initializeDefaultParametersFromSlot, hDefaults]
  simp only [fillStart_eq_max]
  -- the index of the parameter within the part of the span that is stored
  have hIndex : i = max start f.signature.firstDefaultSlot +
      (i - max start f.signature.firstDefaultSlot) := by omega
  rw [hIndex]
  refine fillParameters_getElem hn ?_ ?_
  · rw [List.length_drop]
    omega
  · rw [List.getElem?_drop]
    have hSame : max start f.signature.firstDefaultSlot -
        f.signature.firstDefaultSlot +
          (i - max start f.signature.firstDefaultSlot) =
            i - f.signature.firstDefaultSlot := by omega
    rw [hSame]
    exact hItem

/-- The slots of `*args` and `**kwargs`. -/
theorem slotOf_varargs (hf : Implements f sig)
    (hn : f.signature.nParameters ≤ 124)
    (h : f.signature.hasVarargs = true) :
    slotOf f firstArgReg f.signature.nPositionalParameters =
      firstArgReg - sig.nPositional := by
  rw [hf.hasVarargs] at h
  have hFirst := ParameterSignature.firstKwonlyIdx_of_vararg h
  have hLength := sig.length_order
  rw [hf.nPositional, slotOf_eq hn (by rw [hf.nParameters]; omega)]

theorem slotOf_kwargs (hf : Implements f sig)
    (hn : f.signature.nParameters ≤ 124)
    (h : f.signature.hasKwargs = true) :
    slotOf f firstArgReg (f.signature.nParameters - 1) =
      firstArgReg - (sig.firstKwonlyIdx + sig.kwonly.length : Nat) := by
  rw [hf.hasKwargs] at h
  have hLength := ParameterSignature.length_order_of_kwarg h
  have hCount := hf.nParameters
  rw [slotOf_eq hn (by omega)]
  omega

/-- Away from those two slots only the defaults are stored. -/
theorem adaptFully_of_ne (hf : Implements f sig)
    (hn : f.signature.nParameters ≤ 124) {nArgs start : Nat}
    {slots : Slots V} {s : Int}
    (hVarargs : sig.vararg.isSome = true → s ≠ firstArgReg - sig.nPositional)
    (hKwargs : sig.kwarg.isSome = true →
      s ≠ firstArgReg - (sig.firstKwonlyIdx + sig.kwonly.length : Nat)) :
    adaptFully objects f firstArgReg nArgs start slots s =
      initializeDefaultParametersFromSlot f firstArgReg start slots s := by
  have hTuple : ∀ (v : V) (slots : Slots V),
      (if f.signature.hasVarargs then
        storeVarargsArgument f firstArgReg v slots else slots) s =
          slots s := by
    intro v slots
    split
    · rename_i h
      rw [storeVarargsArgument, slotOf_varargs hf hn h]
      exact store_of_ne (hVarargs (hf.hasVarargs ▸ h))
    · rfl
  simp only [adaptFully]
  split
  · rename_i h
    rw [storeKwargsArgument, slotOf_kwargs hf hn h,
      store_of_ne (hKwargs (hf.hasKwargs ▸ h)), hTuple]
  · rw [hTuple]

/-- The full adaptation keeps the positional arguments. -/
theorem adaptFully_filled (hf : Implements f sig)
    (hn : f.signature.nParameters ≤ 124) {nArgs start i : Nat}
    {slots : Slots V} (hStart : i < start) (hi : i < sig.nPositional) :
    adaptFully objects f firstArgReg nArgs start slots (firstArgReg - i) =
      slots (firstArgReg - i) := by
  have hLe := sig.nPositional_le_firstKwonlyIdx
  rw [adaptFully_of_ne hf hn (fun _ => by omega) (fun _ => by omega)]
  exact initializeDefaults_of_lt hf hn fun j _ _ => by omega

/-- The full adaptation gives a parameter that is not filled its default. -/
theorem adaptFully_default (hf : Implements f sig)
    (hn : f.signature.nParameters ≤ 124) {nArgs start i : Nat}
    {slots : Slots V} {v : V} (hStart : start ≤ i)
    (hDefault : sig.defaultAt i = some v) :
    adaptFully objects f firstArgReg nArgs start slots (firstArgReg - i) =
      v := by
  rw [adaptFully_of_ne hf hn]
  · exact initializeDefaults_default hf hn hStart hDefault
  · intro h hEq
    have hIndex : i = sig.nPositional := by omega
    rw [hIndex, ParameterSignature.defaultAt_vararg h] at hDefault
    exact nomatch hDefault
  · intro h hEq
    have hIndex : i = sig.firstKwonlyIdx + sig.kwonly.length := by omega
    rw [hIndex, ParameterSignature.defaultAt_kwarg h] at hDefault
    exact nomatch hDefault

/-- Entering a frame stores nothing above its first parameter. -/
theorem adaptFully_above (hf : Implements f sig)
    (hn : f.signature.nParameters ≤ 124) {nArgs start : Nat}
    {slots : Slots V} {s : Int} (hs : firstArgReg < s) :
    adaptFully objects f firstArgReg nArgs start slots s = slots s := by
  rw [adaptFully_of_ne hf hn (fun _ => by omega) (fun _ => by omega)]
  exact initializeDefaults_of_lt hf hn fun j _ _ => by omega

/-- `*args` holds the surplus arguments, which nothing has overwritten when
the tuple is made. -/
theorem adaptFully_varargs (hf : Implements f sig)
    (hn : f.signature.nParameters ≤ 124) (h : sig.vararg.isSome = true)
    {positional : List V} {start : Nat} {slots : Slots V}
    (hArgs : Placed positional firstArgReg slots) :
    adaptFully objects f firstArgReg positional.length start slots
        (firstArgReg - sig.nPositional) =
      objects.makeTuple (positional.drop sig.nPositional) := by
  have hHas : f.signature.hasVarargs = true := hf.hasVarargs.trans h
  have hTuple : makeVarargsArgument objects f firstArgReg positional.length
      slots = objects.makeTuple (positional.drop sig.nPositional) := by
    simp only [makeVarargsArgument, slotOf_varargs hf hn hHas]
    congr 1
    refine List.ext_getElem? fun j => ?_
    rw [List.getElem?_map, List.getElem?_drop, hf.nPositional]
    by_cases hj : sig.nPositional + j < positional.length
    · rw [List.getElem?_range (by split <;> omega), Option.map_some,
        List.getElem?_eq_getElem hj]
      rw [← hArgs (sig.nPositional + j) _ (List.getElem?_eq_getElem hj)]
      congr 2
      omega
    · rw [List.getElem?_eq_none (Nat.not_lt.mp hj),
        List.getElem?_eq_none]
      · rfl
      · rw [List.length_range]
        split <;> omega
  simp only [adaptFully, hHas, if_true, hTuple]
  split
  · rename_i hKwargs
    have hFirst := ParameterSignature.firstKwonlyIdx_of_vararg h
    rw [storeKwargsArgument, slotOf_kwargs hf hn hKwargs,
      store_of_ne (by omega), storeVarargsArgument,
      slotOf_varargs hf hn hHas, store_self]
  · rw [storeVarargsArgument, slotOf_varargs hf hn hHas, store_self]

end Slots

end CloverVM.Runtime.CallEntry
