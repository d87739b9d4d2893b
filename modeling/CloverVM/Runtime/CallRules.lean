import CloverVM.Runtime.CallSite

/-!
# Calls follow the rules

Every call of a site, whatever its caches hold, binds the arguments as the
rules of the language say for the function it calls, or for the method that
constructs an instance, and raises `TypeError` when they reject the call.
-/

namespace CloverVM.Runtime.CallRules

open CloverVM.Bytecode.Frame
open CloverVM.ObjectModel
open CloverVM.ObjectModel.ClassObject
open CloverVM.Compiler.FunctionDefinition
open CloverVM.Runtime.ArgumentBinding
open CloverVM.Runtime.CallEntry
open CloverVM.Runtime.CallBinding
open CloverVM.Runtime.ConstructorThunk
open CloverVM.Runtime.CallSite

variable {V : Type}

/-- The slots of a call hold these arguments. -/
structure Passes (site : CallSite) (call : Call V) (positional : List V)
    (keywordValues : List V) : Prop where
  nPositional : positional.length = site.nUserArgs
  nKeywords : keywordValues.length = (site.keywordNames.getD []).length
  plain : site.isMethod = false → call.self = none
  userArgs : ∀ (i : Nat) (v : V), positional[i]? = some v →
    call.slots (site.encode (site.userArgReg i)) = v
  keywords : ∀ (k : Nat) (v : V), keywordValues[k]? = some v →
    call.slots (site.encode (site.keywordValueReg k)) = v

/-- The arguments a call passes, with `self` in front. -/
def argumentsOf (site : CallSite) (call : Call V) (positional : List V)
    (keywordValues : List V) : Arguments V where
  positional := call.self.toList ++ positional
  keywords := (site.keywordNames.getD []).zip keywordValues

section Registers

variable {site : CallSite}

theorem le_callFrameReg (padded reg : Nat) : reg ≤ callFrameReg padded reg := by
  rw [callFrameReg]
  split
  · exact Nat.le_refl _
  · exact Nat.le_succ _

/-- A temporary up to the last argument has the offset below the one
before. -/
theorem encode_eq (h : site.Encodable) {reg : Nat}
    (hLow : site.firstTemporary ≤ reg)
    (hHigh : reg ≤ site.userArgReg site.nUserArgs) :
    site.encode reg = registerOffset site.paddedParameters reg := by
  have hRegisters := h.registers
  have hTemporaries := h.temporaries
  rw [frameHeaderSize] at hTemporaries
  rw [registerOffset, frameHeaderSizeAboveFp] at hRegisters
  rw [CallSite.encode, encodeReg_eq]
  · rw [registerOffset, frameHeaderSizeAboveFp]
    omega
  · rw [registerOffset, frameHeaderSizeAboveFp]
    omega

theorem firstTemporary_le_callArgs (site : CallSite) :
    site.firstTemporary + site.nKeywordValueRegs ≤ site.callArgs :=
  le_callFrameReg _ _

/-- The arguments follow each other below the first. -/
theorem encode_userArgReg (h : site.Encodable) {i : Nat}
    (hi : i ≤ site.nUserArgs) :
    site.encode (site.userArgReg i) =
      site.encode site.callArgs - (if site.isMethod then 1 else 0) - i := by
  have hFirst := firstTemporary_le_callArgs site
  rw [encode_eq h, encode_eq h, registerOffset, registerOffset,
    CallSite.userArgReg]
  · split <;> omega
  · omega
  · rw [CallSite.userArgReg]
    omega
  · rw [CallSite.userArgReg]
    omega
  · rw [CallSite.userArgReg, CallSite.userArgReg]
    omega

/-- The keyword values lie above the arguments. -/
theorem encode_keywordValueReg (h : site.Encodable) {k : Nat}
    (hk : k < site.nKeywordValueRegs) :
    site.encode (site.keywordValueReg k) =
        site.encode (site.keywordValueReg 0) - k ∧
      site.encode site.callArgs < site.encode (site.keywordValueReg k) := by
  have hFirst := firstTemporary_le_callArgs site
  have hCallArgs : site.callArgs ≤ site.userArgReg site.nUserArgs := by
    rw [CallSite.userArgReg]
    omega
  have hK : site.keywordValueReg k = site.firstTemporary + k := rfl
  have hZero : site.keywordValueReg 0 = site.firstTemporary := rfl
  rw [hK, hZero, encode_eq h, encode_eq h, encode_eq h, registerOffset,
    registerOffset, registerOffset]
  · omega
  all_goals omega

end Registers

/-! ## Preparing the slots of a method call -/

/-- Shifting the arguments down by one slot. -/
theorem shiftArguments_apply {receiverReg : Int} {slots : Slots V} :
    ∀ {n : Nat},
      let shifted := (List.range n).foldl
        (fun (slots : Slots V) (argIdx : Nat) =>
          store slots (receiverReg - argIdx) (slots (receiverReg - argIdx - 1)))
        slots
      (∀ i : Nat, i < n →
        shifted (receiverReg - i) = slots (receiverReg - i - 1)) ∧
      ∀ s, s ≤ receiverReg - n ∨ receiverReg < s → shifted s = slots s := by
  intro n
  induction n with
  | zero =>
      exact ⟨fun i hi => absurd hi (Nat.not_lt_zero i), fun s _ => rfl⟩
  | succ n ih =>
      obtain ⟨hShifted, hKept⟩ := ih
      simp only [List.range_succ, List.foldl_append, List.foldl_cons,
        List.foldl_nil]
      refine ⟨fun i hi => ?_, fun s hs => ?_⟩
      · by_cases hLast : i = n
        · subst hLast
          rw [store_self]
          exact hKept _ (Or.inl (by omega))
        · rw [store_of_ne (by omega)]
          exact hShifted i (by omega)
      · rw [store_of_ne (by omega)]
        exact hKept s (by omega)

section Prepare

variable {site : CallSite} {call : Call V} {positional keywordValues : List V}

/-- All the arguments follow each other from the first register on. -/
theorem prepareSlots_placed (h : site.Encodable)
    (hPasses : Passes site call positional keywordValues) :
    Placed (call.self.toList ++ positional) (site.encode site.callArgs)
      (prepareSlots site call) := by
  have hUserArg : ∀ (i : Nat) (v : V), positional[i]? = some v →
      call.slots (site.encode site.callArgs -
        (if site.isMethod then 1 else 0) - i) = v := by
    intro i v hv
    have hLt := (List.getElem?_eq_some_iff.mp hv).1
    rw [hPasses.nPositional] at hLt
    rw [← encode_userArgReg h (Nat.le_of_lt hLt)]
    exact hPasses.userArgs i v hv
  intro i v hv
  cases hMethod : site.isMethod with
  | false =>
      have hPlain := hPasses.plain hMethod
      rw [hPlain, Option.toList_none, List.nil_append] at hv
      have hSlot := hUserArg i v hv
      rw [hMethod] at hSlot
      simpa [prepareSlots, hMethod] using hSlot
  | true =>
      simp only [prepareSlots, hMethod, if_true,
        prepareMethodCallArgumentSlots]
      simp only [hMethod, if_true] at hUserArg
      cases hSelf : call.self with
      | some self =>
          rw [hSelf, Option.toList_some, List.singleton_append] at hv
          cases i with
          | zero =>
              rw [List.getElem?_cons_zero] at hv
              have hReg : site.encode site.callArgs - ((0 : Nat) : Int) =
                  site.encode site.callArgs := by omega
              rw [hReg]
              exact (store_self _ _ _).trans (Option.some.inj hv)
          | succ i =>
              rw [List.getElem?_cons_succ] at hv
              have hSlot : site.encode site.callArgs - (i + 1 : Nat) =
                  site.encode site.callArgs - 1 - i := by omega
              rw [hSlot]
              simp only
              rw [store_of_ne (by omega)]
              exact hUserArg i v hv
      | none =>
          rw [hSelf, Option.toList_none, List.nil_append] at hv
          have hLt := (List.getElem?_eq_some_iff.mp hv).1
          rw [hPasses.nPositional] at hLt
          obtain ⟨hShifted, -⟩ := @shiftArguments_apply V
            (site.encode site.callArgs) call.slots site.nUserArgs
          have hSlot : site.encode site.callArgs - i - 1 =
              site.encode site.callArgs - 1 - i := by omega
          refine (hShifted i hLt).trans ?_
          rw [hSlot]
          exact hUserArg i v hv

/-- Preparing the slots stores nothing above the first register. -/
theorem prepareSlots_above {s : Int} (hs : site.encode site.callArgs < s) :
    prepareSlots site call s = call.slots s := by
  rw [prepareSlots]
  split
  · cases call.self with
    | some self => exact store_of_ne (by omega)
    | none =>
        obtain ⟨-, hKept⟩ := @shiftArguments_apply V
          (site.encode site.callArgs) call.slots site.nUserArgs
        exact hKept s (Or.inr hs)
  · rfl

theorem prepareSlots_keywords (h : site.Encodable)
    (hPasses : Passes site call positional keywordValues) :
    Placed keywordValues (site.encode (site.keywordValueReg 0))
        (prepareSlots site call) ∧
      ∀ k < keywordValues.length, site.encode site.callArgs <
        site.encode (site.keywordValueReg 0) - (k : Nat) := by
  have hCount : ∀ k, k < keywordValues.length →
      k < site.nKeywordValueRegs := by
    intro k hk
    rw [hPasses.nKeywords] at hk
    rw [CallSite.nKeywordValueRegs]
    cases hNames : site.keywordNames with
    | none =>
        rw [hNames] at hk
        exact absurd hk (Nat.not_lt_zero k)
    | some names =>
        rw [hNames, Option.getD_some] at hk
        exact Nat.lt_of_lt_of_le hk (Nat.le_max_left _ _)
  constructor
  · intro k v hv
    obtain ⟨hSlot, hAbove⟩ := encode_keywordValueReg h
      (hCount k (List.getElem?_eq_some_iff.mp hv).1)
    rw [← hSlot, prepareSlots_above hAbove]
    exact hPasses.keywords k v hv
  · intro k hk
    obtain ⟨hSlot, hAbove⟩ := encode_keywordValueReg h (hCount k hk)
    rw [← hSlot]
    exact hAbove

theorem length_argumentsOf (hPasses : Passes site call positional keywordValues) :
    (argumentsOf site call positional keywordValues).positional.length =
      nArgsOf site call := by
  rw [argumentsOf, List.length_append, hPasses.nPositional, nArgsOf,
    Nat.add_comm]
  cases call.self with
  | none => rfl
  | some self => rfl

theorem keywords_argumentsOf (hPasses : Passes site call positional keywordValues) :
    (argumentsOf site call positional keywordValues).keywords.map Prod.fst =
        site.keywordNames.getD [] ∧
      (argumentsOf site call positional keywordValues).keywords.map Prod.snd =
        keywordValues := by
  have hCount := hPasses.nKeywords
  constructor
  · exact List.map_fst_zip (Nat.le_of_eq hCount.symm)
  · exact List.map_snd_zip (Nat.le_of_eq hCount)

end Prepare

/-! ## Functions -/

/-- What the rules say of the result of a call. -/
def FollowsRules (objects : Objects V) (sig : ParameterSignature V)
    (args : Arguments V) :
    Except BuiltinException (Option (Entered V)) → Prop
  | .ok (some e) => Accepts sig args ∧ BindsParameters objects sig args e
  | .ok none => False
  | .error e => ¬ Accepts sig args ∧ e.typeName = "TypeError"

section Functions

variable {m : Machine V} {site : CallSite} {call : Call V}
  {positional keywordValues : List V} {f : Function V}
  {sig : ParameterSignature V}

/-- Cutting the fill start to sixteen bits changes nothing for functions of
this size. -/
theorem adaptKeywordCall_cut (hf : Implements f sig)
    (hn : sig.order.length ≤ 124) {objects : Objects V} {firstArgReg : Int}
    {slots : Slots V} (nPosArgs : Nat) :
    adaptKeywordCall objects f firstArgReg
        (functionCallAdaptationForKeywordCall f) nPosArgs
        (keywordFillStart f sig nPosArgs % 2 ^ 16) slots =
      adaptKeywordCall objects f firstArgReg
        (functionCallAdaptationForKeywordCall f) nPosArgs
        (keywordFillStart f sig nPosArgs) slots := by
  rw [keywordAdaptation_eq, keywordAdaptation_eq]
  cases hDefaults : f.defaultParameters with
  | none =>
      simp only [adaptFully, initializeDefaults_of_none hDefaults]
  | some defaults =>
      have hInside := hf.spanInside defaults hDefaults
      have hLe := sig.nPositional_le_firstKwonlyIdx
      have hLength := sig.length_order
      have hSmall : keywordFillStart f sig nPosArgs < 2 ^ 16 := by
        rw [keywordFillStart]
        omega
      rw [Nat.mod_eq_of_lt hSmall]

theorem enterKeyword_cut (hf : Implements f sig)
    (hn : sig.order.length ≤ 124) {objects : Objects V}
    {header : FrameHeader V} {firstArgReg firstKwValueReg : Int}
    {slots : Slots V} (dests : List Int) (names : List String)
    (nPosArgs : Nat) :
    enterFunctionFrameFromKeywordArgs objects header f firstArgReg
        (functionCallAdaptationForKeywordCall f)
        (keywordFillStart f sig nPosArgs % 2 ^ 16) dests names nPosArgs
        firstKwValueReg slots =
      enterFunctionFrameFromKeywordArgs objects header f firstArgReg
        (functionCallAdaptationForKeywordCall f)
        (keywordFillStart f sig nPosArgs) dests names nPosArgs
        firstKwValueReg slots := by
  simp only [enterFunctionFrameFromKeywordArgs, adaptKeywordCall_cut hf hn]

/-- Entering a function binds every parameter when the rules accept the
arguments. -/
theorem enterFunction_binds (hf : Implements f sig)
    (hn : sig.order.length ≤ 124) (hSite : site.Encodable)
    (hPasses : Passes site call positional keywordValues)
    (hAccepts : Accepts sig
      (argumentsOf site call positional keywordValues)) :
    ∃ e, enterFunction m site f call = .ok e ∧
      e.codeObject = f.codeObject ∧
      BindsParameters m.objects sig
        (argumentsOf site call positional keywordValues) e := by
  have hCount := length_argumentsOf hPasses
  obtain ⟨hNames, hValues⟩ := keywords_argumentsOf hPasses
  have hPlaced := prepareSlots_placed hSite hPasses
  obtain ⟨hKeywords, hAbove⟩ := prepareSlots_keywords hSite hPasses
  have hLimit : f.signature.nParameters ≤ 124 := by rwa [hf.nParameters]
  rw [enterFunction]
  cases hSiteNames : site.keywordNames with
  | none =>
      have hOnly : argumentsOf site call positional keywordValues =
          positionalOnly (call.self.toList ++ positional) := by
        rw [argumentsOf, hSiteNames]
        rfl
      have hLength : (call.self.toList ++ positional).length =
          nArgsOf site call := hCount
      rw [hOnly] at hAccepts ⊢
      have hSmall : (call.self.toList ++ positional).length < 2 ^ 32 := by
        have hFew := hSite.count
        have hBounds := nArgsOf_bounds site call
        omega
      have hArity := (acceptsPositionalOnlyCallArity_iff_accepts hf
        hSmall).mpr hAccepts
      have hBinds := @enterPositional_binds V m.objects m.header f sig
        (site.encode site.callArgs) (prepareSlots site call) hf hLimit _
        hAccepts hPlaced
      rw [hLength] at hArity hBinds
      simp only [hArity, if_true]
      exact ⟨_, rfl, rfl, hBinds⟩
  | some names =>
      rw [hSiteNames, Option.getD_some] at hNames
      have hBuild := buildKeywordCall_of_accepts hf hAccepts
      have hLengths := congrArg List.length hValues
      rw [List.length_map] at hLengths
      rw [← hValues] at hKeywords
      rw [← hLengths] at hAbove
      have hBinds := @enterKeyword_binds V m.objects m.header f sig _
        (site.encode site.callArgs) (prepareSlots site call) hf hLimit
        hAccepts hPlaced _ hKeywords hAbove
      rw [hNames, hCount] at hBuild hBinds
      simp only [hBuild, enterKeyword_cut hf hn]
      exact ⟨_, rfl, rfl, hBinds⟩

/-- A function raises `TypeError` when the rules reject the arguments. -/
theorem enterFunction_rejects (hf : Implements f sig)
    (hSite : site.Encodable)
    (hPasses : Passes site call positional keywordValues)
    (hRejects : ¬ Accepts sig
      (argumentsOf site call positional keywordValues)) :
    ∃ message, enterFunction m site f call =
      .error ⟨"TypeError", message⟩ := by
  have hCount := length_argumentsOf hPasses
  obtain ⟨hNames, -⟩ := keywords_argumentsOf hPasses
  rw [enterFunction]
  cases hSiteNames : site.keywordNames with
  | none =>
      have hOnly : argumentsOf site call positional keywordValues =
          positionalOnly (call.self.toList ++ positional) := by
        rw [argumentsOf, hSiteNames]
        rfl
      have hLength : (call.self.toList ++ positional).length =
          nArgsOf site call := hCount
      rw [hOnly] at hRejects
      have hSmall : (call.self.toList ++ positional).length < 2 ^ 32 := by
        have hFew := hSite.count
        have hBounds := nArgsOf_bounds site call
        omega
      have hArity := (acceptsPositionalOnlyCallArity_iff_accepts hf
        hSmall).not.mpr hRejects
      rw [hLength] at hArity
      exact ⟨_, if_neg hArity⟩
  | some names =>
      obtain ⟨message, hBuild⟩ := buildKeywordCall_of_not_accepts hf hRejects
      rw [hNames, hCount, hSiteNames, Option.getD_some] at hBuild
      simp only [hBuild]
      exact ⟨message, rfl⟩

end Functions

/-! ## Constructors -/

section Constructors

variable [DecidableEq V]

/-- The function of a definition with at most 124 parameters, whose names are
distinct. -/
structure Compiled (f : Function V) (sig : ParameterSignature V) : Prop where
  definition : ∃ noneValue, codegenFunctionDefinition noneValue sig = .ok f
  size : sig.order.length ≤ 124
  names : (keywordNames sig).Nodup

theorem Compiled.implements {f : Function V} {sig : ParameterSignature V}
    (h : Compiled f sig) : Implements f sig := by
  obtain ⟨noneValue, hDefinition⟩ := h.definition
  exact codegenFunctionDefinition_implements hDefinition

/-- The method that constructs the instances of a class, with what it gets in
front of the arguments. -/
def constructorMethod (m : Machine V) (w : World V) (cls : V) :
    Option (Function V × V) :=
  match lookupClassAttribute w cls "__new__",
    lookupClassAttribute w cls "__init__" with
  | some (.function f), none => some (f, cls)
  | none, some (.function f) => some (f, m.newInstance cls)
  | _, _ => none

/-- Neither `__new__` nor `__init__` is found on a class. -/
def HasNoMethod (w : World V) (cls : V) : Prop :=
  lookupClassAttribute w cls "__new__" = none ∧
    lookupClassAttribute w cls "__init__" = none

/-- A keyword names the first parameter of a method with `**kwargs`, whose
thunk takes it for a surplus keyword. -/
def TakesFirstAsKeyword (sig : ParameterSignature V) (args : Arguments V) :
    Prop :=
  sig.kwarg.isSome = true ∧ ¬ NamesNoDropped sig args

variable {m : Machine V} {w : World V} {site : CallSite} {call : Call V}
  {positional keywordValues : List V}

theorem calleeOf_classObject (hClass : m.callable call.callable = .classObject)
    (hMetaclass : (w.classes call.callable).standardMetaclass = true) :
    calleeOf m w call.callable =
      calleeOfConstructor
        (resolveConstructor m.noneValue w call.callable) := by
  rw [calleeOf, hClass]
  simp only [constructorOf, hMetaclass, if_true]

omit [DecidableEq V] in
/-- The constructor of a class with one method is that method's thunk. -/
theorem resolveConstructor_of_method {f : Function V} {first : V} {cls : V}
    (h : constructorMethod m w cls = some (f, first)) :
    ∃ methodName firstParameter code,
      (∀ target : CodeObject, (code target).target (m.newInstance cls) cls =
        some (first, target)) ∧
      resolveConstructor m.noneValue w cls =
        thunkOfAttribute m.noneValue methodName firstParameter code
          (.function f) := by
  rw [constructorMethod] at h
  rw [resolveConstructor]
  cases hNew : lookupClassAttribute w cls "__new__" with
  | none =>
      cases hInit : lookupClassAttribute w cls "__init__" with
      | none =>
          rw [hNew, hInit] at h
          cases h
      | some init =>
          rw [hNew, hInit] at h
          cases init with
          | unsupported => cases h
          | function g =>
              obtain ⟨rfl, rfl⟩ := Prod.mk.inj (Option.some.inj h)
              exact ⟨"__init__", "self", .callInit, fun _ => rfl, rfl⟩
  | some new =>
      cases hInit : lookupClassAttribute w cls "__init__" with
      | some init =>
          rw [hNew, hInit] at h
          cases new <;> cases h
      | none =>
          rw [hNew, hInit] at h
          cases new with
          | unsupported => cases h
          | function g =>
              obtain ⟨rfl, rfl⟩ := Prod.mk.inj (Option.some.inj h)
              exact ⟨"__new__", "cls", .callNew, fun _ => rfl, rfl⟩

/-- Constructing through a thunk follows the rules of the method. -/
theorem constructorCall_followsRules {f : Function V} {first : V}
    {sig : ParameterSignature V}
    (hClass : m.callable call.callable = .classObject)
    (hMetaclass : (w.classes call.callable).standardMetaclass = true)
    (hMethod : constructorMethod m w call.callable = some (f, first))
    (hf : Compiled f sig) (hFirst : 0 < sig.nPositional)
    (hSite : site.Encodable)
    (hPasses : Passes site call positional keywordValues)
    (hKeyword : ¬ TakesFirstAsKeyword sig
      (argumentsOf site call positional keywordValues)) :
    FollowsRules m.objects sig
      (consArgument first (argumentsOf site call positional keywordValues))
      (outcome m site w call) := by
  have hImplements := hf.implements
  have hLength := length_order_dropFirst hFirst
  have hSize := hf.size
  obtain ⟨methodName, firstParameter, code, hCode, hResolve⟩ :=
    resolveConstructor_of_method hMethod
  obtain ⟨thunk, hThunk, hDropped⟩ :=
    @makeConstructorThunkFunction_implements V sig f m.noneValue methodName
      firstParameter hImplements hFirst
  have hCallee : calleeOf m w call.callable =
      .ok ⟨thunk, some (code f.codeObject)⟩ := by
    rw [calleeOf_classObject hClass hMetaclass, hResolve]
    simp only [thunkOfAttribute, hThunk, calleeOfConstructor]
  rw [outcome, hCallee]
  simp only
  by_cases hNames : NamesNoDropped sig
      (argumentsOf site call positional keywordValues)
  · have hIff := accepts_dropFirst_iff first hFirst hNames
    by_cases hAccepts : Accepts (dropFirst sig)
        (argumentsOf site call positional keywordValues)
    · obtain ⟨entered, hEnter, hEntered, hBinds⟩ := @enterFunction_binds V m
        site call positional keywordValues thunk (dropFirst sig) hDropped
        (by omega) hSite hPasses hAccepts
      obtain ⟨e, hRun, hMethodBinds⟩ := @runConstructorThunk_binds V m.header
        (m.newInstance call.callable) call.callable
        ⟨thunk, code f.codeObject⟩ entered m.objects sig _ first f
        (hCode f.codeObject) hEntered hImplements hFirst hDropped hSize
        hNames hBinds
      rw [hEnter]
      simp only [enterCallee, hRun]
      exact ⟨hIff.mp hAccepts, hMethodBinds⟩
    · obtain ⟨message, hEnter⟩ := @enterFunction_rejects V m site call
        positional keywordValues thunk (dropFirst sig) hDropped hSite hPasses
        hAccepts
      rw [hEnter]
      exact ⟨hIff.not.mp hAccepts, rfl⟩
  · have hKwarg : sig.kwarg = none := by
      cases hSome : sig.kwarg with
      | none => rfl
      | some name =>
          exact absurd ⟨by rw [hSome]; rfl, hNames⟩ hKeyword
    obtain ⟨hThunkRejects, hMethodRejects⟩ :=
      not_accepts_of_namesDropped first hFirst hf.names hKwarg hNames
    obtain ⟨message, hEnter⟩ := @enterFunction_rejects V m site call
      positional keywordValues thunk (dropFirst sig) hDropped hSite hPasses
      hThunkRejects
    rw [hEnter]
    exact ⟨hMethodRejects, rfl⟩

/-- A method without a positional parameter cannot construct. -/
theorem constructorCall_of_no_positional {f : Function V} {first : V}
    {sig : ParameterSignature V}
    (hClass : m.callable call.callable = .classObject)
    (hMetaclass : (w.classes call.callable).standardMetaclass = true)
    (hMethod : constructorMethod m w call.callable = some (f, first))
    (hf : Compiled f sig) (hFirst : sig.nPositional = 0) :
    ∃ message, outcome m site w call = .error ⟨"TypeError", message⟩ := by
  obtain ⟨methodName, firstParameter, code, -, hResolve⟩ :=
    resolveConstructor_of_method hMethod
  have hNone := @makeConstructorThunkFunction_of_no_positional V sig f
    m.noneValue methodName firstParameter hf.implements hFirst
  have hCallee : calleeOf m w call.callable = .error ⟨"TypeError",
      methodName ++ " requires a " ++ firstParameter ++ " parameter"⟩ := by
    rw [calleeOf_classObject hClass hMetaclass, hResolve]
    simp only [thunkOfAttribute, hNone, calleeOfConstructor]
  rw [outcome, hCallee]
  exact ⟨_, rfl⟩

omit [DecidableEq V] in
theorem createInstanceThunk_implements :
    Implements (createInstanceThunk : ConstructorFunction V).function {} :=
  @implements_withoutDefaults V {} rfl

omit [DecidableEq V] in
/-- Only an empty call fits a definition without parameters. -/
theorem accepts_empty_iff (args : Arguments V) :
    Accepts ({} : ParameterSignature V) args ↔
      args.positional = [] ∧ args.keywords = [] := by
  constructor
  · intro h
    constructor
    · rcases h.positionals with hFew | hVararg
      · exact List.length_eq_zero_iff.mp (Nat.le_zero.mp hFew)
      · exact nomatch hVararg
    · cases hKeywords : args.keywords with
      | nil => rfl
      | cons kw kws =>
          have hSome := h.expected kw (by rw [hKeywords]; exact
            List.mem_cons_self) rfl
          exact nomatch hSome
  · rintro ⟨hPositional, hKeywords⟩
    refine
      { positionals := Or.inl (by rw [hPositional]; exact Nat.zero_le _)
        distinct := by rw [hKeywords]; exact List.nodup_nil
        expected := fun kw hMem => ?_
        once := fun kw hMem => ?_
        complete := fun i hi => absurd hi (Nat.not_lt_zero i) }
    · rw [hKeywords] at hMem
      exact nomatch hMem
    · rw [hKeywords] at hMem
      exact nomatch hMem

/-- A class with neither method takes no argument. -/
theorem constructorCall_of_noMethod
    (hClass : m.callable call.callable = .classObject)
    (hMetaclass : (w.classes call.callable).standardMetaclass = true)
    (hNone : HasNoMethod w call.callable) (hSite : site.Encodable)
    (hPasses : Passes site call positional keywordValues) :
    let args := argumentsOf site call positional keywordValues
    (args.positional = [] ∧ args.keywords = [] →
      outcome m site w call = .ok none) ∧
    (¬ (args.positional = [] ∧ args.keywords = []) →
      ∃ message, outcome m site w call = .error ⟨"TypeError", message⟩) := by
  intro args
  have hCallee : calleeOf m w call.callable =
      .ok ⟨createInstanceThunk.function, some .createInstance⟩ := by
    rw [calleeOf_classObject hClass hMetaclass, resolveConstructor, hNone.1,
      hNone.2]
    rfl
  rw [outcome, hCallee]
  simp only
  constructor
  · intro hEmpty
    obtain ⟨e, hEnter, -, -⟩ := @enterFunction_binds V m site call positional
      keywordValues createInstanceThunk.function {}
      createInstanceThunk_implements (Nat.zero_le _) hSite hPasses
      ((accepts_empty_iff args).mpr hEmpty)
    rw [hEnter]
    rfl
  · intro hSome
    obtain ⟨message, hEnter⟩ := @enterFunction_rejects V m site call
      positional keywordValues createInstanceThunk.function {}
      createInstanceThunk_implements hSite hPasses
      ((accepts_empty_iff args).not.mpr hSome)
    rw [hEnter]
    exact ⟨message, rfl⟩

omit [DecidableEq V] in
/-- A class whose constructor needs more than a thunk is not callable. -/
theorem constructorCall_of_ineligible
    (hClass : m.callable call.callable = .classObject)
    (h : (w.classes call.callable).standardMetaclass = false ∨
      (constructorMethod m w call.callable = none ∧
        ¬ HasNoMethod w call.callable)) :
    outcome m site w call =
      .error ⟨"TypeError", "object is not callable"⟩ := by
  have hNone : constructorOf m.noneValue w call.callable = .ok none := by
    rw [constructorOf]
    cases hMetaclass : (w.classes call.callable).standardMetaclass with
    | false => rfl
    | true =>
        rcases h with h | ⟨hMethod, hSome⟩
        · rw [hMetaclass] at h
          cases h
        · rw [constructorMethod] at hMethod
          rw [if_pos rfl, resolveConstructor]
          cases hNew : lookupClassAttribute w call.callable "__new__" with
          | none =>
              cases hInit : lookupClassAttribute w call.callable "__init__"
                with
              | none => exact absurd ⟨hNew, hInit⟩ hSome
              | some init =>
                  rw [hNew, hInit] at hMethod
                  cases init with
                  | unsupported => rfl
                  | function f => cases hMethod
          | some new =>
              cases hInit : lookupClassAttribute w call.callable "__init__"
                with
              | some init => rfl
              | none =>
                  rw [hNew, hInit] at hMethod
                  cases new with
                  | unsupported => rfl
                  | function f => cases hMethod
  rw [outcome, calleeOf, hClass]
  simp only [hNone, calleeOfConstructor]

end Constructors

/-! ## Every call of a site -/

section Calls

variable [DecidableEq V]

/-- What the rules say of the result of a call, for each kind of callable. -/
structure CallFollowsRules (m : Machine V) (w : World V) (callable : V)
    (args : Arguments V)
    (result : Except BuiltinException (Option (Entered V))) : Prop where
  function : ∀ f sig, m.callable callable = .function f → Compiled f sig →
    FollowsRules m.objects sig args result
  constructor : ∀ f first sig, m.callable callable = .classObject →
    (w.classes callable).standardMetaclass = true →
    constructorMethod m w callable = some (f, first) → Compiled f sig →
    0 < sig.nPositional → ¬ TakesFirstAsKeyword sig args →
    FollowsRules m.objects sig (consArgument first args) result
  noPositional : ∀ f first sig, m.callable callable = .classObject →
    (w.classes callable).standardMetaclass = true →
    constructorMethod m w callable = some (f, first) → Compiled f sig →
    sig.nPositional = 0 →
    ∃ message, result = .error ⟨"TypeError", message⟩
  noMethod : m.callable callable = .classObject →
    (w.classes callable).standardMetaclass = true →
    HasNoMethod w callable →
    (args.positional = [] ∧ args.keywords = [] → result = .ok none) ∧
    (¬ (args.positional = [] ∧ args.keywords = []) →
      ∃ message, result = .error ⟨"TypeError", message⟩)
  ineligible : m.callable callable = .classObject →
    ((w.classes callable).standardMetaclass = false ∨
      (constructorMethod m w callable = none ∧ ¬ HasNoMethod w callable)) →
    result = .error ⟨"TypeError", "object is not callable"⟩
  notCallable : m.callable callable = .other →
    result = .error ⟨"TypeError", "object is not callable"⟩

variable {m : Machine V} {w : World V} {site : CallSite} {call : Call V}
  {positional keywordValues : List V}

theorem functionCall_followsRules {f : Function V}
    {sig : ParameterSignature V}
    (hCallable : m.callable call.callable = .function f)
    (hf : Compiled f sig) (hSite : site.Encodable)
    (hPasses : Passes site call positional keywordValues) :
    FollowsRules m.objects sig
      (argumentsOf site call positional keywordValues)
      (outcome m site w call) := by
  have hCallee : calleeOf m w call.callable = .ok { function := f } := by
    rw [calleeOf, hCallable]
  rw [outcome, hCallee]
  simp only
  by_cases hAccepts : Accepts sig
      (argumentsOf site call positional keywordValues)
  · obtain ⟨e, hEnter, -, hBinds⟩ := @enterFunction_binds V m site call
      positional keywordValues f sig hf.implements hf.size hSite hPasses
      hAccepts
    rw [hEnter]
    exact ⟨hAccepts, hBinds⟩
  · obtain ⟨message, hEnter⟩ := @enterFunction_rejects V m site call
      positional keywordValues f sig hf.implements hSite hPasses hAccepts
    rw [hEnter]
    exact ⟨hAccepts, rfl⟩

theorem outcome_followsRules (hSite : site.Encodable)
    (hPasses : Passes site call positional keywordValues) :
    CallFollowsRules m w call.callable
      (argumentsOf site call positional keywordValues)
      (outcome m site w call) where
  function _ _ hCallable hf :=
    functionCall_followsRules hCallable hf hSite hPasses
  constructor _ _ _ hClass hMetaclass hMethod hf hFirst hKeyword :=
    constructorCall_followsRules hClass hMetaclass hMethod hf hFirst hSite
      hPasses hKeyword
  noPositional _ _ _ hClass hMetaclass hMethod hf hFirst :=
    constructorCall_of_no_positional hClass hMetaclass hMethod hf hFirst
  noMethod hClass hMetaclass hNone :=
    constructorCall_of_noMethod hClass hMetaclass hNone hSite hPasses
  ineligible hClass h := constructorCall_of_ineligible hClass h
  notCallable hOther := by
    rw [outcome, calleeOf, hOther]

/-- After any writes to classes, other constructions and earlier calls, a call
follows the rules, and does what it would do with empty caches. -/
theorem runCall_followsRules {world : World V} (hWorld : Pristine world)
    (hSite : site.Encodable) (events : List (Event V))
    (hPasses : Passes site call positional keywordValues) :
    let s := run m site world events
    CallFollowsRules m s.world call.callable
        (argumentsOf site call positional keywordValues)
        (runCall m site s call).1 ∧
      (runCall m site s call).1 =
        (runCall m site { world := s.world } call).1 := by
  intro s
  have hInvariant : SiteInvariant m site s :=
    run_siteInvariant hWorld hSite.count events
  have hEmpty : SiteInvariant m site { world := s.world } :=
    { world := hInvariant.world
      functionCache := (fun _ h => nomatch h)
      keywordCache := (fun _ _ h => nomatch h) }
  obtain ⟨hCall, -⟩ := runCall_spec call hInvariant hSite.count
  obtain ⟨hCold, -⟩ := runCall_spec call hEmpty hSite.count
  rw [hCall, hCold]
  exact ⟨outcome_followsRules hSite hPasses, rfl⟩

end Calls

/-! ## Runs on fixed arguments -/

/-- `def f(a, b=7, *rest, c=8, **others)`, or a class with such an
`__init__`. -/
def sampleSignature : ParameterSignature Nat where
  posOrKw := [⟨"a", none⟩, ⟨"b", some 7⟩]
  vararg := some "rest"
  kwonly := [⟨"c", some 8⟩]
  kwarg := some "others"

/-- `def __init__(*args)`. -/
def starOnlySignature : ParameterSignature Nat where
  vararg := some "args"

/-- Value `0` is the function, value `1` a class. -/
def sampleMachine (f : Function Nat) : Machine Nat where
  objects := ⟨fun vs => 100 + vs.sum, fun kws => 200 + (kws.map Prod.snd).sum⟩
  header := ⟨0, 0, 0⟩
  callable v := if v = 0 then .function f else .classObject
  newInstance _ := 50
  noneValue := 0

def sampleFunction (sig : ParameterSignature Nat) : Function Nat :=
  match codegenFunctionDefinition 0 sig with
  | .ok f => f
  | .error _ => { codeObject := codegenFunction sig }

/-- The class has the function as its `__init__`. -/
def sampleWorld (f : Function Nat) : World Nat where
  classes _ :=
    { attributes := fun name =>
        if name = "__init__" then some (.function f) else none }

/-- `f(1, 2, 3, d=4)`. -/
def sampleSite : CallSite where
  isMethod := false
  nUserArgs := 3
  keywordNames := some ["d"]
  paddedParameters := 0
  firstTemporary := 5

/-- The keyword value is in the second temporary, the arguments from the third
on. -/
def sampleCall (callable : Nat) : Call Nat where
  callable := callable
  self := none
  slots s := if s = -2 then 4 else if s = -3 then 1 else
    if s = -4 then 2 else if s = -5 then 3 else 0

theorem sampleSite_encodable : sampleSite.Encodable where
  temporaries := by decide
  registers := by decide
  count := by decide

theorem sampleCall_passes (callable : Nat) :
    Passes sampleSite (sampleCall callable) [1, 2, 3] [4] where
  nPositional := rfl
  nKeywords := rfl
  plain _ := rfl
  userArgs i v hv := by
    match i, hv with
    | 0, hv => exact Option.some.inj hv
    | 1, hv => exact Option.some.inj hv
    | 2, hv => exact Option.some.inj hv
  keywords k v hv := by
    match k, hv with
    | 0, hv => exact Option.some.inj hv

theorem sampleWorld_pristine (f : Function Nat) : Pristine (sampleWorld f) where
  cells _ := rfl
  isValid _ := rfl

/-- Calling the function and calling the class, after a call and a write. -/
theorem runCall_followsRules_sample :
    let m := sampleMachine (sampleFunction sampleSignature)
    let events : List (Event Nat) :=
      [.call (sampleCall 1), .setAttribute 1 "x" none, .call (sampleCall 0)]
    let s := run m sampleSite (sampleWorld (sampleFunction sampleSignature))
      events
    CallFollowsRules m s.world 0
      (argumentsOf sampleSite (sampleCall 0) [1, 2, 3] [4])
      (runCall m sampleSite s (sampleCall 0)).1 :=
  (runCall_followsRules (sampleWorld_pristine _) sampleSite_encodable _
    (sampleCall_passes 0)).1

/-- `__init__(*args)` takes any arguments by the rules, but its class cannot be
called. -/
theorem not_forall_constructorCall_followsRules :
    ¬ ∀ (m : Machine Nat) (site : CallSite) (world : World Nat)
      (call : Call Nat) (positional keywordValues : List Nat)
      (f : Function Nat) (first : Nat) (sig : ParameterSignature Nat),
      Pristine world → site.Encodable →
      Passes site call positional keywordValues →
      m.callable call.callable = .classObject →
      (world.classes call.callable).standardMetaclass = true →
      constructorMethod m world call.callable = some (f, first) →
      Compiled f sig →
      FollowsRules m.objects sig
        (consArgument first (argumentsOf site call positional keywordValues))
        (runCall m site { world := world } call).1 := by
  intro h
  have hFollows := h (sampleMachine (sampleFunction starOnlySignature))
    ⟨false, 0, none, 0, 5⟩ (sampleWorld (sampleFunction starOnlySignature))
    ⟨1, none, fun _ => 0⟩ [] [] (sampleFunction starOnlySignature) 50
    starOnlySignature (sampleWorld_pristine _)
    ⟨by decide, by decide, by decide⟩
    ⟨rfl, rfl, fun _ => rfl, (fun _ _ hv => nomatch hv),
      (fun _ _ hv => nomatch hv)⟩ rfl rfl rfl
    ⟨⟨0, rfl⟩, by decide, by decide⟩
  have hResult : (runCall (sampleMachine (sampleFunction starOnlySignature))
      ⟨false, 0, none, 0, 5⟩
      { world := sampleWorld (sampleFunction starOnlySignature) }
      ⟨1, none, fun _ => 0⟩).1 =
        .error ⟨"TypeError", "__init__ requires a self parameter"⟩ := rfl
  rw [hResult] at hFollows
  refine hFollows.1 ?_
  exact
    { positionals := Or.inr rfl
      distinct := List.nodup_nil
      expected := (fun _ hMem => nomatch hMem)
      once := (fun _ hMem => nomatch hMem)
      complete := fun i hi => by
        match i, hi with
        | 0, _ => exact Option.some_ne_none _ }

end CloverVM.Runtime.CallRules
