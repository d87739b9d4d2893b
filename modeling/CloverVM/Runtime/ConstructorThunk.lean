import CloverVM.Runtime.CallBinding

/-!
# Constructor thunks

Calling a class enters a thunk whose parameters are those of the class's
`__init__` or `__new__` without the first.  The thunk puts the instance or the
class in front of its own parameters and enters the method's frame, with no
further adaptation.
-/

namespace CloverVM.Runtime.ConstructorThunk

open CloverVM.Bytecode.Frame
open CloverVM.ObjectModel
open CloverVM.Compiler.FunctionDefinition
open CloverVM.Runtime.ArgumentBinding
open CloverVM.Runtime.CallEntry
open CloverVM.Runtime.CallBinding

variable {V : Type}

/-! ## Parameters without the first -/

/-- The parameters after the first positional one. -/
def dropFirst (sig : ParameterSignature V) : ParameterSignature V :=
  match sig.posonly with
  | _ :: rest => { sig with posonly := rest }
  | [] => { sig with posOrKw := sig.posOrKw.tail }

section DropFirst

variable {sig : ParameterSignature V}

theorem nPositional_dropFirst :
    (dropFirst sig).nPositional = sig.nPositional - 1 := by
  simp only [dropFirst]
  split
  · rename_i h
    simp only [ParameterSignature.nPositional, h, List.length_cons]
    omega
  · rename_i h
    simp [ParameterSignature.nPositional, h]

theorem firstKwonlyIdx_dropFirst (h : 0 < sig.nPositional) :
    sig.firstKwonlyIdx = (dropFirst sig).firstKwonlyIdx + 1 := by
  have hPositional := @nPositional_dropFirst V sig
  have hVararg : (dropFirst sig).vararg = sig.vararg := by
    rw [dropFirst]
    split <;> rfl
  have hSig : sig.firstKwonlyIdx =
      sig.nPositional + if sig.vararg.isSome then 1 else 0 := rfl
  have hDropped : (dropFirst sig).firstKwonlyIdx =
      (dropFirst sig).nPositional +
        if (dropFirst sig).vararg.isSome then 1 else 0 := rfl
  rw [hSig, hDropped, hVararg, hPositional]
  omega

theorem dropFirst_vararg : (dropFirst sig).vararg = sig.vararg := by
  rw [dropFirst]
  split <;> rfl

theorem dropFirst_kwonly : (dropFirst sig).kwonly = sig.kwonly := by
  rw [dropFirst]
  split <;> rfl

theorem dropFirst_kwarg : (dropFirst sig).kwarg = sig.kwarg := by
  rw [dropFirst]
  split <;> rfl

theorem posonly_length_dropFirst :
    (dropFirst sig).posonly.length = sig.posonly.length - 1 := by
  rw [dropFirst]
  split
  · rename_i h
    rw [h]
    rfl
  · rename_i h
    simp only [h, List.length_nil]

theorem order_dropFirst (h : 0 < sig.nPositional) :
    ∃ p, sig.order = .parameter p :: (dropFirst sig).order := by
  rw [ParameterSignature.nPositional] at h
  cases hPosonly : sig.posonly with
  | cons p rest =>
      refine ⟨p, ?_⟩
      simp only [ParameterSignature.order, dropFirst, hPosonly, List.map_cons,
        List.cons_append]
  | nil =>
      cases hPosOrKw : sig.posOrKw with
      | nil =>
          rw [hPosonly, hPosOrKw] at h
          exact absurd h (Nat.lt_irrefl 0)
      | cons p rest =>
          refine ⟨p, ?_⟩
          simp only [ParameterSignature.order, dropFirst, hPosonly, hPosOrKw,
            List.map_cons, List.map_nil, List.nil_append, List.cons_append,
            List.tail_cons]

theorem length_order_dropFirst (h : 0 < sig.nPositional) :
    sig.order.length = (dropFirst sig).order.length + 1 := by
  obtain ⟨p, hOrder⟩ := order_dropFirst h
  rw [hOrder, List.length_cons]

theorem getElem?_order_dropFirst (h : 0 < sig.nPositional) (i : Nat) :
    (dropFirst sig).order[i]? = sig.order[i + 1]? := by
  obtain ⟨p, hOrder⟩ := order_dropFirst h
  rw [hOrder, List.getElem?_cons_succ]

theorem defaultAt_dropFirst (h : 0 < sig.nPositional) (i : Nat) :
    (dropFirst sig).defaultAt i = sig.defaultAt (i + 1) := by
  rw [ParameterSignature.defaultAt, getElem?_order_dropFirst h]
  rfl

/-- A keyword that does not name the first parameter names the same one. -/
theorem keywordTarget_dropFirst (h : 0 < sig.nPositional) {name : String}
    (hName : keywordTarget sig name ≠ some 0) :
    keywordTarget sig name =
      (keywordTarget (dropFirst sig) name).map (· + 1) := by
  have hKwonly := firstKwonlyIdx_dropFirst h
  have hShift : (sig.kwonly.findIdx? (·.name = name)).map
      (sig.firstKwonlyIdx + ·) =
        ((sig.kwonly.findIdx? (·.name = name)).map
          ((dropFirst sig).firstKwonlyIdx + ·)).map (· + 1) := by
    rw [Option.map_map]
    congr 1
    funext j
    simp only [Function.comp_apply]
    omega
  rw [ParameterSignature.nPositional] at h
  have hPosonlyLength := @posonly_length_dropFirst V sig
  cases hPosonly : sig.posonly with
  | cons p rest =>
      have hSame : (dropFirst sig).posOrKw = sig.posOrKw := by
        simp only [dropFirst, hPosonly]
      rw [keywordTarget, keywordTarget, hSame, dropFirst_kwonly, hShift,
        hPosonlyLength, hPosonly, List.length_cons]
      cases sig.posOrKw.findIdx? (·.name = name) with
      | none => rfl
      | some i =>
          simp only [Option.map_some, Option.some.injEq]
          omega
  | nil =>
      cases hPosOrKw : sig.posOrKw with
      | nil =>
          rw [hPosonly, hPosOrKw] at h
          exact absurd h (Nat.lt_irrefl 0)
      | cons p rest =>
          have hTail : (dropFirst sig).posOrKw = rest := by
            simp only [dropFirst, hPosonly, hPosOrKw, List.tail_cons]
          rw [keywordTarget, hPosOrKw, List.findIdx?_cons, hPosonly] at hName
          rw [keywordTarget, keywordTarget, hTail, dropFirst_kwonly, hShift,
            hPosonlyLength, hPosonly, hPosOrKw, List.findIdx?_cons]
          cases hFirst : decide (p.name = name) with
          | true =>
              rw [hFirst] at hName
              exact absurd rfl hName
          | false =>
              cases rest.findIdx? (·.name = name) with
              | none => rfl
              | some i =>
                  simp only [Bool.false_eq_true, if_false, Option.map_some,
                    List.length_nil, Option.some.injEq]
                  omega

end DropFirst

/-! ## The rules of the method with one more argument -/

/-- A call with a value in front of its positional arguments. -/
def consArgument (v : V) (args : Arguments V) : Arguments V :=
  { args with positional := v :: args.positional }

/-- No keyword names the parameter a thunk leaves out. -/
def NamesNoDropped (sig : ParameterSignature V) (args : Arguments V) :
    Prop :=
  ∀ kw ∈ args.keywords, keywordTarget sig kw.1 ≠ some 0

section RulesDropFirst

variable {sig : ParameterSignature V} {args : Arguments V} (receiver : V)

theorem keywordValue_dropFirst (h : 0 < sig.nPositional)
    {kws : List (String × V)}
    (hNames : ∀ kw ∈ kws, keywordTarget sig kw.1 ≠ some 0) (i : Nat) :
    keywordValue (dropFirst sig) kws i = keywordValue sig kws (i + 1) := by
  induction kws with
  | nil => rfl
  | cons kw kws ih =>
      have hTarget := keywordTarget_dropFirst h
        (hNames kw List.mem_cons_self)
      rw [keywordValue_cons, keywordValue_cons, hTarget,
        ih fun kw' hMem => hNames kw' (List.mem_cons_of_mem _ hMem)]
      cases keywordTarget (dropFirst sig) kw.1 with
      | none => rfl
      | some j => simp

theorem suppliedAt_dropFirst (h : 0 < sig.nPositional)
    (hNames : NamesNoDropped sig args) (i : Nat) :
    suppliedAt (dropFirst sig) args i =
      suppliedAt sig (consArgument receiver args) (i + 1) := by
  simp only [suppliedAt, consArgument, keywordValue_dropFirst h hNames,
    nPositional_dropFirst, List.getElem?_cons_succ]
  congr 1
  by_cases hi : i + 1 < sig.nPositional
  · rw [if_pos hi, if_pos (by omega)]
  · rw [if_neg hi, if_neg (by omega)]

theorem boundAt_dropFirst (h : 0 < sig.nPositional)
    (hNames : NamesNoDropped sig args) (i : Nat) :
    boundAt (dropFirst sig) args i =
      boundAt sig (consArgument receiver args) (i + 1) := by
  have hSurplus : args.positional.drop (sig.nPositional - 1) =
      (receiver :: args.positional).drop sig.nPositional := by
    obtain ⟨n, hn⟩ := Nat.exists_eq_add_of_lt h
    rw [hn, Nat.zero_add, Nat.add_sub_cancel, List.drop_succ_cons]
  have hKeywords : (args.keywords.filter fun kw =>
      (keywordTarget (dropFirst sig) kw.1).isNone) =
        args.keywords.filter fun kw => (keywordTarget sig kw.1).isNone := by
    refine List.filter_congr fun kw hMem => ?_
    rw [keywordTarget_dropFirst h (hNames kw hMem), Option.isNone_map]
  rw [boundAt, boundAt, getElem?_order_dropFirst h]
  cases sig.order[i + 1]? with
  | none => rfl
  | some node =>
      cases node with
      | parameter p =>
          simp only [suppliedAt_dropFirst receiver h hNames]
      | varargs name =>
          simp only [nPositional_dropFirst, hSurplus, consArgument]
      | kwargs name => simp only [hKeywords, consArgument]

/-- The value in front is bound to the first parameter. -/
theorem boundAt_cons_zero (h : 0 < sig.nPositional) :
    boundAt sig (consArgument receiver args) 0 =
      some (.value receiver) := by
  obtain ⟨p, hOrder⟩ := order_dropFirst h
  have hNode : sig.order[0]? = some (.parameter p) := by
    rw [hOrder, List.getElem?_cons_zero]
  rw [boundAt_parameter hNode, suppliedAt, if_pos h]
  rfl

theorem accepts_dropFirst_iff (h : 0 < sig.nPositional)
    (hNames : NamesNoDropped sig args) :
    Accepts (dropFirst sig) args ↔
      Accepts sig (consArgument receiver args) := by
  have hPositional := @nPositional_dropFirst V sig
  have hLength := length_order_dropFirst h
  constructor
  · intro hDropped
    refine
      { positionals := ?_
        distinct := hDropped.distinct
        expected := fun kw hMem hNone => ?_
        once := fun kw hMem i hTarget hi => ?_
        complete := fun i hi => ?_ }
    · rw [← dropFirst_vararg]
      refine hDropped.positionals.imp (fun hFew => ?_) id
      rw [consArgument, List.length_cons]
      omega
    · rw [← dropFirst_kwarg]
      refine hDropped.expected kw hMem ?_
      rw [keywordTarget_dropFirst h (hNames kw hMem),
        Option.map_eq_none_iff] at hNone
      exact hNone
    · rw [keywordTarget_dropFirst h (hNames kw hMem)] at hTarget
      obtain ⟨j, hj, rfl⟩ := Option.map_eq_some_iff.mp hTarget
      have hOnce := hDropped.once kw hMem j hj (by omega)
      rw [consArgument, List.length_cons]
      omega
    · cases i with
      | zero =>
          rw [boundAt_cons_zero receiver h]
          exact Option.some_ne_none _
      | succ i =>
          rw [← boundAt_dropFirst receiver h hNames]
          exact hDropped.complete i (by omega)
  · intro hFull
    refine
      { positionals := ?_
        distinct := hFull.distinct
        expected := fun kw hMem hNone => ?_
        once := fun kw hMem i hTarget hi => ?_
        complete := fun i hi => ?_ }
    · rw [dropFirst_vararg]
      refine hFull.positionals.imp (fun hFew => ?_) id
      rw [consArgument, List.length_cons] at hFew
      omega
    · rw [dropFirst_kwarg]
      refine hFull.expected kw hMem ?_
      rw [keywordTarget_dropFirst h (hNames kw hMem), hNone]
      rfl
    · have hSame : keywordTarget sig kw.1 = some (i + 1) := by
        rw [keywordTarget_dropFirst h (hNames kw hMem), hTarget]
        rfl
      have hOnce := hFull.once kw hMem (i + 1) hSame (by omega)
      rw [consArgument, List.length_cons] at hOnce
      omega
    · rw [boundAt_dropFirst receiver h hNames]
      exact hFull.complete (i + 1) (by omega)

/-- The names of the parameters a keyword can bind. -/
def keywordNames (sig : ParameterSignature V) : List String :=
  sig.posOrKw.map (·.name) ++ sig.kwonly.map (·.name)

theorem keywordTarget_eq_none_iff (name : String) :
    keywordTarget sig name = none ↔ name ∉ keywordNames sig := by
  have hFind : ∀ ps : List (Parameter V),
      ps.findIdx? (·.name = name) = none ↔ name ∉ ps.map (·.name) := by
    intro ps
    rw [List.findIdx?_eq_none_iff, List.mem_map]
    constructor
    · rintro hAll ⟨p, hMem, hName⟩
      have := hAll p hMem
      simp [hName] at this
    · intro hNot p hMem
      exact decide_eq_false fun hName => hNot ⟨p, hMem, hName⟩
  rw [keywordNames, List.mem_append, not_or, ← hFind, ← hFind, keywordTarget]
  cases sig.posOrKw.findIdx? (·.name = name) with
  | none => simp
  | some i => simp

/-- With distinct names and no `**kwargs`, both rules reject a keyword that
names the parameter left out. -/
theorem not_accepts_of_namesDropped (h : 0 < sig.nPositional)
    (hDistinct : (keywordNames sig).Nodup) (hKwarg : sig.kwarg = none)
    (hNames : ¬ NamesNoDropped sig args) :
    ¬ Accepts (dropFirst sig) args ∧
      ¬ Accepts sig (consArgument receiver args) := by
  simp only [NamesNoDropped, not_forall, not_not] at hNames
  obtain ⟨kw, hMem, hTarget⟩ := hNames
  constructor
  · intro hDropped
    have hNone : keywordTarget (dropFirst sig) kw.1 = none := by
      rw [keywordTarget_eq_none_iff]
      intro hIn
      -- the first parameter bears the name, so no later one does
      have hPosonly : sig.posonly = [] := by
        rcases keywordTarget_cases sig hTarget with ⟨hLe, -⟩ | ⟨j, -, hEq⟩
        · exact List.length_eq_zero_iff.mp (Nat.le_zero.mp hLe)
        · have := firstKwonlyIdx_dropFirst h
          omega
      have hPosOrKw : ∃ p rest, sig.posOrKw = p :: rest := by
        cases hCases : sig.posOrKw with
        | cons p rest => exact ⟨p, rest, rfl⟩
        | nil =>
            rw [ParameterSignature.nPositional, hPosonly, hCases] at h
            exact absurd h (Nat.lt_irrefl 0)
      obtain ⟨p, rest, hPosOrKw⟩ := hPosOrKw
      have hFirst : p.name = kw.1 := by
        rw [keywordTarget, hPosOrKw, List.findIdx?_cons, hPosonly] at hTarget
        by_contra hName
        have hKwonly := firstKwonlyIdx_dropFirst h
        simp only [decide_eq_false hName, Bool.false_eq_true, if_false]
          at hTarget
        cases hRest : rest.findIdx? (·.name = kw.1) with
        | some i => simp [hRest] at hTarget
        | none =>
            simp only [hRest, Option.map_none] at hTarget
            obtain ⟨j, -, hj⟩ := Option.map_eq_some_iff.mp hTarget
            omega
      simp only [keywordNames, dropFirst, hPosonly, hPosOrKw, List.tail_cons]
        at hIn
      rw [keywordNames, hPosOrKw, List.map_cons, List.cons_append,
        List.nodup_cons, hFirst] at hDistinct
      exact hDistinct.1 hIn
    have hSome := hDropped.expected kw hMem hNone
    rw [dropFirst_kwarg, hKwarg] at hSome
    cases hSome
  · intro hFull
    exact absurd (hFull.once kw hMem 0 hTarget h) (Nat.not_succ_le_zero _)

end RulesDropFirst

/-! ## The thunk's function -/

/-- The state of the loop over the method's defaults. -/
structure ShiftedDefaults where
  foundDefault : Bool := false
  firstDefaultSlot : Nat := 0
  shiftedDefaultMask : BitVec 64 := 0

/-- One round of the loop of `constructor_thunk_signature_drop_first`. -/
def shiftDefault (source : FunctionSignature) (shifted : ShiftedDefaults)
    (defaultIdx : Nat) : ShiftedDefaults :=
  if source.defaultPresenceMask &&& (1#64 <<< defaultIdx) = 0 then shifted
  else
    let sourceSlot := source.firstDefaultSlot + defaultIdx
    if sourceSlot = 0 then shifted
    else
      let thunkSlot := sourceSlot - 1
      let firstDefaultSlot :=
        if shifted.foundDefault then shifted.firstDefaultSlot else thunkSlot
      { foundDefault := true
        firstDefaultSlot := firstDefaultSlot
        shiftedDefaultMask :=
          shifted.shiftedDefaultMask |||
            (1#64 <<< (thunkSlot - firstDefaultSlot)) }

def shiftDefaults (source : FunctionSignature) (n : Nat) : ShiftedDefaults :=
  (List.range n).foldl (shiftDefault source) {}

/-- `constructor_thunk_signature_drop_first`. -/
def constructorThunkSignatureDropFirst (source : FunctionSignature)
    (droppedParameterDescription : String) :
    Except BuiltinException FunctionSignature :=
  let shifted := shiftDefaults source source.defaultSpanSize
  let signature :=
    { source with
      nParameters := source.nParameters - 1
      nPositionalParameters := source.nPositionalParameters - 1
      firstDefaultSlot :=
        if shifted.foundDefault then shifted.firstDefaultSlot else 0
      defaultPresenceMask :=
        if shifted.foundDefault then shifted.shiftedDefaultMask else 0 }
  if source.nPosonlyParameters > 0 then
    .ok { signature with nPosonlyParameters := source.nPosonlyParameters - 1 }
  else if source.nPosOrKwParameters = 0 then
    .error
      ⟨"TypeError", droppedParameterDescription ++ " requires a parameter"⟩
  else
    .ok { signature with nPosOrKwParameters := source.nPosOrKwParameters - 1 }

/-- `copy_keyword_remap_drop_first`. -/
def copyKeywordRemapDropFirst (remap : FunctionKeywordRemap) :
    FunctionKeywordRemap :=
  remap.filterMap fun entry =>
    if entry.2 = 0 then none else some (entry.1, entry.2 - 1)

/-- One round of the loop of `make_constructor_thunk_defaults_drop_first`. -/
def copyDefault (noneValue : V) (source thunk : FunctionSignature)
    (sourceDefaults : List V) (values : List V) (defaultIdx : Nat) : List V :=
  if source.defaultPresenceMask &&& (1#64 <<< defaultIdx) = 0 then values
  else
    let sourceSlot := source.firstDefaultSlot + defaultIdx
    if sourceSlot = 0 then values
    else
      let thunkSlot := sourceSlot - 1
      values.set (thunkSlot - thunk.firstDefaultSlot)
        (sourceDefaults.getD defaultIdx noneValue)

def copyDefaults (noneValue : V) (source thunk : FunctionSignature)
    (sourceDefaults : List V) (n : Nat) : List V :=
  (List.range n).foldl (copyDefault noneValue source thunk sourceDefaults)
    (List.replicate thunk.defaultSpanSize noneValue)

/-- `make_constructor_thunk_defaults_drop_first`, once the signature of the
thunk is known. -/
def makeConstructorThunkDefaultsDropFirst (noneValue : V)
    (source thunk : FunctionSignature) (layoutDescription : String)
    (sourceDefaults : List V) : Except BuiltinException (List V) :=
  if sourceDefaults.length ≠ source.defaultSpanSize then
    .error ⟨"SystemError",
      "unsupported " ++ layoutDescription ++ " default parameter layout"⟩
  else
    .ok (copyDefaults noneValue source thunk sourceDefaults
      source.defaultSpanSize)

/-- `make_init_only_constructor_thunk_function` and
`make_new_only_constructor_thunk_function` for a method of this name, whose
first parameter the source calls so. -/
def makeConstructorThunkFunction (noneValue : V)
    (methodName firstParameter : String) (method : Function V) :
    Except BuiltinException (Function V) :=
  let signature := method.signature
  if signature.nParameters = 0 ∨ signature.nPositionalParameters = 0 then
    .error ⟨"TypeError",
      methodName ++ " requires a " ++ firstParameter ++ " parameter"⟩
  else
    match constructorThunkSignatureDropFirst signature methodName with
    | .error e => .error e
    | .ok thunkSignature =>
        let code : CodeObject :=
          { functionSignature := thunkSignature
            functionKeywordRemap :=
              copyKeywordRemapDropFirst
                method.codeObject.functionKeywordRemap }
        match method.defaultParameters with
        | none => .ok { codeObject := code }
        | some defaults =>
            match makeConstructorThunkDefaultsDropFirst noneValue signature
              thunkSignature methodName defaults with
            | .error e => .error e
            | .ok thunkDefaults =>
                if thunkDefaults.isEmpty then .ok { codeObject := code }
                else if thunkDefaults.length ≠ thunkSignature.defaultSpanSize
                then
                  .error ⟨"SystemError",
                    "unsupported " ++ methodName ++
                      " default parameter layout"⟩
                else
                  .ok
                    { codeObject := code
                      defaultParameters := some thunkDefaults }

section Shifted

variable {source : FunctionSignature}

/-- The slot of the method at which the span has a default. -/
def DefaultBelow (source : FunctionSignature) (n slot : Nat) : Prop :=
  source.firstDefaultSlot ≤ slot ∧ slot - source.firstDefaultSlot < n ∧
    source.defaultPresenceMask.getLsbD (slot - source.firstDefaultSlot) = true

/-- What the loop has found in the first `n` slots of the span. -/
structure Shifted (source : FunctionSignature) (n : Nat)
    (shifted : ShiftedDefaults) : Prop where
  notFound : shifted.foundDefault = false →
    shifted.shiftedDefaultMask = 0 ∧ ∀ i, ¬ DefaultBelow source n (i + 1)
  first : shifted.foundDefault = true →
    DefaultBelow source n (shifted.firstDefaultSlot + 1)
  least : shifted.foundDefault = true → ∀ i, DefaultBelow source n (i + 1) →
    shifted.firstDefaultSlot ≤ i
  mask : shifted.foundDefault = true → ∀ d,
    shifted.shiftedDefaultMask.getLsbD d = true ↔
      DefaultBelow source n (shifted.firstDefaultSlot + d + 1)

theorem defaultBelow_succ_iff (n slot : Nat) :
    DefaultBelow source (n + 1) slot ↔
      DefaultBelow source n slot ∨
        (slot = source.firstDefaultSlot + n ∧
          source.defaultPresenceMask.getLsbD n = true) := by
  constructor
  · rintro ⟨hFirst, hLt, hBit⟩
    by_cases hLast : slot - source.firstDefaultSlot = n
    · right
      rw [hLast] at hBit
      exact ⟨by omega, hBit⟩
    · exact Or.inl ⟨hFirst, by omega, hBit⟩
  · rintro (⟨hFirst, hLt, hBit⟩ | ⟨rfl, hBit⟩)
    · exact ⟨hFirst, by omega, hBit⟩
    · refine ⟨Nat.le_add_right _ _, by omega, ?_⟩
      rwa [Nat.add_sub_cancel_left]

/-- A slot that is no default, or is the first parameter's, changes
nothing. -/
theorem Shifted.skip {n : Nat} {shifted : ShiftedDefaults}
    (h : Shifted source n shifted)
    (hSkip : source.defaultPresenceMask.getLsbD n = true →
      source.firstDefaultSlot + n = 0) :
    Shifted source (n + 1) shifted := by
  have hSame : ∀ i, DefaultBelow source (n + 1) (i + 1) ↔
      DefaultBelow source n (i + 1) := by
    intro i
    rw [defaultBelow_succ_iff, or_iff_left]
    rintro ⟨hSlot, hBit⟩
    have := hSkip hBit
    omega
  exact
    { notFound := fun hFound =>
        ⟨(h.notFound hFound).1,
          fun i => (hSame i).not.mpr ((h.notFound hFound).2 i)⟩
      first := fun hFound => (hSame _).mpr (h.first hFound)
      least := fun hFound i hi => h.least hFound i ((hSame i).mp hi)
      mask := fun hFound d => (h.mask hFound d).trans (hSame _).symm }

theorem getLsbD_or_one_shiftLeft (x : BitVec 64) {i : Nat} (h : i < 64)
    (d : Nat) :
    (x ||| 1#64 <<< i).getLsbD d = (x.getLsbD d || decide (d = i)) := by
  rw [BitVec.getLsbD_or, ← BitVec.twoPow_eq, BitVec.getLsbD_twoPow]
  by_cases hd : d = i
  · subst hd
    simp [h]
  · simp [hd, Ne.symm hd]

theorem shiftDefault_shifted {n : Nat} {shifted : ShiftedDefaults}
    (h : Shifted source n shifted) (hn : n < 64) :
    Shifted source (n + 1) (shiftDefault source shifted n) := by
  rw [shiftDefault]
  split
  · rename_i hClear
    refine h.skip fun hBit => ?_
    exact absurd hClear
      ((FunctionSignature.and_one_shiftLeft_ne_zero_iff _ hn).mpr hBit)
  · rename_i hSet
    have hBit := (FunctionSignature.and_one_shiftLeft_ne_zero_iff _ hn).mp hSet
    simp only
    split
    · rename_i hZero
      exact h.skip fun _ => hZero
    · rename_i hSlot
      have hNew : DefaultBelow source (n + 1)
          (source.firstDefaultSlot + n - 1 + 1) :=
        (defaultBelow_succ_iff _ _).mpr (Or.inr ⟨by omega, hBit⟩)
      cases hFound : shifted.foundDefault with
      | true =>
          have hLeast : shifted.firstDefaultSlot + 1 ≤
              source.firstDefaultSlot + n := by
            obtain ⟨-, hLt, -⟩ := h.first hFound
            omega
          have hInside := (h.first hFound).1
          refine
            { notFound := fun hNot => nomatch hNot
              first := fun _ => (defaultBelow_succ_iff _ _).mpr
                (Or.inl (h.first hFound))
              least := fun _ i hi => ?_
              mask := fun _ d => ?_ }
          · simp only [if_true]
            rcases (defaultBelow_succ_iff _ _).mp hi with hi | ⟨hi, -⟩
            · exact h.least hFound i hi
            · omega
          · simp only [if_true]
            rw [getLsbD_or_one_shiftLeft _ (by omega), Bool.or_eq_true,
              h.mask hFound, decide_eq_true_iff, defaultBelow_succ_iff]
            refine or_congr_right ?_
            constructor
            · intro hd
              exact ⟨by omega, hBit⟩
            · rintro ⟨hd, -⟩
              omega
      | false =>
          obtain ⟨hMask, hNone⟩ := h.notFound hFound
          have hEmpty : ∀ d, shifted.shiftedDefaultMask.getLsbD d = false := by
            intro d
            rw [hMask]
            exact BitVec.getLsbD_zero
          refine
            { notFound := fun hNot => nomatch hNot
              first := fun _ => hNew
              least := fun _ i hi => ?_
              mask := fun _ d => ?_ }
          · simp only [Bool.false_eq_true, if_false]
            rcases (defaultBelow_succ_iff _ _).mp hi with hi | ⟨hi, -⟩
            · exact absurd hi (hNone i)
            · omega
          · simp only [Bool.false_eq_true, if_false]
            rw [getLsbD_or_one_shiftLeft _ (by omega), hEmpty,
              Bool.false_or, decide_eq_true_iff, defaultBelow_succ_iff,
              or_iff_right (hNone _)]
            constructor
            · intro hd
              exact ⟨by omega, hBit⟩
            · rintro ⟨hd, -⟩
              omega

theorem shiftDefaults_shifted {n : Nat} (hn : n ≤ 64) :
    Shifted source n (shiftDefaults source n) := by
  induction n with
  | zero =>
      refine
        { notFound := fun _ => ⟨rfl, fun i h => ?_⟩
          first := fun h => nomatch h
          least := fun h => nomatch h
          mask := fun h => nomatch h }
      exact Nat.not_lt_zero _ h.2.1
  | succ n ih =>
      rw [shiftDefaults, List.range_succ, List.foldl_append, List.foldl_cons,
        List.foldl_nil, ← shiftDefaults]
      exact shiftDefault_shifted (ih (by omega)) (by omega)

/-- The whole span holds every default. -/
theorem defaultBelow_span_iff (slot : Nat) :
    DefaultBelow source source.defaultSpanSize slot ↔
      source.hasDefaultForParameter slot = true := by
  rw [FunctionSignature.hasDefaultForParameter_iff]
  constructor
  · rintro ⟨hFirst, -, hBit⟩
    exact ⟨hFirst, hBit⟩
  · rintro ⟨hFirst, hBit⟩
    exact ⟨hFirst, FunctionSignature.lt_defaultSpanSize hBit, hBit⟩

end Shifted

/-! ## The thunk has the method's parameters without the first -/

section ThunkSignature

variable {source thunk : FunctionSignature} {description : String}

theorem dropFirst_defaults
    (h : constructorThunkSignatureDropFirst source description = .ok thunk) :
    let shifted := shiftDefaults source source.defaultSpanSize
    thunk.firstDefaultSlot =
        (if shifted.foundDefault then shifted.firstDefaultSlot else 0) ∧
      thunk.defaultPresenceMask =
        if shifted.foundDefault then shifted.shiftedDefaultMask else 0 := by
  simp only [constructorThunkSignatureDropFirst] at h
  split at h
  · rw [← Except.ok.inj h]
    exact ⟨rfl, rfl⟩
  · split at h
    · exact nomatch h
    · rw [← Except.ok.inj h]
      exact ⟨rfl, rfl⟩

/-- The thunk has a default where the method has one a slot later. -/
theorem hasDefault_dropFirst
    (h : constructorThunkSignatureDropFirst source description = .ok thunk)
    (i : Nat) :
    thunk.hasDefaultForParameter i =
      source.hasDefaultForParameter (i + 1) := by
  obtain ⟨hFirst, hMask⟩ := dropFirst_defaults h
  have hShifted := @shiftDefaults_shifted source _ source.defaultSpanSize_le
  rw [Bool.eq_iff_iff, FunctionSignature.hasDefaultForParameter_iff, hFirst,
    hMask, ← defaultBelow_span_iff]
  cases hFound : (shiftDefaults source source.defaultSpanSize).foundDefault with
  | false =>
      refine iff_of_false ?_ ((hShifted.notFound hFound).2 i)
      rintro ⟨-, hBit⟩
      rw [if_neg Bool.false_ne_true, if_neg Bool.false_ne_true] at hBit
      exact Bool.false_ne_true (BitVec.getLsbD_zero.symm.trans hBit)
  | true =>
      simp only [if_true]
      constructor
      · rintro ⟨hLe, hBit⟩
        rw [hShifted.mask hFound] at hBit
        rwa [Nat.add_sub_cancel' hLe] at hBit
      · intro hDefault
        have hLe := hShifted.least hFound i hDefault
        refine ⟨hLe, ?_⟩
        rw [hShifted.mask hFound, Nat.add_sub_cancel' hLe]
        exact hDefault

theorem firstDefaultSlot_le
    (h : constructorThunkSignatureDropFirst source description = .ok thunk)
    {i : Nat} (hi : source.hasDefaultForParameter (i + 1) = true) :
    thunk.firstDefaultSlot ≤ i := by
  rw [← hasDefault_dropFirst h,
    FunctionSignature.hasDefaultForParameter_iff] at hi
  exact hi.1

end ThunkSignature

section CopyDefaults

variable {source thunk : FunctionSignature} {sourceDefaults : List V}
  {noneValue : V} {description : String}

theorem length_copyDefault (values : List V) (n : Nat) :
    (copyDefault noneValue source thunk sourceDefaults values n).length =
      values.length := by
  rw [copyDefault]
  split
  · rfl
  · simp only
    split
    · rfl
    · exact List.length_set

theorem length_copyDefaults (n : Nat) :
    (copyDefaults noneValue source thunk sourceDefaults n).length =
      thunk.defaultSpanSize := by
  rw [copyDefaults]
  induction n with
  | zero => exact List.length_replicate
  | succ n ih =>
      rw [List.range_succ, List.foldl_append, List.foldl_cons, List.foldl_nil,
        length_copyDefault]
      exact ih

/-- Each default copied so far stands at the slot before its own. -/
theorem getElem?_copyDefaults
    (h : constructorThunkSignatureDropFirst source description = .ok thunk)
    {n i : Nat} {v : V} (hn : n ≤ source.defaultSpanSize)
    (hDefault : DefaultBelow source n (i + 1))
    (hValue : sourceDefaults[i + 1 - source.firstDefaultSlot]? = some v) :
    (copyDefaults noneValue source thunk sourceDefaults n)[
      i - thunk.firstDefaultSlot]? = some v := by
  induction n with
  | zero => exact absurd hDefault.2.1 (Nat.not_lt_zero _)
  | succ n ih =>
      have hSpan := source.defaultSpanSize_le
      have hLength : (copyDefaults noneValue source thunk sourceDefaults
          n).length = thunk.defaultSpanSize := length_copyDefaults n
      rw [copyDefaults, List.range_succ, List.foldl_append, List.foldl_cons,
        List.foldl_nil, ← copyDefaults, copyDefault]
      have hBelow : ∀ {slot}, DefaultBelow source (n + 1) slot →
          source.hasDefaultForParameter slot = true := by
        rintro slot ⟨hFirst, -, hBit⟩
        exact (FunctionSignature.hasDefaultForParameter_iff _ _).mpr
          ⟨hFirst, hBit⟩
      have hLe := firstDefaultSlot_le h (hBelow hDefault)
      rcases (defaultBelow_succ_iff _ _).mp hDefault with hBefore |
        ⟨hLast, hBit⟩
      · have hOld := ih (by omega) hBefore
        have hIndex := hBefore.2.1
        split
        · exact hOld
        · rename_i hSet
          simp only
          split
          · exact hOld
          · -- another default of the span has another place
            have hNew : DefaultBelow source (n + 1)
                (source.firstDefaultSlot + n - 1 + 1) :=
              (defaultBelow_succ_iff _ _).mpr (Or.inr ⟨by omega,
                (FunctionSignature.and_one_shiftLeft_ne_zero_iff _
                  (by omega)).mp hSet⟩)
            have hOther := firstDefaultSlot_le h (hBelow hNew)
            rw [List.getElem?_set_ne (by omega)]
            exact hOld
      · have hSet := (FunctionSignature.and_one_shiftLeft_ne_zero_iff
          source.defaultPresenceMask (by omega)).mpr hBit
        rw [if_neg hSet]
        simp only
        rw [if_neg (by omega)]
        have hInside : i - thunk.firstDefaultSlot < thunk.defaultSpanSize := by
          refine FunctionSignature.lt_defaultSpanSize ?_
          have hHas := hasDefault_dropFirst h i
          rw [hBelow hDefault, FunctionSignature.hasDefaultForParameter_iff]
            at hHas
          exact hHas.2
        have hPlace : source.firstDefaultSlot + n - 1 -
            thunk.firstDefaultSlot = i - thunk.firstDefaultSlot := by omega
        have hIndex : i + 1 - source.firstDefaultSlot = n := by omega
        rw [hIndex] at hValue
        rw [hPlace, List.getElem?_set_self (by rw [hLength]; exact hInside),
          List.getD_eq_getElem?_getD, hValue]
        rfl

end CopyDefaults

theorem copyKeywordRemapDropFirst_mapIdx (ps : List (Parameter V))
    (first : Nat) :
    copyKeywordRemapDropFirst
        (ps.mapIdx fun i p => (p.name, first + 1 + i)) =
      ps.mapIdx fun i p => (p.name, first + i) := by
  refine List.ext_getElem? fun i => ?_
  have hMap : copyKeywordRemapDropFirst
      (ps.mapIdx fun i p => (p.name, first + 1 + i)) =
        (ps.mapIdx fun i p => (p.name, first + 1 + i)).map
          fun entry => (entry.1, entry.2 - 1) := by
    rw [copyKeywordRemapDropFirst, ← List.filterMap_eq_map]
    refine List.filterMap_congr fun entry hMem => ?_
    obtain ⟨j, hj, rfl⟩ := List.mem_mapIdx.mp hMem
    rw [if_neg (by simp only; omega)]
    rfl
  rw [hMap, List.getElem?_map, List.getElem?_mapIdx, List.getElem?_mapIdx]
  cases ps[i]? with
  | none => rfl
  | some p =>
      simp only [Option.map_some, Option.some.injEq, Prod.mk.injEq, true_and]
      omega

theorem copyKeywordRemapDropFirst_append (remap remap' : FunctionKeywordRemap) :
    copyKeywordRemapDropFirst (remap ++ remap') =
      copyKeywordRemapDropFirst remap ++ copyKeywordRemapDropFirst remap' :=
  List.filterMap_append

/-- The thunk's keyword names are those of the parameters without the
first. -/
theorem copyKeywordRemapDropFirst_codegenFunction {sig : ParameterSignature V}
    (h : 0 < sig.nPositional) :
    copyKeywordRemapDropFirst (codegenFunction sig).functionKeywordRemap =
      (codegenFunction (dropFirst sig)).functionKeywordRemap := by
  have hKwonly := firstKwonlyIdx_dropFirst h
  simp only [codegenFunction, copyKeywordRemapDropFirst_append,
    dropFirst_kwonly, hKwonly, copyKeywordRemapDropFirst_mapIdx]
  congr 1
  rw [ParameterSignature.nPositional] at h
  cases hPosonly : sig.posonly with
  | cons p rest =>
      have hSame : (dropFirst sig).posOrKw = sig.posOrKw := by
        simp only [dropFirst, hPosonly]
      rw [hSame, posonly_length_dropFirst, hPosonly, List.length_cons,
        Nat.add_sub_cancel]
      exact copyKeywordRemapDropFirst_mapIdx _ _
  | nil =>
      cases hPosOrKw : sig.posOrKw with
      | nil =>
          rw [hPosonly, hPosOrKw] at h
          exact absurd h (Nat.lt_irrefl 0)
      | cons p rest =>
          have hTail : (dropFirst sig).posOrKw = rest := by
            simp only [dropFirst, hPosonly, hPosOrKw, List.tail_cons]
          have hShift := copyKeywordRemapDropFirst_mapIdx rest 0
          rw [hTail, posonly_length_dropFirst, hPosonly, List.mapIdx_cons,
            copyKeywordRemapDropFirst, List.filterMap_cons_none rfl,
            ← copyKeywordRemapDropFirst]
          simpa only [List.length_nil, Nat.zero_add, Nat.add_comm]
            using hShift

section Implements

variable {sig : ParameterSignature V} {method thunk : Function V}
  {noneValue : V} {methodName firstParameter : String}

/-- The signature of the thunk, apart from its defaults. -/
structure DroppedSignature (source thunk : FunctionSignature) : Prop where
  nParameters : thunk.nParameters = source.nParameters - 1
  nPositional :
    thunk.nPositionalParameters = source.nPositionalParameters - 1
  hasVarargs : thunk.hasVarargs = source.hasVarargs
  hasKwargs : thunk.hasKwargs = source.hasKwargs
  required : thunk.hasRequiredKeywordOnlyParameters =
    source.hasRequiredKeywordOnlyParameters
  nPosonly : thunk.nPosonlyParameters = source.nPosonlyParameters - 1
  nPosOrKw : thunk.nPosOrKwParameters = source.nPosOrKwParameters -
    if source.nPosonlyParameters > 0 then 0 else 1

theorem constructorThunkSignatureDropFirst_dropped
    {source thunk : FunctionSignature} {description : String}
    (h : constructorThunkSignatureDropFirst source description = .ok thunk) :
    DroppedSignature source thunk := by
  simp only [constructorThunkSignatureDropFirst] at h
  split at h
  · rename_i hPosonly
    rw [← Except.ok.inj h]
    exact
      { nParameters := rfl, nPositional := rfl, hasVarargs := rfl,
        hasKwargs := rfl, required := rfl, nPosonly := rfl
        nPosOrKw := by rw [if_pos hPosonly, Nat.sub_zero] }
  · rename_i hPosonly
    split at h
    · exact nomatch h
    · rw [← Except.ok.inj h]
      exact
        { nParameters := rfl, nPositional := rfl, hasVarargs := rfl,
          hasKwargs := rfl, required := rfl
          nPosonly := by simp only; omega
          nPosOrKw := by rw [if_neg hPosonly] }

/-- A method with a positional parameter has a signature without it. -/
theorem constructorThunkSignatureDropFirst_ok (hf : Implements method sig)
    (h : 0 < sig.nPositional) (description : String) :
    ∃ thunk, constructorThunkSignatureDropFirst method.signature description =
      .ok thunk := by
  rw [ParameterSignature.nPositional] at h
  rw [constructorThunkSignatureDropFirst, hf.nPosonly, hf.nPosOrKw]
  simp only
  split
  · exact ⟨_, rfl⟩
  · rw [if_neg (by omega)]
    exact ⟨_, rfl⟩

theorem posOrKw_length_dropFirst :
    (dropFirst sig).posOrKw.length = sig.posOrKw.length -
      if sig.posonly.length > 0 then 0 else 1 := by
  rw [dropFirst]
  split
  · rename_i h
    rw [h, if_pos (by simp), Nat.sub_zero]
  · rename_i h
    simp [h]

variable {thunkSignature : FunctionSignature}

/-- The fields that do not concern the values of the defaults. -/
theorem implements_dropFirst (hf : Implements method sig)
    (h : 0 < sig.nPositional)
    (hThunk : constructorThunkSignatureDropFirst method.signature methodName =
      .ok thunkSignature)
    {defaults : Option (List V)}
    (hNone : defaults = none → thunkSignature.defaultPresenceMask = 0)
    (hSize : ∀ ds, defaults = some ds →
      ds.length = thunkSignature.defaultSpanSize)
    (hValues : ∀ {i v}, sig.defaultAt (i + 1) = some v →
      ∃ ds, defaults = some ds ∧
        ds[i - thunkSignature.firstDefaultSlot]? = some v) :
    Implements
      { codeObject :=
          { functionSignature := thunkSignature
            functionKeywordRemap := copyKeywordRemapDropFirst
              method.codeObject.functionKeywordRemap }
        defaultParameters := defaults } (dropFirst sig) := by
  have hDropped := constructorThunkSignatureDropFirst_dropped hThunk
  have hLength := length_order_dropFirst h
  have hHas : ∀ i, thunkSignature.hasDefaultForParameter i =
      ((dropFirst sig).defaultAt i).isSome := by
    intro i
    rw [hasDefault_dropFirst hThunk, hf.hasDefault, defaultAt_dropFirst h]
  refine
    { nParameters := ?_, nPositional := ?_, nPosonly := ?_, nPosOrKw := ?_
      hasVarargs := ?_, hasKwargs := ?_, required := ?_, remap := ?_
      hasDefault := hHas
      noDefaults := hNone
      size := hSize
      spanInside := fun ds hds => ?_
      default := fun hDefault => ?_ }
  · exact hDropped.nParameters.trans (by rw [hf.nParameters]; omega)
  · refine hDropped.nPositional.trans ?_
    rw [hf.nPositional, nPositional_dropFirst]
  · refine hDropped.nPosonly.trans ?_
    rw [hf.nPosonly, posonly_length_dropFirst]
  · refine hDropped.nPosOrKw.trans ?_
    rw [hf.nPosOrKw, hf.nPosonly, posOrKw_length_dropFirst]
  · refine hDropped.hasVarargs.trans ?_
    rw [hf.hasVarargs, dropFirst_vararg]
  · refine hDropped.hasKwargs.trans ?_
    rw [hf.hasKwargs, dropFirst_kwarg]
  · refine hDropped.required.trans ?_
    rw [hf.required, dropFirst_kwonly]
  · rw [hf.remap]
    exact copyKeywordRemapDropFirst_codegenFunction h
  · -- the last slot of the span has a default, so it is a parameter
    have hSpan := hSize ds hds
    simp only [Function.signature]
    rw [hSpan]
    by_cases hZero : thunkSignature.defaultSpanSize = 0
    · have hMask := (FunctionSignature.defaultSpanSize_eq_zero_iff _).mp hZero
      obtain ⟨hFirst, hMaskEq⟩ := dropFirst_defaults hThunk
      have hShifted := @shiftDefaults_shifted method.signature _
        method.signature.defaultSpanSize_le
      cases hFound : (shiftDefaults method.signature
          method.signature.defaultSpanSize).foundDefault with
      | false =>
          rw [hFirst, hFound, hZero]
          exact Nat.zero_le _
      | true =>
          rw [hFound, if_pos rfl] at hMaskEq
          have hBit := (hShifted.mask hFound 0).mpr
            (hShifted.first hFound)
          rw [← hMaskEq, hMask] at hBit
          exact absurd (BitVec.getLsbD_zero.symm.trans hBit)
            Bool.false_ne_true
    · have hLast := FunctionSignature.getLsbD_defaultSpanSize_sub_one hZero
      have hDefault : thunkSignature.hasDefaultForParameter
          (thunkSignature.firstDefaultSlot +
            (thunkSignature.defaultSpanSize - 1)) = true := by
        rw [FunctionSignature.hasDefaultForParameter_iff,
          Nat.add_sub_cancel_left]
        exact ⟨Nat.le_add_right _ _, hLast⟩
      rw [hHas] at hDefault
      obtain ⟨v, hv⟩ := Option.isSome_iff_exists.mp hDefault
      have := (dropFirst sig).lt_length_of_defaultAt hv
      omega
  · rw [defaultAt_dropFirst h] at hDefault
    exact hValues hDefault

theorem hasDefault_of_defaultAt (hf : Implements method sig) {i : Nat} {v : V}
    (h : sig.defaultAt i = some v) :
    method.signature.hasDefaultForParameter i = true := by
  rw [hf.hasDefault, h]
  rfl

/-- The thunk of a method implements the method's parameters without the
first. -/
theorem makeConstructorThunkFunction_implements (hf : Implements method sig)
    (h : 0 < sig.nPositional) :
    ∃ thunk, makeConstructorThunkFunction noneValue methodName firstParameter
        method = .ok thunk ∧ Implements thunk (dropFirst sig) := by
  obtain ⟨thunkSignature, hThunk⟩ :=
    constructorThunkSignatureDropFirst_ok hf h methodName
  have hLength := length_order_dropFirst h
  have hParameters : ¬ (method.signature.nParameters = 0 ∨
      method.signature.nPositionalParameters = 0) := by
    rw [hf.nParameters, hf.nPositional]
    omega
  simp only [makeConstructorThunkFunction, if_neg hParameters, hThunk]
  cases hDefaults : method.defaultParameters with
  | none =>
      refine ⟨_, rfl, implements_dropFirst hf h hThunk (fun _ => ?_)
        (fun _ hds => nomatch hds) fun hDefault => ?_⟩
      · rw [← FunctionSignature.defaultSpanSize_eq_zero_iff]
        by_contra hSpan
        have hLast := FunctionSignature.getLsbD_defaultSpanSize_sub_one hSpan
        have hHas : thunkSignature.hasDefaultForParameter
            (thunkSignature.firstDefaultSlot +
              (thunkSignature.defaultSpanSize - 1)) = true := by
          rw [FunctionSignature.hasDefaultForParameter_iff,
            Nat.add_sub_cancel_left]
          exact ⟨Nat.le_add_right _ _, hLast⟩
        rw [hasDefault_dropFirst hThunk, hf.hasDefault] at hHas
        obtain ⟨v, hv⟩ := Option.isSome_iff_exists.mp hHas
        obtain ⟨ds, hds, -⟩ := hf.default hv
        rw [hDefaults] at hds
        exact nomatch hds
      · obtain ⟨ds, hds, -⟩ := hf.default hDefault
        rw [hDefaults] at hds
        exact nomatch hds
  | some defaults =>
      have hSize := hf.size defaults hDefaults
      have hCopied : (copyDefaults noneValue method.signature thunkSignature
          defaults method.signature.defaultSpanSize).length =
            thunkSignature.defaultSpanSize := length_copyDefaults _
      have hValue : ∀ {i v}, sig.defaultAt (i + 1) = some v →
          (copyDefaults noneValue method.signature thunkSignature defaults
            method.signature.defaultSpanSize)[
              i - thunkSignature.firstDefaultSlot]? = some v := by
        intro i v hDefault
        obtain ⟨ds, hds, hItem⟩ := hf.default hDefault
        rw [hDefaults] at hds
        rw [← Option.some.inj hds] at hItem
        exact getElem?_copyDefaults hThunk (Nat.le_refl _)
          ((defaultBelow_span_iff _).mpr (hasDefault_of_defaultAt hf hDefault))
          hItem
      simp only [makeConstructorThunkDefaultsDropFirst, hSize, ne_eq,
        not_true_eq_false, if_false, hCopied]
      split
      · rename_i hEmpty
        have hZero : thunkSignature.defaultSpanSize = 0 := by
          rw [← hCopied, List.isEmpty_iff.mp hEmpty]
          rfl
        refine ⟨_, rfl, implements_dropFirst hf h hThunk (fun _ => ?_)
          (fun _ hds => nomatch hds) fun hDefault => ?_⟩
        · exact (FunctionSignature.defaultSpanSize_eq_zero_iff _).mp hZero
        · have hItem := hValue hDefault
          rw [List.isEmpty_iff.mp hEmpty] at hItem
          exact nomatch hItem
      · refine ⟨_, rfl, implements_dropFirst hf h hThunk
          (fun hds => nomatch hds) (fun ds hds => ?_)
          fun hDefault => ⟨_, rfl, hValue hDefault⟩⟩
        rw [← Option.some.inj hds, hCopied]

/-- A method without a positional parameter has no thunk. -/
theorem makeConstructorThunkFunction_of_no_positional
    (hf : Implements method sig) (h : sig.nPositional = 0) :
    makeConstructorThunkFunction noneValue methodName firstParameter method =
      .error ⟨"TypeError",
        methodName ++ " requires a " ++ firstParameter ++ " parameter"⟩ := by
  simp only [makeConstructorThunkFunction]
  rw [if_pos (Or.inr (hf.nPositional.trans h))]

end Implements

/-! ## Running a thunk -/

/-- What a thunk's code does. -/
inductive ThunkCode where
  | createInstance
  | callInit (initCode : CodeObject)
  | callNew (newCode : CodeObject)

structure ConstructorFunction (V : Type) where
  function : Function V
  code : ThunkCode

/-- The registers after the frame header are the thunk's temporaries; those of
the instance and of the prepared arguments. -/
def firstTemporaryReg (thunk : Function V) : Nat :=
  roundUpToAbiAlignment thunk.signature.nParameters + frameHeaderSize

/-- The prepared arguments: a first value, then the thunk's parameters. -/
def prepareCallArgs (thunk : Function V) (callArgs : Nat) (first : V)
    (slots : Slots V) : Slots V :=
  let padded := roundUpToAbiAlignment thunk.signature.nParameters
  (List.range thunk.signature.nParameters).foldl
    (fun slots paramIdx =>
      store slots (encodeReg padded (callArgs + paramIdx + 1))
        (slots (encodeReg padded paramIdx)))
    (store slots (encodeReg padded callArgs) first)

/-- `enter_code_object_frame_from_prepared_args`. -/
def enterCodeObjectFrameFromPreparedArgs (header : FrameHeader V)
    (targetCodeObject : CodeObject) (firstArgReg : Int) (slots : Slots V) :
    Entered V :=
  let newFp :=
    newFramePointerFromFirstArg
      (roundUpToAbiAlignment targetCodeObject.functionSignature.nParameters)
      firstArgReg
  { codeObject := targetCodeObject
    newFp := newFp
    slots := initializeFrameHeader slots newFp header }

/-- The code of a thunk in the frame it has been entered with, up to the frame
of the method; a thunk without a method creates the instance and returns. -/
def runConstructorThunk (header : FrameHeader V) (instanceValue cls : V)
    (thunk : ConstructorFunction V) (entered : Entered V) :
    Option (Entered V) :=
  let padded := roundUpToAbiAlignment thunk.function.signature.nParameters
  let slots : Slots V := fun s => entered.slots (entered.newFp + s)
  match thunk.code with
  | .createInstance => none
  | .callInit initCode =>
      let instanceReg := firstTemporaryReg thunk.function
      let callArgs := callFrameReg padded (instanceReg + 1)
      let slots := store slots (encodeReg padded instanceReg) instanceValue
      some (enterCodeObjectFrameFromPreparedArgs header initCode
        (encodeReg padded callArgs)
        (prepareCallArgs thunk.function callArgs instanceValue slots))
  | .callNew newCode =>
      let callArgs := callFrameReg padded (firstTemporaryReg thunk.function)
      some (enterCodeObjectFrameFromPreparedArgs header newCode
        (encodeReg padded callArgs)
        (prepareCallArgs thunk.function callArgs cls slots))

section Run

variable {header : FrameHeader V} {instanceValue cls : V} {thunk : ConstructorFunction V}
  {entered : Entered V}

theorem encodeReg_temporary {padded k : Nat} (hk : k ≤ 127) :
    encodeReg padded (padded + frameHeaderSize + k) = -1 - k := by
  have hOffset : registerOffset padded (padded + frameHeaderSize + k) =
      -1 - k := by
    rw [registerOffset, frameHeaderSizeAboveFp, frameHeaderSize]
    omega
  rw [encodeReg_eq, hOffset]
  · omega
  · omega

theorem encodeReg_parameter {n i : Nat} (hn : n ≤ 124) (hi : i < n) :
    encodeReg (roundUpToAbiAlignment n) i =
      roundUpToAbiAlignment n + 3 - i := by
  have hPadded := roundUpToAbiAlignment_le hn (by decide)
  have hLe := le_roundUpToAbiAlignment n
  have hOffset : registerOffset (roundUpToAbiAlignment n) i =
      roundUpToAbiAlignment n + 3 - i := by
    rw [registerOffset, frameHeaderSizeAboveFp]
    omega
  rw [encodeReg_eq, hOffset]
  · omega
  · omega

/-- The first temporary is aligned for a call frame, the second is not. -/
theorem callFrameReg_first (padded : Nat) :
    callFrameReg padded (padded + frameHeaderSize) =
      padded + frameHeaderSize := by
  have h := @encodeReg_temporary padded 0 (by decide)
  rw [Nat.add_zero] at h
  rw [callFrameReg, isCallFrameAlignedRegister, h]
  rfl

theorem callFrameReg_second (padded : Nat) :
    callFrameReg padded (padded + frameHeaderSize + 1) =
      padded + frameHeaderSize + 2 := by
  have h := @encodeReg_temporary padded 1 (by decide)
  rw [callFrameReg, isCallFrameAlignedRegister, h]
  rfl

/-- The prepared arguments lie in consecutive slots. -/
theorem prepareCallArgs_apply {f : Function V} {k : Nat} {first : V}
    {slots : Slots V} (hn : f.signature.nParameters ≤ 124)
    (hk : k + f.signature.nParameters ≤ 127) :
    let callArgs := firstTemporaryReg f + k
    let padded := roundUpToAbiAlignment f.signature.nParameters
    prepareCallArgs f callArgs first slots (-1 - k) = first ∧
      ∀ i, i < f.signature.nParameters →
        prepareCallArgs f callArgs first slots (-2 - k - i) =
          slots (encodeReg padded i) := by
  intro callArgs padded
  have hReg : ∀ j, k + j ≤ 127 →
      encodeReg padded (callArgs + j) = -1 - (k + j : Nat) := by
    intro j hj
    have hIndex : callArgs + j = padded + frameHeaderSize + (k + j) :=
      Nat.add_assoc _ _ _
    rw [hIndex]
    exact encodeReg_temporary hj
  have hPrefix : ∀ m, m ≤ f.signature.nParameters →
      let moved := (List.range m).foldl
        (fun slots paramIdx =>
          store slots (encodeReg padded (callArgs + paramIdx + 1))
            (slots (encodeReg padded paramIdx)))
        (store slots (encodeReg padded callArgs) first)
      moved (-1 - k) = first ∧
        (∀ i, i < m → moved (-2 - k - i) = slots (encodeReg padded i)) ∧
        ∀ s, 0 ≤ s → moved s = slots s := by
    intro m
    induction m with
    | zero =>
        intro _
        have hFirst := hReg 0 (by omega)
        rw [Nat.add_zero] at hFirst
        simp only [List.range_zero, List.foldl_nil, hFirst]
        refine ⟨?_, fun i hi => absurd hi (Nat.not_lt_zero i), fun s hs => ?_⟩
        · exact store_self _ _ _
        · exact store_of_ne (by omega)
    | succ m ih =>
        intro hm
        obtain ⟨hFirst, hMoved, hAbove⟩ := ih (by omega)
        have hDest := hReg (m + 1) (by omega)
        rw [← Nat.add_assoc] at hDest
        have hSource : 0 ≤ encodeReg padded m := by
          have hLe := le_roundUpToAbiAlignment f.signature.nParameters
          have h := @encodeReg_parameter _ m hn (by omega)
          simp only [padded]
          omega
        simp only [List.range_succ, List.foldl_append, List.foldl_cons,
          List.foldl_nil, hDest]
        refine ⟨?_, fun i hi => ?_, fun s hs => ?_⟩
        · rw [store_of_ne (by omega)]
          exact hFirst
        · by_cases hLast : i = m
          · subst hLast
            have hSlot : (-2 - k - i : Int) = -1 - (k + (i + 1) : Nat) := by
              omega
            rw [hSlot, store_self]
            exact hAbove _ hSource
          · rw [store_of_ne (by omega)]
            exact hMoved i (by omega)
        · rw [store_of_ne (by omega)]
          exact hAbove s hs
  obtain ⟨hFirst, hMoved, -⟩ := hPrefix _ (Nat.le_refl _)
  exact ⟨hFirst, hMoved⟩

theorem enterCodeObject_parameter {target : CodeObject} {firstArgReg : Int}
    {slots : Slots V} (hn : target.functionSignature.nParameters ≤ 124)
    {i : Nat} (hi : i < target.functionSignature.nParameters) :
    (enterCodeObjectFrameFromPreparedArgs header target firstArgReg
      slots).parameter i = slots (firstArgReg - i) :=
  @invoke_parameter V header { codeObject := target } firstArgReg slots hn i hi

/-- The method a thunk calls, with the value put in front. -/
def ThunkCode.target (instanceValue cls : V) :
    ThunkCode → Option (V × CodeObject)
  | .createInstance => none
  | .callInit initCode => some (instanceValue, initCode)
  | .callNew newCode => some (cls, newCode)

/-- The method's frame holds the value in front and the thunk's parameters. -/
theorem runConstructorThunk_parameter {first : V} {target : CodeObject}
    (hTarget : thunk.code.target instanceValue cls = some (first, target))
    (hCode : entered.codeObject = thunk.function.codeObject)
    (hn : target.functionSignature.nParameters ≤ 124)
    (hCount : target.functionSignature.nParameters =
      thunk.function.signature.nParameters + 1) :
    ∃ e, runConstructorThunk header instanceValue cls thunk entered = some e ∧
      e.parameter 0 = first ∧
      ∀ i, i < thunk.function.signature.nParameters →
        e.parameter (i + 1) = entered.parameter i := by
  have hThunk : thunk.function.signature.nParameters ≤ 124 := by omega
  have hRead : ∀ (slots : Slots V) i,
      i < thunk.function.signature.nParameters →
      (∀ s, 0 ≤ s → slots s = entered.slots (entered.newFp + s)) →
      slots (encodeReg (roundUpToAbiAlignment
        thunk.function.signature.nParameters) i) = entered.parameter i := by
    intro slots i hi hSame
    have hLe := le_roundUpToAbiAlignment thunk.function.signature.nParameters
    rw [hSame _ (by rw [encodeReg_parameter hThunk hi]; omega),
      Entered.parameter, hCode]
    rfl
  -- the prepared arguments from a temporary on, read as parameters
  have hEntered : ∀ (k : Nat) (slots : Slots V),
      k + thunk.function.signature.nParameters ≤ 127 →
      (∀ s, 0 ≤ s → slots s = entered.slots (entered.newFp + s)) →
      let e := enterCodeObjectFrameFromPreparedArgs header target
        (encodeReg
          (roundUpToAbiAlignment thunk.function.signature.nParameters)
          (firstTemporaryReg thunk.function + k))
        (prepareCallArgs thunk.function
          (firstTemporaryReg thunk.function + k) first slots)
      e.parameter 0 = first ∧
        ∀ i, i < thunk.function.signature.nParameters →
          e.parameter (i + 1) = entered.parameter i := by
    intro k slots hk hSame
    obtain ⟨hFirst, hMoved⟩ := @prepareCallArgs_apply V thunk.function k first
      slots hThunk hk
    have hReg : encodeReg
        (roundUpToAbiAlignment thunk.function.signature.nParameters)
        (firstTemporaryReg thunk.function + k) = -1 - k :=
      encodeReg_temporary (by omega)
    refine ⟨?_, fun i hi => ?_⟩
    · rw [enterCodeObject_parameter hn (by omega), hReg]
      simpa only [Nat.cast_zero, sub_zero] using hFirst
    · have hSlot : (-1 - k : Int) - (i + 1 : Nat) = -2 - k - i := by omega
      rw [enterCodeObject_parameter hn (by omega), hReg, hSlot]
      exact (hMoved i hi).trans (hRead slots i hi hSame)
  rw [runConstructorThunk]
  cases hKind : thunk.code with
  | createInstance =>
      rw [hKind] at hTarget
      exact nomatch hTarget
  | callInit initCode =>
      rw [hKind] at hTarget
      obtain ⟨rfl, rfl⟩ := Prod.mk.inj (Option.some.inj hTarget)
      have hInstance := @encodeReg_temporary
        (roundUpToAbiAlignment thunk.function.signature.nParameters) 0
        (by decide)
      refine ⟨_, rfl, ?_⟩
      rw [firstTemporaryReg, callFrameReg_second]
      refine hEntered 2 _ (by omega) fun s hs => ?_
      refine store_of_ne ?_
      rw [Nat.add_zero] at hInstance
      rw [hInstance]
      omega
  | callNew newCode =>
      rw [hKind] at hTarget
      obtain ⟨rfl, rfl⟩ := Prod.mk.inj (Option.some.inj hTarget)
      refine ⟨_, rfl, ?_⟩
      rw [firstTemporaryReg, callFrameReg_first]
      exact hEntered 0 _ (by omega) fun s hs => rfl

/-- When a thunk's frame binds the parameters without the first, the method's
frame binds all of them, with the value in front. -/
theorem runConstructorThunk_binds {objects : Objects V}
    {sig : ParameterSignature V} {args : Arguments V} {first : V}
    {method : Function V}
    (hTarget : thunk.code.target instanceValue cls =
      some (first, method.codeObject))
    (hCode : entered.codeObject = thunk.function.codeObject)
    (hMethod : Implements method sig) (h : 0 < sig.nPositional)
    (hThunk : Implements thunk.function (dropFirst sig))
    (hn : sig.order.length ≤ 124) (hNames : NamesNoDropped sig args)
    (hBinds : BindsParameters objects (dropFirst sig) args entered) :
    ∃ e, runConstructorThunk header instanceValue cls thunk entered = some e ∧
      BindsParameters objects sig (consArgument first args) e := by
  have hLength := length_order_dropFirst h
  have hCountMethod : method.codeObject.functionSignature.nParameters =
      sig.order.length := hMethod.nParameters
  have hCountThunk := hThunk.nParameters
  obtain ⟨e, hRun, hFirst, hRest⟩ := @runConstructorThunk_parameter V header
    instanceValue cls thunk entered first method.codeObject hTarget hCode
    (by omega) (by omega)
  refine ⟨e, hRun, fun i hi => ?_⟩
  cases i with
  | zero => exact ⟨_, boundAt_cons_zero first h, hFirst⟩
  | succ i =>
      obtain ⟨b, hBound, hValue⟩ := hBinds i (by omega)
      rw [boundAt_dropFirst first h hNames] at hBound
      exact ⟨b, hBound, (hRest i (by omega)).trans hValue⟩

end Run

end CloverVM.Runtime.ConstructorThunk
