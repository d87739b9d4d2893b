import CloverVM.Compiler.FunctionDefinition

/-!
# Argument binding

What a call binds to the parameters of a function: the language's rules, over
the groups of parameters a definition writes, and the functions whose
signature, names and defaults describe those groups by slot.
-/

namespace CloverVM.Runtime.ArgumentBinding

open CloverVM.ObjectModel
open CloverVM.Compiler.FunctionDefinition

variable {V : Type}

/-- The arguments of a call; keywords in the order they are written. -/
structure Arguments (V : Type) where
  positional : List V
  keywords : List (String × V)

/-- What a parameter is bound to. -/
inductive Bound (V : Type) where
  | value (v : V)
  | positionals (vs : List V)
  | keywords (kws : List (String × V))

section Rules

variable (sig : ParameterSignature V)

/-- The index of the parameter a keyword names. -/
def keywordTarget (name : String) : Option Nat :=
  match sig.posOrKw.findIdx? (·.name = name) with
  | some i => some (sig.posonly.length + i)
  | none =>
      (sig.kwonly.findIdx? (·.name = name)).map (sig.firstKwonlyIdx + ·)

/-- The value of the keyword that names a parameter. -/
def keywordValue (keywords : List (String × V)) (i : Nat) : Option V :=
  (keywords.find? fun kw => keywordTarget sig kw.1 = some i).map Prod.snd

/-- What a call supplies for a parameter, by position or by name. -/
def suppliedAt (args : Arguments V) (i : Nat) : Option V :=
  (if i < sig.nPositional then args.positional[i]? else none).or
    (keywordValue sig args.keywords i)

/-- What the parameter at an index is bound to, none when it is missing. -/
def boundAt (args : Arguments V) (i : Nat) : Option (Bound V) :=
  match sig.order[i]? with
  | none => none
  | some (.parameter p) => ((suppliedAt sig args i).or p.default).map .value
  | some (.varargs _) =>
      some (.positionals (args.positional.drop sig.nPositional))
  | some (.kwargs _) =>
      some (.keywords
        (args.keywords.filter fun kw => (keywordTarget sig kw.1).isNone))

/-- A call binds unless there are too many positional arguments, a keyword is
repeated, unknown or already filled by position, or a parameter is missing. -/
structure Accepts (args : Arguments V) : Prop where
  positionals : args.positional.length ≤ sig.nPositional ∨
    sig.vararg.isSome = true
  distinct : (args.keywords.map Prod.fst).Nodup
  expected : ∀ kw ∈ args.keywords, keywordTarget sig kw.1 = none →
    sig.kwarg.isSome = true
  once : ∀ kw ∈ args.keywords, ∀ i, keywordTarget sig kw.1 = some i →
    i < sig.nPositional → args.positional.length ≤ i
  complete : ∀ i, i < sig.order.length → boundAt sig args i ≠ none

/-- The index a keyword names is that of a parameter after the
positional-only ones. -/
theorem keywordTarget_cases {name : String} {i : Nat}
    (h : keywordTarget sig name = some i) :
    (sig.posonly.length ≤ i ∧ i < sig.nPositional) ∨
      ∃ j, j < sig.kwonly.length ∧ i = sig.firstKwonlyIdx + j := by
  rw [keywordTarget] at h
  split at h
  · rename_i j hj
    have hLt := (List.findIdx?_eq_some_iff_getElem.mp hj).1
    have hIndex := Option.some.inj h
    left
    rw [ParameterSignature.nPositional]
    omega
  · obtain ⟨j, hj, hIndex⟩ := Option.map_eq_some_iff.mp h
    exact Or.inr
      ⟨j, (List.findIdx?_eq_some_iff_getElem.mp hj).1, hIndex.symm⟩

theorem keywordTarget_lt {name : String} {i : Nat}
    (h : keywordTarget sig name = some i) : i < sig.order.length := by
  have hLength := sig.length_order
  have hLe := sig.nPositional_le_firstKwonlyIdx
  rcases keywordTarget_cases sig h with ⟨-, hLt⟩ | ⟨j, hj, rfl⟩
  · omega
  · omega

/-- Different keywords name different parameters. -/
theorem keywordTarget_injective {name name' : String} {i : Nat}
    (h : keywordTarget sig name = some i)
    (h' : keywordTarget sig name' = some i) : name = name' := by
  have hNamed : ∀ {n : String}, keywordTarget sig n = some i →
      ∃ p, sig.order[i]? = some (.parameter p) ∧ p.name = n := by
    intro n hn
    rw [keywordTarget] at hn
    split at hn
    · rename_i j hj
      obtain ⟨hLt, hName, -⟩ := List.findIdx?_eq_some_iff_getElem.mp hj
      have hIndex := Option.some.inj hn
      refine ⟨sig.posOrKw[j], ?_, of_decide_eq_true hName⟩
      rw [sig.getElem?_order_positional
        (by rw [ParameterSignature.nPositional]; omega),
        List.getElem?_append_right (by omega), ← hIndex,
        Nat.add_sub_cancel_left, List.getElem?_eq_getElem hLt]
      rfl
    · obtain ⟨j, hj, hIndex⟩ := Option.map_eq_some_iff.mp hn
      obtain ⟨hLt, hName, -⟩ := List.findIdx?_eq_some_iff_getElem.mp hj
      refine ⟨sig.kwonly[j], ?_, of_decide_eq_true hName⟩
      rw [← hIndex, sig.getElem?_order_kwonly hLt,
        List.getElem?_eq_getElem hLt]
      rfl
  obtain ⟨p, hp, rfl⟩ := hNamed h
  obtain ⟨p', hp', rfl⟩ := hNamed h'
  rw [hp] at hp'
  rw [ParameterNode.parameter.inj (Option.some.inj hp')]

end Rules

/-- The index a keyword remap has for a name. -/
def remapIndex (remap : FunctionKeywordRemap) (name : String) : Option Nat :=
  (remap.find? (·.1 = name)).map Prod.snd

/-- A function object whose code has these parameters. -/
structure Implements (f : Function V) (sig : ParameterSignature V) :
    Prop where
  nParameters : f.signature.nParameters = sig.order.length
  nPositional : f.signature.nPositionalParameters = sig.nPositional
  nPosonly : f.signature.nPosonlyParameters = sig.posonly.length
  nPosOrKw : f.signature.nPosOrKwParameters = sig.posOrKw.length
  hasVarargs : f.signature.hasVarargs = sig.vararg.isSome
  hasKwargs : f.signature.hasKwargs = sig.kwarg.isSome
  required : f.signature.hasRequiredKeywordOnlyParameters =
    parameterSequenceHasRequiredParameter sig.kwonly
  remap : f.codeObject.functionKeywordRemap =
    (codegenFunction sig).functionKeywordRemap
  hasDefault : ∀ i, f.signature.hasDefaultForParameter i =
    (sig.defaultAt i).isSome
  noDefaults : f.defaultParameters = none →
    f.signature.defaultPresenceMask = 0
  size : ∀ defaults, f.defaultParameters = some defaults →
    defaults.length = f.signature.defaultSpanSize
  spanInside : ∀ defaults, f.defaultParameters = some defaults →
    f.signature.firstDefaultSlot + defaults.length ≤ sig.order.length
  default : ∀ {i v}, sig.defaultAt i = some v →
    ∃ defaults, f.defaultParameters = some defaults ∧
      defaults[i - f.signature.firstDefaultSlot]? = some v

/-! ## Definitions implement their parameters -/

section Codegen

variable {sig : ParameterSignature V}

theorem find?_mapIdx_name (ps : List (Parameter V)) (name : String) :
    ∀ first : Nat,
      ((ps.mapIdx fun i p => (p.name, first + i)).find? (·.1 = name)).map
          Prod.snd =
        (ps.findIdx? (·.name = name)).map (first + ·) := by
  induction ps with
  | nil =>
      intro first
      rfl
  | cons p ps ih =>
      intro first
      have hShift : (ps.mapIdx fun i p => (p.name, first + (i + 1))) =
          ps.mapIdx fun i p => (p.name, first + 1 + i) := by
        congr 1
        funext i p
        rw [Nat.add_assoc, Nat.add_comm 1 i]
      rw [List.mapIdx_cons, List.find?_cons, List.findIdx?_cons]
      cases hName : decide (p.name = name) with
      | true => rfl
      | false =>
          simp only
          rw [hShift, ih (first + 1)]
          cases ps.findIdx? (·.name = name) with
          | none => rfl
          | some i =>
              simp only [Option.map_some, Bool.false_eq_true, if_false,
                Nat.add_assoc, Nat.add_comm 1 i]

theorem remapIndex_codegenFunction (name : String) :
    remapIndex (codegenFunction sig).functionKeywordRemap name =
      keywordTarget sig name := by
  rw [remapIndex, codegenFunction, List.find?_append, keywordTarget]
  have hPosOrKw := find?_mapIdx_name sig.posOrKw name sig.posonly.length
  have hKwonly := find?_mapIdx_name sig.kwonly name sig.firstKwonlyIdx
  cases hIndex : sig.posOrKw.findIdx? (·.name = name) with
  | some i =>
      rw [hIndex, Option.map_some] at hPosOrKw
      obtain ⟨entry, hEntry, hSnd⟩ := Option.map_eq_some_iff.mp hPosOrKw
      rw [hEntry, Option.some_or, Option.map_some, hSnd]
  | none =>
      rw [hIndex, Option.map_none, Option.map_eq_none_iff] at hPosOrKw
      rw [hPosOrKw, Option.none_or, hKwonly]

theorem Implements.remapIndex_eq {f : Function V} (hf : Implements f sig)
    (name : String) :
    remapIndex f.codeObject.functionKeywordRemap name =
      keywordTarget sig name := by
  rw [hf.remap, remapIndex_codegenFunction]

theorem isSome_defaultAt_iff {i : Nat} (h : i < sig.order.length) :
    (sig.defaultAt i).isSome = (sig.order[i]).hasDefault := by
  rw [ParameterSignature.defaultAt, List.getElem?_eq_getElem h]
  rfl

/-- The first and the last default delimit all of them. -/
theorem defaultSpan_spec
    (h : firstDefaultParameterIndex sig.order ≠ sig.order.length) :
    let first := firstDefaultParameterIndex sig.order
    let last := lastDefaultParameterIndex sig.order
    first ≤ last ∧ last < sig.order.length ∧
      (sig.defaultAt last).isSome = true ∧
      ∀ i, (sig.defaultAt i).isSome = true → first ≤ i ∧ i ≤ last := by
  intro first last
  have hFirstLt : first < sig.order.length :=
    lt_of_le_of_ne List.findIdx_le_length h
  have hFirst : (sig.order[first]).hasDefault = true :=
    List.findIdx_getElem (w := hFirstLt)
  -- the offset from the end that the backwards search finds
  have hOffset : sig.order.reverse.findIdx ParameterNode.hasDefault <
      sig.order.reverse.length := by
    rw [List.findIdx_lt_length]
    exact ⟨sig.order[first], List.mem_reverse.mpr (List.getElem_mem hFirstLt),
      hFirst⟩
  have hOffsetLt := hOffset
  rw [List.length_reverse] at hOffsetLt
  have hLastEq : last = sig.order.length -
      sig.order.reverse.findIdx ParameterNode.hasDefault - 1 := by
    simp only [last, lastDefaultParameterIndex, if_pos hOffsetLt]
  have hLastLt : last < sig.order.length := by omega
  have hLast : (sig.order[last]).hasDefault = true := by
    have hFound := List.findIdx_getElem (w := hOffset)
    rw [List.getElem_reverse] at hFound
    have hIndex : sig.order.length - 1 -
        sig.order.reverse.findIdx ParameterNode.hasDefault = last := by
      omega
    simp only [hIndex] at hFound
    exact hFound
  have hWithin : ∀ i, (sig.defaultAt i).isSome = true →
      first ≤ i ∧ i ≤ last := by
    intro i hi
    have hLt : i < sig.order.length := by
      obtain ⟨v, hv⟩ := Option.isSome_iff_exists.mp hi
      exact sig.lt_length_of_defaultAt hv
    rw [isSome_defaultAt_iff hLt] at hi
    constructor
    · by_contra hBefore
      have hNot : (sig.order[i]).hasDefault = false :=
        List.not_of_lt_findIdx (Nat.lt_of_not_le hBefore)
      exact Bool.false_ne_true (hNot.symm.trans hi)
    · by_contra hAfter
      have hPos : sig.order.length - 1 - i <
          sig.order.reverse.findIdx ParameterNode.hasDefault := by omega
      have hNot := List.not_of_lt_findIdx hPos
      rw [List.getElem_reverse] at hNot
      have hIndex : sig.order.length - 1 - (sig.order.length - 1 - i) = i := by
        omega
      simp only [hIndex] at hNot
      exact Bool.false_ne_true (hNot.symm.trans hi)
  refine ⟨(hWithin last ?_).1, hLastLt, ?_, hWithin⟩
  · rw [isSome_defaultAt_iff hLastLt]
    exact hLast
  · rw [isSome_defaultAt_iff hLastLt]
    exact hLast

/-- A signature without a default has no default slot. -/
theorem defaultAt_eq_none
    (h : firstDefaultParameterIndex sig.order = sig.order.length) (i : Nat) :
    sig.defaultAt i = none := by
  by_contra hSome
  obtain ⟨v, hv⟩ := Option.ne_none_iff_exists'.mp hSome
  have hLt := sig.lt_length_of_defaultAt hv
  have hDefault := isSome_defaultAt_iff hLt
  have hBefore : i < firstDefaultParameterIndex sig.order := by
    rwa [h]
  have hNot : (sig.order[i]).hasDefault = false :=
    List.not_of_lt_findIdx hBefore
  rw [hv, hNot] at hDefault
  exact nomatch hDefault

theorem implements_withoutDefaults
    (h : firstDefaultParameterIndex sig.order = sig.order.length) :
    Implements (V := V) { codeObject := codegenFunction sig } sig := by
  refine
    { nParameters := rfl, nPositional := rfl, nPosonly := rfl,
      nPosOrKw := rfl, hasVarargs := rfl, hasKwargs := rfl, required := rfl
      remap := rfl
      hasDefault := fun i => ?_
      noDefaults := fun _ => rfl
      size := fun _ hDefaults => nomatch hDefaults
      spanInside := fun _ hDefaults => nomatch hDefaults
      default := fun hDefault => ?_ }
  · rw [defaultAt_eq_none h]
    rfl
  · rw [defaultAt_eq_none h] at hDefault
    exact nomatch hDefault

/-- The span of a signature, as the code generator lists it. -/
def defaultSpan (sig : ParameterSignature V) : List (ParameterNode V) :=
  (sig.order.drop (firstDefaultParameterIndex sig.order)).take
    (lastDefaultParameterIndex sig.order -
      firstDefaultParameterIndex sig.order + 1)

theorem getElem?_defaultSpan {d : Nat}
    (hd : d ≤ lastDefaultParameterIndex sig.order -
      firstDefaultParameterIndex sig.order) :
    (defaultSpan sig)[d]? =
      sig.order[firstDefaultParameterIndex sig.order + d]? := by
  rw [defaultSpan, List.getElem?_take_of_lt (by omega), List.getElem?_drop]

/-- The mask of a span that fits has a bit for each default of the
signature. -/
theorem presenceMask_defaultSpan
    (h : firstDefaultParameterIndex sig.order ≠ sig.order.length)
    (hFits : lastDefaultParameterIndex sig.order -
      firstDefaultParameterIndex sig.order + 1 ≤ 64) (d : Nat) :
    (presenceMask (defaultSpan sig) 0 0).getLsbD d =
      (sig.defaultAt
        (firstDefaultParameterIndex sig.order + d)).isSome := by
  obtain ⟨hLe, hLast, -, hWithin⟩ := defaultSpan_spec h
  by_cases hd : d ≤ lastDefaultParameterIndex sig.order -
      firstDefaultParameterIndex sig.order
  · rw [presenceMask_getLsbD (by omega), Nat.sub_zero,
      getElem?_defaultSpan hd, ParameterSignature.defaultAt]
    simp
  · have hNone : (sig.defaultAt
        (firstDefaultParameterIndex sig.order + d)).isSome = false := by
      refine Bool.eq_false_iff.mpr fun hSome => ?_
      have := (hWithin _ hSome).2
      omega
    rw [hNone]
    by_cases hBit : d < 64
    · have hAfter : (defaultSpan sig)[d]? = none := by
        refine List.getElem?_eq_none ?_
        rw [defaultSpan, List.length_take]
        omega
      rw [presenceMask_getLsbD hBit, Nat.sub_zero, hAfter]
      simp
    · exact BitVec.getLsbD_of_ge _ _ (Nat.not_lt.mp hBit)

theorem length_defaultSpan
    (h : firstDefaultParameterIndex sig.order ≠ sig.order.length) :
    (defaultSpan sig).length = lastDefaultParameterIndex sig.order -
      firstDefaultParameterIndex sig.order + 1 := by
  obtain ⟨hLe, hLast, -, -⟩ := defaultSpan_spec h
  rw [defaultSpan, List.length_take, List.length_drop]
  omega

/-- The function object of a definition implements its parameters. -/
theorem codegenFunctionDefinition_implements {noneValue : V}
    {f : Function V}
    (h : codegenFunctionDefinition noneValue sig = .ok f) :
    Implements f sig := by
  simp only [codegenFunctionDefinition] at h
  split at h
  · rename_i hNone
    rw [← Except.ok.inj h]
    exact implements_withoutDefaults hNone
  · rename_i hSome
    split at h
    · exact nomatch h
    · rename_i hFits
      obtain ⟨hLe, hLast, hLastDefault, hWithin⟩ := defaultSpan_spec hSome
      have hLength := length_defaultSpan hSome
      have hMask := presenceMask_defaultSpan hSome (Nat.not_lt.mp hFits)
      rw [← defaultSpan] at h
      rw [← Except.ok.inj h]
      refine
        { nParameters := rfl, nPositional := rfl, nPosonly := rfl,
          nPosOrKw := rfl, hasVarargs := rfl, hasKwargs := rfl,
          required := rfl
          remap := rfl
          hasDefault := fun i => ?_
          noDefaults := fun hNone => nomatch hNone
          size := fun defaults hDefaults => ?_
          spanInside := fun defaults hDefaults => ?_
          default := fun {i v} hDefault => ?_ }
      · rw [Bool.eq_iff_iff, FunctionSignature.hasDefaultForParameter_iff]
        simp only [Function.signature, hMask]
        constructor
        · rintro ⟨hFirst, hBit⟩
          rwa [Nat.add_sub_cancel' hFirst] at hBit
        · intro hDefault
          have hFirst := (hWithin i hDefault).1
          refine ⟨hFirst, ?_⟩
          rwa [Nat.add_sub_cancel' hFirst]
      · rw [← Option.some.inj hDefaults, List.length_map, hLength]
        symm
        refine FunctionSignature.defaultSpanSize_eq ?_ fun i hi => ?_
        · simp only [Function.signature, hMask]
          rwa [Nat.add_sub_cancel' hLe]
        · simp only [Function.signature, hMask]
          refine Bool.eq_false_iff.mpr fun hDefault => ?_
          have := (hWithin _ hDefault).2
          omega
      · rw [← Option.some.inj hDefaults, List.length_map, hLength]
        simp only [Function.signature]
        omega
      · refine ⟨_, rfl, ?_⟩
        obtain ⟨hFirst, hBefore⟩ := hWithin i (by rw [hDefault]; rfl)
        obtain ⟨node, hNode, hValue⟩ := Option.bind_eq_some_iff.mp hDefault
        simp only [Function.signature]
        rw [List.getElem?_map, getElem?_defaultSpan (by omega),
          Nat.add_sub_cancel' hFirst, hNode, Option.map_some, hValue]
        rfl

end Codegen

end CloverVM.Runtime.ArgumentBinding
