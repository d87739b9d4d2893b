import CloverVM.Runtime.CallEntry

/-!
# Calls bind their arguments

A call with keywords resolves each of them to a parameter, checks that nothing
is missing, and enters the frame; a positional call only checks the number of
its arguments.  Both do what the rules of the language say for every function
that implements a parameter list of at most 124 parameters, whose slots a
signed byte can name.
-/

namespace CloverVM.Runtime.CallBinding

open CloverVM.Bytecode.Frame
open CloverVM.ObjectModel
open CloverVM.Compiler.FunctionDefinition
open CloverVM.Runtime.ArgumentBinding
open CloverVM.Runtime.CallEntry

variable {V : Type}

section StoreKeywords

variable {f : Function V} {sig : ParameterSignature V} {firstArgReg : Int}

/-- The register a keyword resolves to. -/
def keywordDest (f : Function V) (sig : ParameterSignature V)
    (name : String) : Int :=
  match keywordTarget sig name with
  | none => keywordDestKwargsDict
  | some i =>
      encodeReg (roundUpToAbiAlignment f.signature.nParameters) i

/-- No parameter has the register that stands for the dict. -/
theorem encodeReg_ne_keywordDest (hn : f.signature.nParameters ≤ 124) {i : Nat}
    (hi : i < f.signature.nParameters) :
    encodeReg (roundUpToAbiAlignment f.signature.nParameters) i ≠
      keywordDestKwargsDict := by
  have hPadded := roundUpToAbiAlignment_le hn (by decide)
  have hLe := le_roundUpToAbiAlignment f.signature.nParameters
  rw [encodeReg_eq, keywordDestKwargsDict, registerOffset,
    frameHeaderSizeAboveFp]
  · omega
  · rw [registerOffset, frameHeaderSizeAboveFp]
    omega
  · rw [registerOffset, frameHeaderSizeAboveFp]
    omega

theorem keywordValue_cons (kw : String × V) (kws : List (String × V))
    (i : Nat) :
    keywordValue sig (kw :: kws) i =
      if keywordTarget sig kw.1 = some i then some kw.2
      else keywordValue sig kws i := by
  rw [keywordValue, List.find?_cons]
  by_cases h : keywordTarget sig kw.1 = some i
  · simp [h]
  · simp [h, keywordValue]

/-- A parameter no keyword names gets no keyword value. -/
theorem keywordValue_eq_none {kws : List (String × V)} {i : Nat}
    (h : ∀ kw ∈ kws, keywordTarget sig kw.1 ≠ some i) :
    keywordValue sig kws i = none := by
  rw [keywordValue, Option.map_eq_none_iff, List.find?_eq_none]
  intro kw hkw
  simpa using h kw hkw

/-- After the keyword loop every parameter a keyword names holds its value,
the others are as before, and the dict has the keywords no parameter takes. -/
theorem storeKeywords_apply (hf : Implements f sig)
    (hn : f.signature.nParameters ≤ 124) {collects : Bool}
    {firstKwValueReg : Int} :
    ∀ {kws : List (String × V)} {kwIdx : Nat} {slots : Slots V}
      {dict : List (String × V)},
      (∀ (k : Nat) (v : V), (kws.map Prod.snd)[k]? = some v →
        slots (firstKwValueReg - (kwIdx + k : Nat)) = v) →
      (∀ k < kws.length,
        firstArgReg < firstKwValueReg - (kwIdx + k : Nat)) →
      (kws.map Prod.fst).Nodup →
      (∀ kw ∈ kws, keywordTarget sig kw.1 = none → collects = true) →
      let r := storeKeywords collects
        (newFramePointerFromFirstArg
          (roundUpToAbiAlignment f.signature.nParameters) firstArgReg)
        firstKwValueReg (kws.map fun kw => keywordDest f sig kw.1)
        (kws.map Prod.fst) kwIdx slots dict
      (∀ i, i < f.signature.nParameters →
        r.1 (firstArgReg - i) =
          (keywordValue sig kws i).getD (slots (firstArgReg - i))) ∧
      r.2 = dict ++ kws.filter fun kw => (keywordTarget sig kw.1).isNone := by
  intro kws
  induction kws with
  | nil =>
      intro kwIdx slots dict _ _ _ _
      exact ⟨fun i _ => rfl, (List.append_nil dict).symm⟩
  | cons kw kws ih =>
      intro kwIdx slots dict hValues hAbove hDistinct hCollects
      have hValue : slots (firstKwValueReg - kwIdx) = kw.2 :=
        hValues 0 kw.2 rfl
      have hShift : ∀ k : Nat, kwIdx + 1 + k = kwIdx + (k + 1) := by
        intro k
        omega
      have hAbove' : ∀ k < kws.length,
          firstArgReg < firstKwValueReg - (kwIdx + 1 + k : Nat) := by
        intro k hk
        rw [hShift]
        exact hAbove (k + 1) (Nat.succ_lt_succ hk)
      rw [List.map_cons, List.nodup_cons] at hDistinct
      have hCollects' : ∀ kw ∈ kws, keywordTarget sig kw.1 = none →
          collects = true := fun kw h => hCollects kw (List.mem_cons_of_mem _ h)
      simp only [List.map_cons, storeKeywords, hValue]
      cases hTarget : keywordTarget sig kw.1 with
      | none =>
          have hDict : (collects && decide (keywordDest f sig kw.1 =
              keywordDestKwargsDict)) = true := by
            rw [hCollects kw List.mem_cons_self hTarget, keywordDest, hTarget]
            rfl
          simp only [hDict, if_true]
          have hValues' : ∀ (k : Nat) (v : V),
              (kws.map Prod.snd)[k]? = some v →
              slots (firstKwValueReg - (kwIdx + 1 + k : Nat)) = v := by
            intro k v hk
            rw [hShift]
            exact hValues (k + 1) v hk
          obtain ⟨hSlots, hDictEq⟩ := @ih (kwIdx + 1) slots
            (dict ++ [(kw.1, kw.2)]) hValues' hAbove' hDistinct.2 hCollects'
          refine ⟨fun i hi => ?_, ?_⟩
          · rw [hSlots i hi, keywordValue_cons, hTarget]
            rfl
          · rw [hDictEq, List.filter_cons, hTarget]
            simp
      | some target =>
          have hLt : target < f.signature.nParameters := by
            rw [hf.nParameters]
            exact keywordTarget_lt sig hTarget
          have hDest : keywordDest f sig kw.1 =
              encodeReg (roundUpToAbiAlignment f.signature.nParameters)
                target := by
            rw [keywordDest, hTarget]
          have hSlot : newFramePointerFromFirstArg
              (roundUpToAbiAlignment f.signature.nParameters) firstArgReg +
                encodeReg (roundUpToAbiAlignment f.signature.nParameters)
                  target = firstArgReg - target := slotOf_eq hn hLt
          have hNotDict : (collects && decide (keywordDest f sig kw.1 =
              keywordDestKwargsDict)) = false := by
            rw [hDest, decide_eq_false (encodeReg_ne_keywordDest hn hLt),
              Bool.and_false]
          simp only [hNotDict, Bool.false_eq_true, if_false]
          simp only [hDest, hSlot]
          -- the values still to be stored lie above the parameters
          have hValues' : ∀ (k : Nat) (v : V),
              (kws.map Prod.snd)[k]? = some v →
              store slots (firstArgReg - target) kw.2
                (firstKwValueReg - (kwIdx + 1 + k : Nat)) = v := by
            intro k v hk
            have hLength : k < kws.length := by
              have := (List.getElem?_eq_some_iff.mp hk).1
              rwa [List.length_map] at this
            have := hAbove' k hLength
            rw [store_of_ne (by omega), hShift]
            exact hValues (k + 1) v hk
          obtain ⟨hSlots, hDictEq⟩ := @ih (kwIdx + 1)
            (store slots (firstArgReg - target) kw.2) dict hValues' hAbove'
            hDistinct.2 hCollects'
          refine ⟨fun i hi => ?_, ?_⟩
          · rw [hSlots i hi, keywordValue_cons, hTarget]
            by_cases hEq : target = i
            · subst hEq
              -- no later keyword names this parameter again
              have hNone : keywordValue sig kws target = none := by
                refine keywordValue_eq_none fun kw' hkw' hTarget' => ?_
                have hName := keywordTarget_injective sig hTarget hTarget'
                refine hDistinct.1 ?_
                rw [hName]
                exact List.mem_map_of_mem hkw'
              rw [hNone, Option.getD_none, store_self, if_pos rfl]
              rfl
            · rw [store_of_ne (by omega),
                if_neg (fun h => hEq (Option.some.inj h))]
          · rw [hDictEq, List.filter_cons, hTarget]
            simp

end StoreKeywords

/-! ## Which keywords are accepted -/

section ResolveKeywords

variable {f : Function V} {sig : ParameterSignature V}

theorem namedParameter_eq (hf : Implements f sig) (name : String) :
    namedParameter f name = keywordTarget sig name := by
  rw [namedParameter, hf.remapIndex_eq]
  cases hTarget : keywordTarget sig name with
  | none => rfl
  | some i =>
      have hLt := keywordTarget_lt sig hTarget
      rw [← hf.nParameters] at hLt
      exact if_neg (Nat.not_le.mpr hLt)

/-- The keywords of a call, given the earlier ones and the parameters filled,
are distinct, taken by some parameter, and fill no parameter twice. -/
def KeywordsFit (sig : ParameterSignature V) :
    List String → List String → (Nat → Bool) → Prop
  | [], _, _ => True
  | name :: names, previous, filled =>
      name ∉ previous ∧
      (keywordTarget sig name = none → sig.kwarg.isSome = true) ∧
      (∀ i, keywordTarget sig name = some i → filled i = false) ∧
      KeywordsFit sig names (name :: previous)
        (fun i => decide (keywordTarget sig name = some i) || filled i)

theorem keywordsFit_iff :
    ∀ {names previous : List String} {filled : Nat → Bool},
      KeywordsFit sig names previous filled ↔
        names.Nodup ∧ (∀ name ∈ names, name ∉ previous) ∧
        (∀ name ∈ names, keywordTarget sig name = none →
          sig.kwarg.isSome = true) ∧
        (∀ name ∈ names, ∀ i, keywordTarget sig name = some i →
          filled i = false) := by
  intro names
  induction names with
  | nil => simp [KeywordsFit]
  | cons name names ih =>
      intro previous filled
      rw [KeywordsFit, ih]
      constructor
      · rintro ⟨hNew, hTaken, hFree, hNodup, hLater, hTakens, hFrees⟩
        refine ⟨List.nodup_cons.mpr ⟨?_, hNodup⟩, ?_, ?_, ?_⟩
        · intro hMem
          exact hLater name hMem List.mem_cons_self
        · rintro other (_ | ⟨_, hMem⟩)
          · exact hNew
          · exact fun h => hLater other hMem (List.mem_cons_of_mem _ h)
        · rintro other (_ | ⟨_, hMem⟩)
          · exact hTaken
          · exact hTakens other hMem
        · rintro other (_ | ⟨_, hMem⟩) i hi
          · exact hFree i hi
          · exact (Bool.or_eq_false_iff.mp (hFrees other hMem i hi)).2
      · rintro ⟨hNodup, hPrevious, hTakens, hFrees⟩
        rw [List.nodup_cons] at hNodup
        refine ⟨hPrevious name List.mem_cons_self,
          hTakens name List.mem_cons_self, hFrees name List.mem_cons_self,
          hNodup.2, ?_, fun other h => hTakens other
            (List.mem_cons_of_mem _ h), ?_⟩
        · intro other hMem hIn
          rcases List.mem_cons.mp hIn with rfl | hIn
          · exact hNodup.1 hMem
          · exact hPrevious other (List.mem_cons_of_mem _ hMem) hIn
        · intro other hMem i hi
          rw [Bool.or_eq_false_iff]
          refine ⟨decide_eq_false fun hSame => ?_,
            hFrees other (List.mem_cons_of_mem _ hMem) i hi⟩
          rw [keywordTarget_injective sig hSame hi] at hNodup
          exact hNodup.1 hMem

/-- The keyword loop accepts the keywords that fit. -/
theorem resolveKeywords_of_fit (hf : Implements f sig) :
    ∀ {names previous : List String} {filled : Nat → Bool},
      KeywordsFit sig names previous filled →
      ∃ filled', resolveKeywords f names previous filled =
          .ok (names.map (keywordDest f sig), filled') ∧
        ∀ i, filled' i = (filled i ||
          names.any fun name => decide (keywordTarget sig name = some i)) := by
  intro names
  induction names with
  | nil =>
      intro previous filled _
      exact ⟨filled, rfl, fun i => by simp⟩
  | cons name names ih =>
      rintro previous filled ⟨hNew, hTaken, hFree, hRest⟩
      obtain ⟨filled', hResolved, hFilled⟩ := ih hRest
      refine ⟨filled', ?_, fun i => ?_⟩
      · rw [resolveKeywords, if_neg hNew, namedParameter_eq hf]
        cases hTarget : keywordTarget sig name with
        | none =>
            simp only [hTarget, reduceCtorEq, decide_false, Bool.false_or]
              at hResolved
            simp only [hf.hasKwargs, hTaken hTarget, if_true, hResolved,
              List.map_cons, keywordDest, hTarget]
        | some target =>
            have hSame : (fun i => decide (some target = some i) || filled i) =
                fun i => decide (i = target) || filled i := by
              funext i
              simp only [Option.some.injEq, eq_comm]
            rw [hTarget, hSame] at hResolved
            simp only [hFree target hTarget, Bool.false_eq_true, if_false,
              hResolved, List.map_cons, keywordDest, hTarget]
      · rw [hFilled, List.any_cons, Bool.or_assoc, Bool.or_left_comm]

/-- The keyword loop raises `TypeError` for those that do not. -/
theorem resolveKeywords_of_not_fit (hf : Implements f sig) :
    ∀ {names previous : List String} {filled : Nat → Bool},
      ¬ KeywordsFit sig names previous filled →
      resolveKeywords f names previous filled =
        .error ⟨"TypeError", "invalid keyword argument"⟩ := by
  intro names
  induction names with
  | nil =>
      intro previous filled h
      exact absurd trivial h
  | cons name names ih =>
      intro previous filled h
      rw [resolveKeywords]
      by_cases hNew : name ∈ previous
      · rw [if_pos hNew]
      · rw [if_neg hNew, namedParameter_eq hf]
        cases hTarget : keywordTarget sig name with
        | none =>
            simp only [hf.hasKwargs]
            split
            · rename_i hKwargs
              have hRest : ¬ KeywordsFit sig names (name :: previous)
                  filled := by
                intro hRest
                refine h ⟨hNew, fun _ => hKwargs, ?_, ?_⟩
                · intro i hi
                  rw [hTarget] at hi
                  exact nomatch hi
                · simpa only [hTarget, reduceCtorEq, decide_false,
                    Bool.false_or] using hRest
              rw [ih hRest]
            · rfl
        | some target =>
            simp only
            split
            · rfl
            · rename_i hFree
              have hRest : ¬ KeywordsFit sig names (name :: previous)
                  (fun i => decide (i = target) || filled i) := by
                intro hRest
                refine h ⟨hNew, ?_, ?_, ?_⟩
                · intro hNone
                  rw [hTarget] at hNone
                  exact nomatch hNone
                · intro i hi
                  rw [hTarget] at hi
                  rw [← Option.some.inj hi]
                  exact Bool.eq_false_iff.mpr hFree
                · simpa only [hTarget, Option.some.injEq, eq_comm] using hRest
              rw [ih hRest]

end ResolveKeywords

/-! ## Which calls are accepted -/

section Accepted

variable {f : Function V} {sig : ParameterSignature V} {args : Arguments V}

theorem isSome_keywordValue (kws : List (String × V)) (i : Nat) :
    (keywordValue sig kws i).isSome =
      (kws.map Prod.fst).any fun name =>
        decide (keywordTarget sig name = some i) := by
  induction kws with
  | nil => rfl
  | cons kw kws ih =>
      rw [keywordValue_cons, List.map_cons, List.any_cons, ← ih]
      by_cases h : keywordTarget sig kw.1 = some i
      · simp [h]
      · simp [h]

theorem isSome_suppliedAt (i : Nat) :
    (suppliedAt sig args i).isSome =
      (decide (i < min args.positional.length sig.nPositional) ||
        (args.keywords.map Prod.fst).any fun name =>
          decide (keywordTarget sig name = some i)) := by
  rw [suppliedAt, Option.isSome_or, isSome_keywordValue]
  congr 1
  by_cases h : i < sig.nPositional
  · rw [if_pos h]
    by_cases hLength : i < args.positional.length
    · rw [List.getElem?_eq_getElem hLength, decide_eq_true (by omega)]
      rfl
    · rw [List.getElem?_eq_none (by omega), decide_eq_false (by omega)]
      rfl
  · rw [if_neg h, decide_eq_false (by omega)]
    rfl

/-- What a named parameter is bound to. -/
theorem boundAt_parameter {i : Nat} {p : Parameter V}
    (h : sig.order[i]? = some (.parameter p)) :
    boundAt sig args i =
      ((suppliedAt sig args i).or (sig.defaultAt i)).map .value := by
  rw [boundAt, ParameterSignature.defaultAt, h]
  rfl

/-- A named parameter is bound when it is supplied or has a default. -/
theorem boundAt_parameter_ne_none_iff {i : Nat} {p : Parameter V}
    (h : sig.order[i]? = some (.parameter p)) :
    boundAt sig args i ≠ none ↔
      (suppliedAt sig args i).isSome = true ∨
        (sig.defaultAt i).isSome = true := by
  rw [boundAt_parameter h, ne_eq, Option.map_eq_none_iff, ← ne_eq,
    ← Option.isSome_iff_ne_none, Option.isSome_or, Bool.or_eq_true]

/-- Every parameter is named or collects surplus arguments. -/
theorem order_node_cases {i : Nat} (h : i < sig.order.length) :
    (∃ p, sig.order[i]? = some (.parameter p) ∧
      (sig.vararg.isSome = true → i ≠ sig.nPositional) ∧
      (sig.kwarg.isSome = true →
        i ≠ sig.firstKwonlyIdx + sig.kwonly.length)) ∨
      (i = sig.nPositional ∧ sig.vararg.isSome = true) ∨
      (i = sig.firstKwonlyIdx + sig.kwonly.length ∧
        sig.kwarg.isSome = true) := by
  have hLe := sig.nPositional_le_firstKwonlyIdx
  rcases sig.order_cases h with hi | hi | ⟨j, hj, rfl⟩ | hi
  · left
    have hLt : i < (sig.posonly ++ sig.posOrKw).length := by
      rwa [List.length_append]
    refine ⟨(sig.posonly ++ sig.posOrKw)[i], ?_, fun _ => by omega,
      fun _ => by omega⟩
    rw [sig.getElem?_order_positional hi, List.getElem?_eq_getElem hLt]
    rfl
  · exact Or.inr (Or.inl hi)
  · left
    refine ⟨sig.kwonly[j], ?_, ?_, fun _ => by omega⟩
    · rw [sig.getElem?_order_kwonly hj, List.getElem?_eq_getElem hj]
      rfl
    · intro hVararg
      have := ParameterSignature.firstKwonlyIdx_of_vararg hVararg
      omega
  · exact Or.inr (Or.inr hi)

/-- `*args` and `**kwargs` are always bound. -/
theorem boundAt_vararg (h : sig.vararg.isSome = true) :
    boundAt sig args sig.nPositional =
      some (.positionals (args.positional.drop sig.nPositional)) := by
  obtain ⟨name, hName⟩ := Option.isSome_iff_exists.mp h
  rw [boundAt, sig.getElem?_order_vararg hName]

theorem boundAt_kwarg (h : sig.kwarg.isSome = true) :
    boundAt sig args (sig.firstKwonlyIdx + sig.kwonly.length) =
      some (.keywords
        (args.keywords.filter fun kw => (keywordTarget sig kw.1).isNone)) := by
  obtain ⟨name, hName⟩ := Option.isSome_iff_exists.mp h
  rw [boundAt, sig.getElem?_order_kwarg hName]

/-- The missing-parameter loop finds a parameter that is not bound. -/
theorem missingParameter_eq_false_iff (hf : Implements f sig)
    {filled : Nat → Bool}
    (hFilled : ∀ i, filled i = (suppliedAt sig args i).isSome) :
    missingParameter f filled = false ↔
      ∀ i, i < sig.order.length → boundAt sig args i ≠ none := by
  rw [missingParameter, hf.nParameters, List.any_eq_false]
  simp only [List.mem_range, hf.hasVarargs, hf.hasKwargs, hf.nPositional,
    hf.hasDefault, hFilled]
  refine forall_congr' fun i => forall_congr' fun hi => ?_
  rcases order_node_cases hi with ⟨p, hp, hVararg, hKwarg⟩ | ⟨rfl, h⟩ |
    ⟨rfl, h⟩
  · have hNotVararg : (sig.vararg.isSome &&
        decide (i = sig.nPositional)) = false := by
      cases hSome : sig.vararg.isSome with
      | true => exact decide_eq_false (hVararg hSome)
      | false => rfl
    have hNotKwarg : (sig.kwarg.isSome &&
        decide (i = sig.order.length - 1)) = false := by
      cases hSome : sig.kwarg.isSome with
      | true =>
          have hLength := ParameterSignature.length_order_of_kwarg hSome
          have hNe := hKwarg hSome
          exact decide_eq_false (by omega)
      | false => rfl
    rw [boundAt_parameter_ne_none_iff hp, hNotVararg, hNotKwarg]
    cases (suppliedAt sig args i).isSome <;>
      cases (sig.defaultAt i).isSome <;> simp
  · rw [boundAt_vararg h]
    simp [h]
  · have hLength := ParameterSignature.length_order_of_kwarg h
    have hLast : sig.firstKwonlyIdx + sig.kwonly.length =
        sig.order.length - 1 := by omega
    rw [boundAt_kwarg h]
    simp [h, hLast]

/-- Where the default fill of a keyword call starts. -/
def keywordFillStart (f : Function V) (sig : ParameterSignature V)
    (nPosArgs : Nat) : Nat :=
  max (min nPosArgs sig.nPositional) f.signature.firstDefaultSlot

theorem keywordsFit_iff_accepts :
    KeywordsFit sig (args.keywords.map Prod.fst) []
        (fun i => decide (i < min args.positional.length sig.nPositional)) ↔
      (args.keywords.map Prod.fst).Nodup ∧
      (∀ kw ∈ args.keywords, keywordTarget sig kw.1 = none →
        sig.kwarg.isSome = true) ∧
      (∀ kw ∈ args.keywords, ∀ i, keywordTarget sig kw.1 = some i →
        i < sig.nPositional → args.positional.length ≤ i) := by
  rw [keywordsFit_iff]
  simp only [List.forall_mem_map, List.not_mem_nil, not_false_eq_true,
    implies_true, true_and, decide_eq_false_iff_not]
  refine and_congr_right fun _ => and_congr_right fun _ => ?_
  refine forall_congr' fun kw => forall_congr' fun _ => forall_congr' fun i =>
    forall_congr' fun _ => ?_
  omega

/-- An accepted call with keywords resolves each of them to the parameter it
names. -/
theorem buildKeywordCall_of_accepts (hf : Implements f sig)
    (h : Accepts sig args) :
    buildKeywordCall f (args.keywords.map Prod.fst) args.positional.length =
      .ok (keywordFillStart f sig args.positional.length,
        args.keywords.map fun kw => keywordDest f sig kw.1) := by
  have hCount : ¬ (args.positional.length > sig.nPositional ∧
      f.signature.hasVarargs = false) := by
    rintro ⟨hMany, hNo⟩
    rcases h.positionals with hFew | hVararg
    · omega
    · rw [hf.hasVarargs, hVararg] at hNo
      exact nomatch hNo
  have hMin : (if args.positional.length < sig.nPositional then
      args.positional.length else sig.nPositional) =
        min args.positional.length sig.nPositional := by
    split <;> omega
  obtain ⟨filled, hResolved, hFilled⟩ := resolveKeywords_of_fit hf
    (keywordsFit_iff_accepts.mpr ⟨h.distinct, h.expected, h.once⟩)
  have hComplete := (missingParameter_eq_false_iff hf
    fun i => (hFilled i).trans (isSome_suppliedAt i).symm).mpr h.complete
  rw [buildKeywordCall]
  simp only [hf.nPositional, if_neg hCount, hMin, hResolved, hComplete,
    Bool.false_eq_true, if_false, List.map_map]
  congr 2
  rw [keywordFillStart]
  split <;> omega

/-- A call the rules reject raises `TypeError`. -/
theorem buildKeywordCall_of_not_accepts (hf : Implements f sig)
    (h : ¬ Accepts sig args) :
    ∃ message, buildKeywordCall f (args.keywords.map Prod.fst)
      args.positional.length = .error ⟨"TypeError", message⟩ := by
  have hMin : (if args.positional.length < sig.nPositional then
      args.positional.length else sig.nPositional) =
        min args.positional.length sig.nPositional := by
    split <;> omega
  rw [buildKeywordCall]
  simp only [hf.nPositional, hMin]
  split
  · exact ⟨_, rfl⟩
  · rename_i hCount
    by_cases hFit : KeywordsFit sig (args.keywords.map Prod.fst) []
        (fun i => decide (i < min args.positional.length sig.nPositional))
    · obtain ⟨filled, hResolved, hFilled⟩ := resolveKeywords_of_fit hf hFit
      obtain ⟨hDistinct, hExpected, hOnce⟩ := keywordsFit_iff_accepts.mp hFit
      have hMissing : missingParameter f filled = true := by
        rw [← Bool.not_eq_false,
          missingParameter_eq_false_iff hf
            fun i => (hFilled i).trans (isSome_suppliedAt i).symm]
        intro hComplete
        refine h ⟨?_, hDistinct, hExpected, hOnce, hComplete⟩
        rw [hf.hasVarargs] at hCount
        rcases Nat.lt_or_ge sig.nPositional args.positional.length with
          hMany | hFew
        · right
          by_contra hNo
          exact hCount ⟨hMany, Bool.eq_false_iff.mpr hNo⟩
        · exact Or.inl hFew
      simp only [hResolved, hMissing, if_true]
      exact ⟨_, rfl⟩
    · rw [resolveKeywords_of_not_fit hf hFit]
      exact ⟨_, rfl⟩

end Accepted

/-! ## What an entered frame binds -/

/-- The value a parameter bound to this holds. -/
def boundValue (objects : Objects V) : Bound V → V
  | .value v => v
  | .positionals vs => objects.makeTuple vs
  | .keywords kws => objects.makeDict kws

/-- Every parameter of an entered frame holds what the rules bind to it. -/
def BindsParameters (objects : Objects V) (sig : ParameterSignature V)
    (args : Arguments V) (e : Entered V) : Prop :=
  ∀ i, i < sig.order.length →
    ∃ b, boundAt sig args i = some b ∧ e.parameter i = boundValue objects b

section Binds

variable {objects : Objects V} {header : FrameHeader V} {f : Function V}
  {sig : ParameterSignature V} {args : Arguments V} {firstArgReg : Int}
  {slots : Slots V}

theorem invoke_parameter (hn : f.signature.nParameters ≤ 124) {i : Nat}
    (hi : i < f.signature.nParameters) :
    (invokeFunctionAtNewFp header f firstArgReg slots).parameter i =
      slots (firstArgReg - i) := by
  have hSlot : (invokeFunctionAtNewFp header f firstArgReg slots).parameter i =
      initializeFrameHeader slots
        (newFramePointerFromFirstArg
          (roundUpToAbiAlignment f.signature.nParameters) firstArgReg) header
        (slotOf f firstArgReg i) := rfl
  rw [hSlot, slotOf_eq hn hi]
  exact initializeFrameHeader_of_le (newFramePointer_add_le firstArgReg hi)

/-- Without `*args` and `**kwargs` the full adaptation only fills in
defaults. -/
theorem adaptFully_eq_defaults {nArgs start : Nat}
    (h : (f.signature.hasVarargs || f.signature.hasKwargs) = false) :
    adaptFully objects f firstArgReg nArgs start slots =
      initializeDefaultParametersFromSlot f firstArgReg start slots := by
  obtain ⟨hVarargs, hKwargs⟩ := Bool.or_eq_false_iff.mp h
  simp only [adaptFully, hVarargs, hKwargs, Bool.false_eq_true, if_false]

theorem initializeDefaults_of_none {start : Nat}
    (h : f.defaultParameters = none) :
    initializeDefaultParametersFromSlot f firstArgReg start slots = slots := by
  rw [initializeDefaultParametersFromSlot, h]

/-- Every adaptation of a keyword call leaves what the full one does. -/
theorem keywordAdaptation_eq (nArgs start : Nat) :
    adaptKeywordCall objects f firstArgReg
        (functionCallAdaptationForKeywordCall f) nArgs start slots =
      adaptFully objects f firstArgReg nArgs start slots := by
  rw [functionCallAdaptationForKeywordCall]
  cases h : f.signature.hasVarargs || f.signature.hasKwargs with
  | true => rfl
  | false =>
      rw [adaptFully_eq_defaults h]
      cases hDefaults : f.defaultParameters with
      | some defaults => rfl
      | none =>
          have hNone : initializeDefaultParametersFromSlot f firstArgReg start
              slots = slots := initializeDefaults_of_none hDefaults
          rw [hNone]
          cases isFixedArityFunction f with
          | true => rfl
          | false => exact hNone

theorem collects_eq :
    (decide (functionCallAdaptationForKeywordCall f = .full) &&
      f.signature.hasKwargs) = f.signature.hasKwargs := by
  cases hKwargs : f.signature.hasKwargs with
  | false => exact Bool.and_false _
  | true => simp [functionCallAdaptationForKeywordCall, hKwargs]

/-- A named parameter before the keyword values are stored: the positional
argument, or else the default. -/
theorem adaptFully_parameter (hf : Implements f sig)
    (hn : f.signature.nParameters ≤ 124)
    (hPlaced : Placed args.positional firstArgReg slots) {i : Nat}
    {v : V}
    (hValue : ((if i < sig.nPositional then args.positional[i]? else none).or
      (sig.defaultAt i)) = some v) :
    adaptFully objects f firstArgReg args.positional.length
      (keywordFillStart f sig args.positional.length) slots
      (firstArgReg - i) = v := by
  by_cases hFilled : i < min args.positional.length sig.nPositional
  · have hItem : args.positional[i]? = some v := by
      rw [if_pos (by omega), List.getElem?_eq_getElem (by omega),
        Option.some_or] at hValue
      rw [List.getElem?_eq_getElem (by omega), hValue]
    rw [adaptFully_filled hf hn _ (by omega)]
    · exact hPlaced i v hItem
    · rw [keywordFillStart]
      omega
  · have hNotSupplied :
        (if i < sig.nPositional then args.positional[i]? else none) = none := by
      split
      · exact List.getElem?_eq_none (by omega)
      · rfl
    rw [hNotSupplied, Option.none_or] at hValue
    refine adaptFully_default hf hn ?_ hValue
    have hFirst := (FunctionSignature.hasDefaultForParameter_iff _ _).mp
      ((hf.hasDefault i).trans (by rw [hValue]; rfl))
    rw [keywordFillStart]
    omega

/-- The keyword values lie above every slot stored so far. -/
theorem storeKeywords_adaptFully (hf : Implements f sig)
    (hn : f.signature.nParameters ≤ 124) (hAccepts : Accepts sig args)
    {firstKwValueReg : Int}
    (hKeywords : Placed (args.keywords.map Prod.snd) firstKwValueReg slots)
    (hAbove : ∀ k < args.keywords.length,
      firstArgReg < firstKwValueReg - (k : Nat)) (nArgs start : Nat) :
    let filled := adaptFully objects f firstArgReg nArgs start slots
    let r := storeKeywords f.signature.hasKwargs
      (newFramePointerFromFirstArg
        (roundUpToAbiAlignment f.signature.nParameters) firstArgReg)
      firstKwValueReg (args.keywords.map fun kw => keywordDest f sig kw.1)
      (args.keywords.map Prod.fst) 0 filled []
    (∀ i, i < f.signature.nParameters →
      r.1 (firstArgReg - i) =
        (keywordValue sig args.keywords i).getD (filled (firstArgReg - i))) ∧
    r.2 = args.keywords.filter fun kw => (keywordTarget sig kw.1).isNone := by
  intro filled
  refine storeKeywords_apply hf hn ?_ ?_ hAccepts.distinct ?_
  · intro k v hk
    have hLength := (List.getElem?_eq_some_iff.mp hk).1
    rw [List.length_map] at hLength
    rw [Nat.zero_add]
    exact (adaptFully_above hf hn (hAbove k hLength)).trans (hKeywords k v hk)
  · intro k hk
    rw [Nat.zero_add]
    exact hAbove k hk
  · intro kw hMem hNone
    exact hf.hasKwargs.trans (hAccepts.expected kw hMem hNone)

/-- Entering a frame for an accepted call with keywords binds every
parameter. -/
theorem enterKeyword_binds (hf : Implements f sig)
    (hn : f.signature.nParameters ≤ 124) (hAccepts : Accepts sig args)
    (hPlaced : Placed args.positional firstArgReg slots)
    {firstKwValueReg : Int}
    (hKeywords : Placed (args.keywords.map Prod.snd) firstKwValueReg slots)
    (hAbove : ∀ k < args.keywords.length,
      firstArgReg < firstKwValueReg - (k : Nat)) :
    BindsParameters objects sig args
      (enterFunctionFrameFromKeywordArgs objects header f firstArgReg
        (functionCallAdaptationForKeywordCall f)
        (keywordFillStart f sig args.positional.length)
        (args.keywords.map fun kw => keywordDest f sig kw.1)
        (args.keywords.map Prod.fst) args.positional.length firstKwValueReg
        slots) := by
  intro i hi
  have hLt : i < f.signature.nParameters := by rwa [hf.nParameters]
  obtain ⟨hSlots, hDict⟩ := @storeKeywords_adaptFully V objects f sig args
    firstArgReg slots hf hn hAccepts firstKwValueReg hKeywords hAbove
    args.positional.length (keywordFillStart f sig args.positional.length)
  simp only [enterFunctionFrameFromKeywordArgs, collects_eq,
    keywordAdaptation_eq]
  rw [invoke_parameter hn hLt]
  generalize storeKeywords f.signature.hasKwargs _ _ _ _ _ _ _ = r
    at hSlots hDict ⊢
  -- only the slot of the dict is stored once more
  have hKept : (sig.kwarg.isSome = true →
      i ≠ sig.firstKwonlyIdx + sig.kwonly.length) →
      (if f.signature.hasKwargs then
        storeKwargsArgument f firstArgReg (objects.makeDict r.2) r.1
      else r.1) (firstArgReg - i) = r.1 (firstArgReg - i) := by
    intro hNotKwarg
    split
    · rename_i h
      have hNe := hNotKwarg (hf.hasKwargs ▸ h)
      rw [storeKwargsArgument, slotOf_kwargs hf hn h, store_of_ne (by omega)]
    · rfl
  rcases order_node_cases hi with ⟨p, hNode, -, hNotKwarg⟩ |
    ⟨rfl, hVararg⟩ | ⟨rfl, hKwarg⟩
  · have hBound := hAccepts.complete i hi
    rw [boundAt_parameter hNode] at hBound ⊢
    obtain ⟨b, hb⟩ := Option.ne_none_iff_exists'.mp hBound
    obtain ⟨v, hv, rfl⟩ := Option.map_eq_some_iff.mp hb
    refine ⟨_, hb, ?_⟩
    rw [hKept hNotKwarg, hSlots i hLt]
    rw [suppliedAt] at hv
    cases hKeyword : keywordValue sig args.keywords i with
    | none =>
        rw [hKeyword, Option.or_none] at hv
        exact adaptFully_parameter hf hn hPlaced hv
    | some kv =>
        have hNotPositional :
            (if i < sig.nPositional then args.positional[i]? else none) =
              none := by
          obtain ⟨kw, hFound, -⟩ := Option.map_eq_some_iff.mp hKeyword
          have hTarget : keywordTarget sig kw.1 = some i := by
            simpa using List.find?_some hFound
          split
          · rename_i hPositional
            exact List.getElem?_eq_none (hAccepts.once kw
              (List.mem_of_find?_eq_some hFound) i hTarget hPositional)
          · rfl
        rw [hKeyword, hNotPositional] at hv
        exact Option.some.inj hv
  · refine ⟨_, boundAt_vararg hVararg, ?_⟩
    have hFirst := ParameterSignature.firstKwonlyIdx_of_vararg hVararg
    have hNone : keywordValue sig args.keywords sig.nPositional = none := by
      refine keywordValue_eq_none fun kw _ hTarget => ?_
      rcases keywordTarget_cases sig hTarget with ⟨-, h⟩ | ⟨j, -, h⟩ <;> omega
    rw [hKept (fun _ => by omega), hSlots _ hLt, hNone, Option.getD_none,
      adaptFully_varargs hf hn hVararg hPlaced]
    rfl
  · refine ⟨_, boundAt_kwarg hKwarg, ?_⟩
    have hHas := hf.hasKwargs.trans hKwarg
    rw [if_pos hHas, storeKwargsArgument, slotOf_kwargs hf hn hHas,
      store_self, hDict]
    rfl

theorem initializeDefaults_max (start : Nat) :
    initializeDefaultParametersFromSlot f firstArgReg
        (max start f.signature.firstDefaultSlot) slots =
      initializeDefaultParametersFromSlot f firstArgReg start slots := by
  simp only [initializeDefaultParametersFromSlot, fillStart_eq_max,
    max_assoc, max_self]

theorem adaptFully_max (nArgs start : Nat) :
    adaptFully objects f firstArgReg nArgs
        (max start f.signature.firstDefaultSlot) slots =
      adaptFully objects f firstArgReg nArgs start slots := by
  simp only [adaptFully, initializeDefaults_max]

/-- Every adaptation of an accepted positional call leaves what the full one
does. -/
theorem positionalAdaptation_eq (hf : Implements f sig)
    (hn : f.signature.nParameters ≤ 124) {nArgs : Nat}
    (hFew : nArgs ≤ sig.nPositional ∨ sig.vararg.isSome = true) :
    adaptPositionalCall objects f firstArgReg
        (functionCallAdaptationForPositionalCall f nArgs) nArgs slots =
      adaptFully objects f firstArgReg nArgs (keywordFillStart f sig nArgs)
        slots := by
  have hMin : (if nArgs < f.signature.nPositionalParameters then nArgs
      else f.signature.nPositionalParameters) = min nArgs sig.nPositional := by
    rw [hf.nPositional]
    split <;> omega
  rw [keywordFillStart, adaptFully_max,
    functionCallAdaptationForPositionalCall]
  cases h : f.signature.hasVarargs || f.signature.hasKwargs with
  | true =>
      simp only [if_true, adaptPositionalCall, hMin]
  | false =>
      rw [adaptFully_eq_defaults h]
      cases hDefaults : f.defaultParameters with
      | none =>
          have hNone : ∀ start, initializeDefaultParametersFromSlot f
              firstArgReg start slots = slots := fun start =>
            initializeDefaults_of_none hDefaults
          rw [hNone]
          cases isFixedArityFunction f with
          | true => rfl
          | false => exact hNone _
      | some defaults =>
          simp only [Bool.false_eq_true, if_false, Option.isSome_some,
            if_true]
          split
          · rename_i hAll
            -- every parameter has been passed
            have hNoVarargs : sig.vararg.isSome = false := by
              rw [← hf.hasVarargs]
              exact (Bool.or_eq_false_iff.mp h).1
            have hFilled : nArgs ≤ sig.nPositional := by
              rcases hFew with hFew | hVararg
              · exact hFew
              · rw [hNoVarargs] at hVararg
                exact nomatch hVararg
            funext s
            symm
            refine initializeDefaults_of_lt hf hn fun i hLow hHigh => ?_
            omega
          · simp only [adaptPositionalCall, initializeMissingDefaultArguments,
              hMin]

/-- A positional call enters the frame a keyword call without keywords
does. -/
theorem enterPositional_eq_enterKeyword (hf : Implements f sig)
    (hn : f.signature.nParameters ≤ 124) {nArgs : Nat}
    (hFew : nArgs ≤ sig.nPositional ∨ sig.vararg.isSome = true) :
    enterFunctionFrameFromPositionalArgs objects header f firstArgReg nArgs
        (functionCallAdaptationForPositionalCall f nArgs) slots =
      enterFunctionFrameFromKeywordArgs objects header f firstArgReg
        (functionCallAdaptationForKeywordCall f)
        (keywordFillStart f sig nArgs) [] [] nArgs (firstArgReg + 1)
        slots := by
  simp only [enterFunctionFrameFromPositionalArgs,
    positionalAdaptation_eq hf hn hFew, enterFunctionFrameFromKeywordArgs,
    collects_eq, keywordAdaptation_eq, storeKeywords]
  congr 1
  split
  · rename_i h
    simp only [adaptFully, h, if_true]
    funext s
    simp only [storeKwargsArgument, store]
    split <;> rfl
  · rfl

/-- The arguments of a call without keywords. -/
def positionalOnly (positional : List V) : Arguments V := ⟨positional, []⟩

theorem enterPositional_binds (hf : Implements f sig)
    (hn : f.signature.nParameters ≤ 124) {positional : List V}
    (hAccepts : Accepts sig (positionalOnly positional))
    (hPlaced : Placed positional firstArgReg slots) :
    BindsParameters objects sig (positionalOnly positional)
      (enterFunctionFrameFromPositionalArgs objects header f firstArgReg
        positional.length
        (functionCallAdaptationForPositionalCall f positional.length)
        slots) := by
  have hFew : positional.length ≤ sig.nPositional ∨
      sig.vararg.isSome = true := hAccepts.positionals
  rw [enterPositional_eq_enterKeyword hf hn hFew]
  exact enterKeyword_binds hf hn hAccepts hPlaced
    (fun i v h => nomatch h) (fun k h => absurd h (Nat.not_lt_zero k))

/-- The positional arity check accepts the calls the rules accept. -/
theorem acceptsPositionalOnlyCallArity_iff_accepts (hf : Implements f sig)
    {positional : List V} (hLength : positional.length < 2 ^ 32) :
    f.acceptsPositionalOnlyCallArity positional.length = true ↔
      Accepts sig (positionalOnly positional) := by
  rw [Function.acceptsPositionalOnlyCallArity_iff f hf.noDefaults hLength,
    hf.nPositional, hf.hasVarargs, hf.required]
  simp only [hf.hasDefault]
  have hSupplied : ∀ i, (suppliedAt sig (positionalOnly positional) i).isSome =
      decide (i < min positional.length sig.nPositional) := by
    intro i
    rw [isSome_suppliedAt]
    exact Bool.or_false _
  have hRequired : parameterSequenceHasRequiredParameter sig.kwonly = false ↔
      ∀ j, j < sig.kwonly.length →
        (sig.defaultAt (sig.firstKwonlyIdx + j)).isSome = true := by
    rw [parameterSequenceHasRequiredParameter, List.any_eq_false]
    have hAt : ∀ j (h : j < sig.kwonly.length),
        sig.defaultAt (sig.firstKwonlyIdx + j) = (sig.kwonly[j]).default := by
      intro j h
      rw [ParameterSignature.defaultAt, sig.getElem?_order_kwonly h,
        List.getElem?_eq_getElem h]
      rfl
    constructor
    · intro h j hj
      rw [hAt j hj, Option.isSome_iff_ne_none]
      have := h _ (List.getElem_mem hj)
      rwa [Bool.not_eq_true, Option.isNone_eq_false_iff,
        Option.isSome_iff_ne_none] at this
    · intro h p hp
      obtain ⟨j, hj, rfl⟩ := List.getElem_of_mem hp
      rw [Bool.not_eq_true, Option.isNone_eq_false_iff, ← hAt j hj]
      exact h j hj
  rw [hRequired]
  have hLe := sig.nPositional_le_firstKwonlyIdx
  have hLengthOrder := sig.length_order
  constructor
  · rintro ⟨hDefaults, hFew, hKwonly⟩
    refine
      { positionals := hFew
        distinct := List.nodup_nil
        expected := fun _ h => absurd h List.not_mem_nil
        once := fun _ h => absurd h List.not_mem_nil
        complete := fun i hi => ?_ }
    rcases order_node_cases hi with ⟨p, hNode, -, -⟩ | ⟨rfl, h⟩ | ⟨rfl, h⟩
    · rw [boundAt_parameter_ne_none_iff hNode, hSupplied, decide_eq_true_iff]
      rcases sig.order_cases hi with hPositional | ⟨rfl, h⟩ | ⟨j, hj, rfl⟩ |
        ⟨rfl, h⟩
      · by_cases hGiven : i < positional.length
        · exact Or.inl (by omega)
        · exact Or.inr (hDefaults i hPositional (by omega))
      · obtain ⟨name, hName⟩ := Option.isSome_iff_exists.mp h
        rw [sig.getElem?_order_vararg hName] at hNode
        cases hNode
      · exact Or.inr (hKwonly j hj)
      · obtain ⟨name, hName⟩ := Option.isSome_iff_exists.mp h
        rw [sig.getElem?_order_kwarg hName] at hNode
        cases hNode
    · rw [boundAt_vararg h]
      exact Option.some_ne_none _
    · rw [boundAt_kwarg h]
      exact Option.some_ne_none _
  · intro h
    refine ⟨fun i hi hMissing => ?_, h.positionals, fun j hj => ?_⟩
    · have hLt : i < (sig.posonly ++ sig.posOrKw).length := by
        rwa [List.length_append]
      have hNode : sig.order[i]? =
          some (.parameter (sig.posonly ++ sig.posOrKw)[i]) := by
        rw [sig.getElem?_order_positional hi, List.getElem?_eq_getElem hLt]
        rfl
      have hBound := (boundAt_parameter_ne_none_iff hNode).mp
        (h.complete i (by omega))
      rw [hSupplied, decide_eq_true_iff] at hBound
      exact hBound.resolve_left (by omega)
    · have hNode : sig.order[sig.firstKwonlyIdx + j]? =
          some (.parameter sig.kwonly[j]) := by
        rw [sig.getElem?_order_kwonly hj, List.getElem?_eq_getElem hj]
        rfl
      have hBound := (boundAt_parameter_ne_none_iff hNode).mp
        (h.complete _ (by omega))
      rw [hSupplied, decide_eq_true_iff] at hBound
      exact hBound.resolve_left (by omega)

end Binds

end CloverVM.Runtime.CallBinding
