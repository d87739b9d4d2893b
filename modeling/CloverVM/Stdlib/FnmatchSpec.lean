import CloverVM.Stdlib.Fnmatch
import CloverVM.Stdlib.PythonRegex

/-!
# What the matcher reads

A pattern is a list of slots: a gap for a run of stars, and letters for the
rest.  The text of a class is read as ranges; the matcher accepts the words of
the wildcard language in which a class stands for the code points its ranges
cover.
-/

namespace CloverVM.Stdlib.Fnmatch

open CloverVM.Collections.WildcardLanguage CloverVM.Stdlib.PythonRegex

/-- The class begins with a bang. -/
def negated (body : Str) : Bool := body.head? = some bang

/-- What is after the bang. -/
def unnegated (body : Str) : Str := (skipOne bang body).2

/-- The members begin with a closing bracket. -/
def leading (body : Str) : Bool := (unnegated body).head? = some closeBracket

/-- The members after a closing bracket in front. -/
def members (body : Str) : Str := (skipOne closeBracket (unnegated body)).2

/-- The text between the brackets of a class. -/
structure ClassText where
  text : Str
  noClose : closeBracket ∉ members text
  nonempty : leading text = true ∨ members text ≠ []

theorem skipOne_fst (c : CodePoint) (pat : Str) :
    (skipOne c pat).1 = if pat.head? = some c then [c] else [] := by
  rw [skipOne]
  split <;> rfl

theorem skipOne_fst_ne_nil_iff (c : CodePoint) (pat : Str) :
    (skipOne c pat).1 ≠ [] ↔ pat.head? = some c := by
  rw [skipOne_fst]
  split
  · rename_i h
    exact iff_of_true (List.cons_ne_nil _ _) h
  · rename_i h
    exact iff_of_false (fun hne => hne rfl) h

/-- Stepping over one code point looks at the first one only. -/
theorem skipOne_front {c : CodePoint} {pat front back : Str}
    (h : (skipOne c pat).2 = front ++ back) :
    skipOne c ((skipOne c pat).1 ++ front) = ((skipOne c pat).1, front) := by
  by_cases hHead : pat.head? = some c
  · have hPat : skipOne c pat = ([c], pat.tail) := if_pos hHead
    rw [hPat]
    exact if_pos rfl
  · have hPat : skipOne c pat = ([], pat) := if_neg hHead
    rw [hPat] at h ⊢
    refine if_neg ?_
    cases front with
    | nil => nofun
    | cons d front =>
        rw [show pat = (d :: front) ++ back from h] at hHead
        exact hHead

/-- What the matcher and the translation find in the text of a class. -/
theorem classEnd_parts {pat body rest : Str}
    (h : classEnd pat = some (body, rest)) :
    closeBracket ∉ members body ∧
      (leading body = true ∨ members body ≠ []) := by
  obtain ⟨⟨front, back⟩, hSpan, hEq⟩ := Option.map_eq_some_iff.mp h
  cases hEq
  obtain ⟨hRest, hNot⟩ := spanClose_eq_some hSpan
  set negation := skipOne bang pat with hNegation
  set first := skipOne closeBracket negation.2 with hFirst
  have hTail : negation.2 = (first.1 ++ front) ++ closeBracket :: back := by
    rw [List.append_assoc, ← hRest, hFirst, skipOne_append]
  have hUnnegated : unnegated (negation.1 ++ first.1 ++ front) =
      first.1 ++ front := by
    rw [unnegated, List.append_assoc, hNegation, skipOne_front hTail]
  have hMembers : members (negation.1 ++ first.1 ++ front) = front := by
    rw [members, hUnnegated, hFirst, skipOne_front hRest]
  rw [hMembers]
  refine ⟨hNot, ?_⟩
  by_cases hHead : negation.2.head? = some closeBracket
  · have hFirstEq : first.1 = [closeBracket] := by
      rw [hFirst, skipOne_fst, if_pos hHead]
    refine Or.inl ?_
    rw [leading, hUnnegated, hFirstEq]
    rfl
  · refine Or.inr fun hNil => hHead ?_
    have hFirstEq : first.1 = [] := by
      rw [hFirst, skipOne_fst, if_neg hHead]
    rw [hTail, hFirstEq, hNil]
    rfl

/-- The class that `_class_end` finds. -/
def ClassText.ofClassEnd {pat body rest : Str}
    (h : classEnd pat = some (body, rest)) : ClassText :=
  { text := body
    noClose := (classEnd_parts h).1
    nonempty := (classEnd_parts h).2 }

/-! ## The code points of a class -/

/-- The ranges that the members of a class stand for. -/
def readRanges : Str → List Range
  | first :: d :: last :: rest =>
      if d = dash then (first, last) :: readRanges rest
      else (first, first) :: readRanges (d :: last :: rest)
  | first :: rest => (first, first) :: readRanges rest
  | [] => []

/-- The ranges of a class as the matcher reads it: a closing bracket in front
is a member of its own. -/
def directRanges (body : Str) : List Range :=
  if leading body then (closeBracket, closeBracket) :: readRanges (members body)
  else readRanges (members body)

/-- The code points a class accepts. -/
def directSet (body : Str) : Set CodePoint :=
  if negated body then (covered (directRanges body))ᶜ
  else covered (directRanges body)

theorem mem_covered_cons {c : CodePoint} {r : Range} {ranges : List Range} :
    c ∈ covered (r :: ranges) ↔ (r.1 ≤ c ∧ c ≤ r.2) ∨ c ∈ covered ranges := by
  simp only [covered, Set.mem_ofPred_eq, List.mem_cons, exists_eq_or_imp]

theorem mem_covered_single_cons {c d : CodePoint} {ranges : List Range} :
    c ∈ covered ((d, d) :: ranges) ↔ c = d ∨ c ∈ covered ranges := by
  rw [mem_covered_cons]
  exact or_congr_left ⟨fun h => le_antisymm h.2 h.1, fun h => by rw [h]; simp⟩

theorem classLoop_iff (c : CodePoint) (body : Str) (matched : Bool) :
    classLoop c body matched = true ↔
      matched = true ∨ c ∈ covered (readRanges body) := by
  induction body, matched using classLoop.induct c with
  | case1 matched first last rest ih =>
      rw [classLoop, if_pos rfl, ih, readRanges, if_pos rfl, mem_covered_cons]
      simp only [Bool.or_eq_true, decide_eq_true_eq, or_assoc]
      refine or_congr_right (or_congr_left ?_)
      exact ⟨fun h => h.2, fun h => ⟨h.1.trans h.2, h⟩⟩
  | case2 matched first d last rest hDash ih =>
      rw [classLoop, if_neg hDash, ih, readRanges, if_neg hDash,
        mem_covered_single_cons]
      simp only [Bool.or_eq_true, decide_eq_true_eq, or_assoc]
  | case3 matched first rest hShort ih =>
      rw [classLoop, ih, readRanges, mem_covered_single_cons]
      · simp only [Bool.or_eq_true, decide_eq_true_eq, or_assoc]
      · exact hShort
      · exact hShort
  | case4 matched =>
      rw [classLoop, readRanges]
      simp [covered]

theorem classMatches_iff (c : CodePoint) (body : Str) :
    classMatches c body = true ↔ c ∈ directSet body := by
  have hRanges : classLoop c (members body)
      (decide ((skipOne closeBracket (unnegated body)).1 ≠ []) &&
        decide (c = closeBracket)) = true ↔ c ∈ covered (directRanges body) := by
    have hFirst : decide ((skipOne closeBracket (unnegated body)).1 ≠ []) =
        leading body := decide_eq_decide.mpr (skipOne_fst_ne_nil_iff _ _)
    rw [classLoop_iff, directRanges, hFirst]
    cases leading body with
    | true =>
        rw [if_pos rfl, mem_covered_single_cons, Bool.true_and,
          decide_eq_true_eq]
    | false => simp
  have hNegated : (skipOne bang body).1 ≠ [] ↔ negated body = true := by
    rw [skipOne_fst_ne_nil_iff, negated, decide_eq_true_eq]
  rw [classMatches, directSet]
  simp only [hNegated]
  cases negated body with
  | true =>
      rw [if_pos rfl, if_pos rfl, Set.mem_compl_iff, ← hRanges,
        Bool.not_eq_true', Bool.not_eq_true]
      rfl
  | false => exact hRanges

/-! ## Slots -/

/-- A letter slot of a pattern. -/
inductive Token where
  | question
  | literal (c : CodePoint) (plain : c ≠ star ∧ c ≠ question)
  | bracket (cls : ClassText)

/-- The slots of a pattern, from left to right. -/
def scan (pat : Str) : List (Option Token) :=
  match pat with
  | [] => []
  | c :: pat =>
      if hStar : c = star then
        have := length_skipStars_le pat
        none :: scan (skipStars pat)
      else if hQuestion : c = question then some .question :: scan pat
      else if c = openBracket then
        match h : classEnd pat with
        | none => some (.literal openBracket (by decide)) :: scan pat
        | some (_, rest) =>
            have := length_lt_of_classEnd h
            some (.bracket (.ofClassEnd h)) :: scan rest
      else some (.literal c ⟨hStar, hQuestion⟩) :: scan pat
termination_by pat.length

/-- What the matcher puts into a letter slot. -/
def Token.direct : Token → Set CodePoint
  | .question => Set.univ
  | .literal c _ => {c}
  | .bracket cls => directSet cls.text

theorem tryFrom_iff (attempt : Str → Bool) (name : Str) :
    tryFrom attempt name = true ↔
      ∃ front rest, name = front ++ rest ∧ attempt rest = true := by
  induction name with
  | nil =>
      rw [tryFrom]
      constructor
      · intro h
        exact ⟨[], [], rfl, h⟩
      · rintro ⟨front, rest, hEq, h⟩
        rw [(List.append_eq_nil_iff.mp hEq.symm).2] at h
        exact h
  | cons c name ih =>
      rw [tryFrom]
      split
      · rename_i hHere
        exact iff_of_true rfl ⟨[], c :: name, rfl, hHere⟩
      · rename_i hHere
        rw [ih]
        constructor
        · rintro ⟨front, rest, rfl, h⟩
          exact ⟨c :: front, rest, rfl, h⟩
        · rintro ⟨front, rest, hEq, h⟩
          cases front with
          | nil =>
              rw [List.nil_append] at hEq
              exact absurd (hEq ▸ h) hHere
          | cons d front =>
              exact ⟨front, rest, (List.cons.inj hEq).2, h⟩

theorem scan_star (pat : Str) :
    scan (star :: pat) = none :: scan (skipStars pat) := by
  rw [scan, dif_pos rfl]

theorem scan_question (pat : Str) :
    scan (question :: pat) = some .question :: scan pat := by
  rw [scan, dif_neg (by decide), dif_pos rfl]

theorem scan_unclosed {pat : Str} (h : classEnd pat = none) :
    scan (openBracket :: pat) =
      some (.literal openBracket (by decide)) :: scan pat := by
  rw [scan, dif_neg (by decide), dif_neg (by decide), if_pos rfl]
  split
  · rfl
  · rename_i hSome
    rw [h] at hSome
    cases hSome

theorem scan_bracket {pat body rest : Str}
    (h : classEnd pat = some (body, rest)) :
    scan (openBracket :: pat) = some (.bracket (.ofClassEnd h)) :: scan rest := by
  rw [scan, dif_neg (by decide), dif_neg (by decide), if_pos rfl]
  split
  · rename_i hNone
    rw [h] at hNone
    cases hNone
  · rename_i body' rest' hSome
    have hEq := hSome
    rw [h, Option.some.injEq, Prod.mk.injEq] at hEq
    obtain ⟨rfl, rfl⟩ := hEq
    rfl

theorem scan_literal {c : CodePoint} (hStar : c ≠ star) (hQuestion : c ≠ question)
    (hBracket : c ≠ openBracket) (pat : Str) :
    scan (c :: pat) = some (.literal c ⟨hStar, hQuestion⟩) :: scan pat := by
  rw [scan, dif_neg hStar, dif_neg hQuestion, if_neg hBracket]

/-- A letter slot against the next code point of the name. -/
theorem mem_language_token {t : Token} {slots : List (Option Token)}
    {c : CodePoint} {name : Str} :
    c :: name ∈ language Token.direct (some t :: slots) ↔
      c ∈ t.direct ∧ name ∈ language Token.direct slots := by
  rw [mem_language_letter]
  constructor
  · rintro ⟨d, rest, hEq, hd, hRest⟩
    cases hEq
    exact ⟨hd, hRest⟩
  · rintro ⟨hc, hRest⟩
    exact ⟨c, name, rfl, hc, hRest⟩

theorem nil_not_mem_language_token {t : Token} {slots : List (Option Token)} :
    [] ∉ language Token.direct (some t :: slots) := by
  rw [mem_language_letter]
  rintro ⟨c, rest, hEq, -⟩
  cases hEq

/-- Every pattern but a run of stars begins with a letter slot. -/
theorem scan_cons {c : CodePoint} (hStar : c ≠ star) (pat : Str) :
    ∃ t slots, scan (c :: pat) = some t :: slots := by
  by_cases hQuestion : c = question
  · rw [hQuestion]
    exact ⟨_, _, scan_question pat⟩
  · by_cases hBracket : c = openBracket
    · rw [hBracket]
      cases hClass : classEnd pat with
      | none => exact ⟨_, _, scan_unclosed hClass⟩
      | some parts => exact ⟨_, _, scan_bracket hClass⟩
    · exact ⟨_, _, scan_literal hStar hQuestion hBracket pat⟩

theorem matchAt_nil (name : Str) : matchAt [] name = decide (name = []) := by
  rw [matchAt]

theorem matchAt_star (pat name : Str) :
    matchAt (star :: pat) name =
      if skipStars pat = [] then true
      else tryFrom (fun name => matchAt (skipStars pat) name) name := by
  rw [matchAt.eq_def]
  exact if_pos rfl

theorem matchAt_empty_name {c : CodePoint} (hStar : c ≠ star) (pat : Str) :
    matchAt (c :: pat) [] = false := by
  rw [matchAt, if_neg hStar]

theorem matchAt_question (pat : Str) (c : CodePoint) (name : Str) :
    matchAt (question :: pat) (c :: name) = matchAt pat name := by
  rw [matchAt, if_neg (by decide)]
  exact if_pos rfl

theorem matchAt_literal {c : CodePoint} (hStar : c ≠ star)
    (hQuestion : c ≠ question) (hBracket : c ≠ openBracket) (pat : Str)
    (d : CodePoint) (name : Str) :
    matchAt (c :: pat) (d :: name) =
      if d ≠ c then false else matchAt pat name := by
  rw [matchAt, if_neg hStar]
  simp only [if_neg hQuestion, if_neg hBracket]

theorem matchAt_unclosed {pat : Str} (h : classEnd pat = none) (c : CodePoint)
    (name : Str) :
    matchAt (openBracket :: pat) (c :: name) =
      if c ≠ openBracket then false else matchAt pat name := by
  rw [matchAt, if_neg (by decide)]
  simp only [if_neg (show ¬ openBracket = question by decide), if_true]
  split
  · rfl
  · rename_i hSome
    rw [h] at hSome
    cases hSome

theorem matchAt_bracket {pat body rest : Str}
    (h : classEnd pat = some (body, rest)) (c : CodePoint) (name : Str) :
    matchAt (openBracket :: pat) (c :: name) =
      if !classMatches c body then false else matchAt rest name := by
  rw [matchAt, if_neg (by decide)]
  simp only [if_neg (show ¬ openBracket = question by decide), if_true]
  split
  · rename_i hNone
    rw [h] at hNone
    cases hNone
  · rename_i body' rest' hSome
    rw [h, Option.some.injEq, Prod.mk.injEq] at hSome
    obtain ⟨rfl, rfl⟩ := hSome
    rfl

theorem ite_false_iff_and (d c : CodePoint) (b : Bool) :
    (if d ≠ c then false else b) = true ↔ d ∈ ({c} : Set CodePoint) ∧ b = true := by
  rw [Set.mem_singleton_iff]
  by_cases h : d = c
  · simp [h]
  · simp [h]

/-- The matcher accepts the words that fill the slots. -/
theorem matchAt_iff (pat name : Str) :
    matchAt pat name = true ↔ name ∈ language Token.direct (scan pat) := by
  induction hLength : pat.length using Nat.strong_induction_on
    generalizing pat name with
  | _ n ih =>
      cases pat with
      | nil => rw [matchAt_nil, scan, mem_language_nil, decide_eq_true_eq]
      | cons c pat =>
          rw [List.length_cons] at hLength
          by_cases hStar : c = star
          · have hSkip := length_skipStars_le pat
            rw [hStar, scan_star, matchAt_star]
            split
            · rename_i hEnd
              rw [hEnd, scan]
              exact iff_of_true rfl mem_language_gap_nil
            · rw [tryFrom_iff, mem_language_gap]
              simp only [ih _ (by omega) (skipStars pat) _ rfl]
          · cases name with
            | nil =>
                obtain ⟨t, slots, hScan⟩ := scan_cons hStar pat
                rw [matchAt_empty_name hStar, hScan]
                exact iff_of_false Bool.false_ne_true nil_not_mem_language_token
            | cons d name =>
                have ihPat := ih pat.length (by omega) pat name rfl
                by_cases hQuestion : c = question
                · rw [hQuestion, scan_question, mem_language_token,
                    matchAt_question, ihPat]
                  exact (and_iff_right (Set.mem_univ d)).symm
                · by_cases hBracket : c = openBracket
                  · rw [hBracket]
                    cases hClass : classEnd pat with
                    | none =>
                        rw [matchAt_unclosed hClass, scan_unclosed hClass,
                          mem_language_token, ← ihPat]
                        exact ite_false_iff_and d openBracket _
                    | some parts =>
                        obtain ⟨body, rest⟩ := parts
                        have hRest := length_lt_of_classEnd hClass
                        rw [matchAt_bracket hClass, scan_bracket hClass,
                          mem_language_token,
                          ← ih rest.length (by omega) rest name rfl]
                        change _ ↔ d ∈ directSet body ∧ _
                        rw [← classMatches_iff]
                        cases classMatches d body with
                        | true => simp
                        | false => simp
                  · rw [matchAt_literal hStar hQuestion hBracket,
                      scan_literal hStar hQuestion hBracket,
                      mem_language_token, ← ihPat]
                    exact ite_false_iff_and d c _

theorem fnmatchcase_iff (name pat : Str) :
    fnmatchcase name pat = true ↔ name ∈ language Token.direct (scan pat) :=
  matchAt_iff pat name

end CloverVM.Stdlib.Fnmatch
