import CloverVM.Stdlib.PythonString

/-!
# Filename matching

`fnmatchcase` and `translate` of `fnmatch.py` on `str` names and patterns.  The
functions walk the name and the pattern by an index that only goes up; an index
is represented by the text from it on.
-/

namespace CloverVM.Stdlib.Fnmatch

def star : CodePoint := ch '*'

def question : CodePoint := ch '?'

def openBracket : CodePoint := ch '['

def closeBracket : CodePoint := ch ']'

def bang : CodePoint := ch '!'

def dash : CodePoint := ch '-'

def caret : CodePoint := ch '^'

def backslash : CodePoint := ch '\\'

/-! ## Bracket expressions -/

/-- `while idx < pat_len and pat[idx] != close_bracket`: the text before the
bracket and after it. -/
def spanClose : Str → Option (Str × Str)
  | [] => none
  | c :: pat =>
      if c = closeBracket then some ([], pat)
      else (spanClose pat).map fun parts => (c :: parts.1, parts.2)

/-- Step over one code point. -/
def skipOne (c : CodePoint) (pat : Str) : Str × Str :=
  if pat.head? = some c then ([c], pat.tail) else ([], pat)

/-- `_class_end`, from the text after the opening bracket on: the text of the
class and the text after it. -/
def classEnd (pat : Str) : Option (Str × Str) :=
  let negation := skipOne bang pat
  let first := skipOne closeBracket negation.2
  (spanClose first.2).map fun parts =>
    (negation.1 ++ first.1 ++ parts.1, parts.2)

/-- The loop of `_class_matches`. -/
def classLoop (c : CodePoint) : Str → Bool → Bool
  | first :: d :: last :: rest, matched =>
      if d = dash then
        classLoop c rest
          (matched || decide (first ≤ last ∧ first ≤ c ∧ c ≤ last))
      else classLoop c (d :: last :: rest) (matched || decide (c = first))
  | first :: rest, matched =>
      classLoop c rest (matched || decide (c = first))
  | [], matched => matched

/-- `_class_matches` on the text of the class. -/
def classMatches (c : CodePoint) (body : Str) : Bool :=
  let negation := skipOne bang body
  let first := skipOne closeBracket negation.2
  let matched := classLoop c first.2
    (decide (first.1 ≠ []) && decide (c = closeBracket))
  if negation.1 ≠ [] then !matched else matched

theorem spanClose_eq_some {pat body rest : Str}
    (h : spanClose pat = some (body, rest)) :
    pat = body ++ closeBracket :: rest ∧ closeBracket ∉ body := by
  induction pat generalizing body with
  | nil => cases h
  | cons c pat ih =>
      rw [spanClose] at h
      split at h
      · rename_i hClose
        cases h
        exact ⟨by rw [hClose]; rfl, List.not_mem_nil⟩
      · rename_i hOther
        obtain ⟨⟨front, back⟩, hSpan, hEq⟩ := Option.map_eq_some_iff.mp h
        cases hEq
        obtain ⟨rfl, hNot⟩ := ih hSpan
        exact ⟨rfl, List.not_mem_cons_of_ne_of_not_mem (Ne.symm hOther) hNot⟩

theorem skipOne_append (c : CodePoint) (pat : Str) :
    (skipOne c pat).1 ++ (skipOne c pat).2 = pat := by
  rw [skipOne]
  split
  · rename_i hHead
    obtain ⟨rest, rfl⟩ := List.head?_eq_some_iff.mp hHead
    rfl
  · rfl

theorem classEnd_eq_some {pat body rest : Str}
    (h : classEnd pat = some (body, rest)) :
    pat = body ++ closeBracket :: rest := by
  obtain ⟨⟨front, back⟩, hSpan, hEq⟩ := Option.map_eq_some_iff.mp h
  cases hEq
  have hRest := (spanClose_eq_some hSpan).1
  calc pat = (skipOne bang pat).1 ++ (skipOne bang pat).2 :=
        (skipOne_append bang pat).symm
    _ = (skipOne bang pat).1 ++
          ((skipOne closeBracket (skipOne bang pat).2).1 ++
            (skipOne closeBracket (skipOne bang pat).2).2) := by
        rw [skipOne_append closeBracket]
    _ = _ := by
        rw [hRest]
        simp only [List.append_assoc]

theorem length_lt_of_classEnd {pat body rest : Str}
    (h : classEnd pat = some (body, rest)) : rest.length < pat.length := by
  rw [classEnd_eq_some h, List.length_append, List.length_cons]
  omega

/-- `while name_idx <= name_len` -/
def tryFrom (attempt : Str → Bool) : Str → Bool
  | [] => attempt []
  | c :: name =>
      if attempt (c :: name) then true else tryFrom attempt name

/-- The text after a run of stars. -/
def skipStars (pat : Str) : Str := pat.dropWhile (· = star)

theorem length_skipStars_le (pat : Str) : (skipStars pat).length ≤ pat.length :=
  (List.dropWhile_suffix _).length_le

/-- `_match_at` -/
def matchAt (pat name : Str) : Bool :=
  match pat with
  | [] => decide (name = [])
  | patCh :: pat =>
      if patCh = star then
        have := length_skipStars_le pat
        if skipStars pat = [] then true
        else tryFrom (fun name => matchAt (skipStars pat) name) name
      else
        match name with
        | [] => false
        | nameCh :: name =>
            if patCh = question then matchAt pat name
            else if patCh = openBracket then
              match h : classEnd pat with
              | none =>
                  if nameCh ≠ openBracket then false else matchAt pat name
              | some (body, rest) =>
                  have := length_lt_of_classEnd h
                  if !classMatches nameCh body then false
                  else matchAt rest name
            else if nameCh ≠ patCh then false
            else matchAt pat name
termination_by pat.length

def fnmatchcase (name pat : Str) : Bool := matchAt pat name

def regexSpecials : Str :=
  [ch '\\', ch '.', ch '^', ch '$', ch '+', ch '{', ch '}', ch '[', ch ']',
    ch '|', ch '(', ch ')']

/-- `_regex_escape` -/
def regexEscape (c : CodePoint) : Str :=
  if c ∈ regexSpecials then [backslash, c] else [c]

/-- The text of a regular expression that matches nothing. -/
def never : Str := [ch '(', ch '?', ch '!', ch ')']

/-- The loop of `_translate_class`, with whether `idx` is still `start + 1`. -/
def classStuff (atStart : Bool) (previous : Option CodePoint) :
    Str → Option Str
  | [] => some []
  | c :: rest =>
      let next (encoded : Str) : Option Str :=
        (classStuff false (some c) rest).map (encoded ++ ·)
      if c = backslash then next [backslash, backslash]
      else if c = dash ∧ (atStart ∨ rest = []) then next [backslash, dash]
      else if c = dash ∧ previous.isSome ∧ rest ≠ [] then
        if ∃ p ∈ previous, ∃ n ∈ rest.head?, p > n then none
        else next [dash]
      else if c = openBracket then next [backslash, openBracket]
      else if c = caret then next [backslash, caret]
      else next [c]

/-- `_translate_class` on the text of the class. -/
def translateClass (body : Str) : Str :=
  let negation := skipOne bang body
  if negation.2 = [] then [backslash, openBracket, backslash, closeBracket]
  else
    let stuff := if negation.1 ≠ [] then [caret] else []
    let first := skipOne closeBracket negation.2
    let stuff :=
      if first.1 ≠ [] then stuff ++ [backslash, closeBracket] else stuff
    let atStart := decide (negation.1 = [] ∧ first.1 = [])
    match classStuff atStart none first.2 with
    | none => never
    | some rest =>
        let stuff := stuff ++ rest
        if stuff = [caret] then [ch '.']
        else [openBracket] ++ stuff ++ [closeBracket]

/-- The loop of `translate`. -/
def translateLoop (pat : Str) : Str :=
  match pat with
  | [] => []
  | c :: pat =>
      if c = star then
        have := length_skipStars_le pat
        [ch '.', ch '*'] ++ translateLoop (skipStars pat)
      else if c = question then [ch '.'] ++ translateLoop pat
      else if c = openBracket then
        match h : classEnd pat with
        | none => [backslash, openBracket] ++ translateLoop pat
        | some (body, rest) =>
            have := length_lt_of_classEnd h
            translateClass body ++ translateLoop rest
      else regexEscape c ++ translateLoop pat
termination_by pat.length

def translate (pat : Str) : Str :=
  [ch '(', ch '?', ch 's', ch ':'] ++ translateLoop pat ++
    [ch ')', backslash, ch 'z']

end CloverVM.Stdlib.Fnmatch
