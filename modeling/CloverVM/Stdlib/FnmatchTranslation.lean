import CloverVM.Stdlib.FnmatchSpec

/-!
# The translation read as a regular expression

The text that `translate` prints is read back by Python's rules.  The members
of a class are printed one by one and read back as the same ranges, with two
exceptions: the printer gives the class up when a dash stands between
decreasing neighbours, and a closing bracket in front, which the matcher takes
on its own, begins a range when a dash and another member follow.
-/

namespace CloverVM.Stdlib.Fnmatch

open CloverVM.Collections.WildcardLanguage CloverVM.Stdlib.PythonRegex

/-- How one member is printed. -/
def encodeMember (escapeDash : Bool) (c : CodePoint) : Str :=
  if c = backslash ∨ c = openBracket ∨ c = caret ∨
      (c = dash ∧ escapeDash = true) then [backslash, c]
  else [c]

/-- A dash stands between decreasing neighbours. -/
def descends : Str → Bool
  | a :: d :: b :: rest =>
      decide (d = dash ∧ b < a) || descends (d :: b :: rest)
  | _ => false

theorem classStuff_cons (atStart : Bool) (previous : Option CodePoint)
    (h : atStart = true → previous = none) (c : CodePoint) (rest : Str) :
    classStuff atStart previous (c :: rest) =
      if c = dash ∧ ∃ p ∈ previous, ∃ n ∈ rest.head?, n < p then none
      else (classStuff false (some c) rest).map
        (encodeMember (atStart || decide (rest = [])) c ++ ·) := by
  have hBackslash : backslash ≠ dash := by decide
  rw [classStuff]
  by_cases hDash : c = dash
  · rw [hDash, if_neg hBackslash.symm]
    by_cases hEscape : atStart = true ∨ rest = []
    · have hFlag : (atStart || decide (rest = [])) = true := by simpa using hEscape
      have hNot : ¬ (dash = dash ∧
          ∃ p ∈ previous, ∃ n ∈ rest.head?, n < p) := by
        rintro ⟨-, p, hp, n, hn, -⟩
        rcases hEscape with hStart | hNil
        · rw [h hStart] at hp
          cases hp
        · rw [hNil] at hn
          cases hn
      have hCode : encodeMember true dash = [backslash, dash] := by decide
      rw [if_pos ⟨rfl, hEscape⟩, if_neg hNot, hFlag, hCode]
    · have hFlag : (atStart || decide (rest = [])) = false := by simpa using hEscape
      have hCode : encodeMember false dash = [dash] := by decide
      have hRest : rest ≠ [] := fun hNil => hEscape (Or.inr hNil)
      rw [if_neg (fun hAnd => hEscape hAnd.2), hFlag, hCode]
      cases previous with
      | none =>
          rw [if_neg (by simp), if_neg (by decide), if_neg (by decide),
            if_neg (by simp)]
      | some p =>
          rw [if_pos ⟨rfl, rfl, hRest⟩]
          simp only [true_and, gt_iff_lt]
  · have hPlain : ¬ (c = dash ∧ ∃ p ∈ previous, ∃ n ∈ rest.head?, n < p) :=
      fun hAnd => hDash hAnd.1
    rw [if_neg hPlain]
    by_cases hBack : c = backslash
    · rw [if_pos hBack, encodeMember, if_pos (Or.inl hBack), hBack]
    · rw [if_neg hBack, if_neg (fun hAnd => hDash hAnd.1),
        if_neg (fun hAnd => hDash hAnd.1)]
      by_cases hOpen : c = openBracket
      · rw [if_pos hOpen, encodeMember, if_pos (Or.inr (Or.inl hOpen)), hOpen]
      · by_cases hCaret : c = caret
        · rw [if_neg hOpen, if_pos hCaret, encodeMember,
            if_pos (Or.inr (Or.inr (Or.inl hCaret))), hCaret]
        · rw [if_neg hOpen, if_neg hCaret, encodeMember, if_neg]
          simp [hBack, hOpen, hCaret, hDash]

/-- The printer gives up exactly on a dash between decreasing neighbours. -/
theorem classStuff_eq_none_iff (body : Str) :
    ∀ (atStart : Bool) (previous : Option CodePoint),
      (atStart = true → previous = none) →
      (classStuff atStart previous body = none ↔
        descends (previous.toList ++ body) = true) := by
  induction body with
  | nil =>
      intro atStart previous _
      cases previous with
      | none => simp [classStuff, descends]
      | some p => simp [classStuff, descends]
  | cons c rest ih =>
      intro atStart previous h
      have hRest := ih false (some c) nofun
      rw [classStuff_cons atStart previous h]
      rw [Option.toList_some, List.singleton_append] at hRest
      cases previous with
      | none =>
          rw [if_neg (by simp), Option.map_eq_none_iff, hRest]
          rfl
      | some p =>
          cases rest with
          | nil => simp [classStuff, descends]
          | cons n rest =>
              change _ ↔ descends (p :: c :: n :: rest) = true
              rw [descends, Bool.or_eq_true, decide_eq_true_eq, ← hRest]
              simp only [Option.mem_def, Option.some.injEq, List.head?_cons,
                exists_eq_left']
              split
              · rename_i hDown
                exact iff_of_true rfl (Or.inl hDown)
              · rename_i hUp
                rw [Option.map_eq_none_iff, or_iff_right hUp]

/-! ## Reading the members back -/

theorem takeCode_encodeMember (escapeDash : Bool) (c : CodePoint) (more : Str) :
    takeCode (encodeMember escapeDash c ++ more) = some (c, more) := by
  rw [encodeMember]
  split
  · rename_i hEscaped
    have hLetter : isAsciiLetterOrDigit c = false := by
      rcases hEscaped with rfl | rfl | rfl | ⟨rfl, -⟩
      · decide
      · decide
      · decide
      · decide
    change takeCode (backslash :: c :: more) = _
    rw [takeCode, if_pos (show backslash = ch '\\' from rfl), takeEscape,
      hLetter]
    rfl
  · rename_i hPlain
    have hBack : ¬ c = ch '\\' := fun hEq => hPlain (Or.inl hEq)
    change takeCode (c :: more) = _
    rw [takeCode, if_neg hBack]

theorem head?_encodeMember (escapeDash : Bool) (c : CodePoint) (more : Str) :
    (encodeMember escapeDash c ++ more).head? = some backslash ∨
      ((encodeMember escapeDash c ++ more).head? = some c ∧ c ≠ caret ∧
        (c = dash → escapeDash = false)) := by
  rw [encodeMember]
  split
  · exact Or.inl rfl
  · rename_i hPlain
    refine Or.inr ⟨rfl, ?_, ?_⟩
    · exact fun hCaret => hPlain (Or.inr (Or.inr (Or.inl hCaret)))
    · intro hDash
      by_contra hEscape
      exact hPlain (Or.inr (Or.inr (Or.inr ⟨hDash, by simpa using hEscape⟩)))

theorem head?_encodeMember_dash_iff (escapeDash : Bool) (c : CodePoint)
    (more : Str) :
    (encodeMember escapeDash c ++ more).head? = some dash ↔
      c = dash ∧ escapeDash = false := by
  rcases head?_encodeMember escapeDash c more with hHead | ⟨hHead, -, hPlain⟩
  · rw [hHead]
    refine iff_of_false (by decide) ?_
    rintro ⟨rfl, rfl⟩
    cases hHead
  · rw [hHead, Option.some.injEq]
    exact ⟨fun hDash => ⟨hDash, hPlain hDash⟩, fun hDash => hDash.1⟩

theorem head?_encodeMember_ne_close (escapeDash : Bool) {c : CodePoint}
    (hc : c ≠ closeBracket) (more : Str) :
    (encodeMember escapeDash c ++ more).head? ≠ some closeBracket := by
  rcases head?_encodeMember escapeDash c more with hHead | ⟨hHead, -, -⟩
  · rw [hHead]
    decide
  · rw [hHead]
    exact fun hEq => hc (Option.some.inj hEq)

/-- A member in print and what is printed after it. -/
theorem classStuff_cons_eq_some {atStart : Bool} {previous : Option CodePoint}
    (h : atStart = true → previous = none) {c : CodePoint} {rest text : Str}
    (hText : classStuff atStart previous (c :: rest) = some text) :
    ∃ tail, classStuff false (some c) rest = some tail ∧
      text = encodeMember (atStart || decide (rest = [])) c ++ tail ∧
      ∀ p ∈ previous, ∀ n ∈ rest.head?, c = dash → p ≤ n := by
  rw [classStuff_cons atStart previous h, Option.ite_none_left_eq_some,
    Option.map_eq_some_iff] at hText
  obtain ⟨hUp, tail, hTail, rfl⟩ := hText
  refine ⟨tail, hTail, rfl, fun p hp n hn hDash => ?_⟩
  by_contra hDown
  exact hUp ⟨hDash, p, hp, n, hn, not_le.mp hDown⟩

/-- A plain dash is printed where a dash has a member after it. -/
theorem head?_classStuff_dash_iff {atStart : Bool}
    {previous : Option CodePoint} (h : atStart = true → previous = none)
    {body text : Str} (hText : classStuff atStart previous body = some text)
    (more : Str) :
    (text ++ closeBracket :: more).head? = some dash ↔
      atStart = false ∧ ∃ b rest, body = dash :: b :: rest := by
  cases body with
  | nil =>
      cases hText
      exact iff_of_false (by simp [closeBracket, dash, ch]) nofun
  | cons c rest =>
      obtain ⟨tail, -, rfl, -⟩ := classStuff_cons_eq_some h hText
      rw [List.append_assoc, head?_encodeMember_dash_iff, Bool.or_eq_false_iff,
        decide_eq_false_iff_not]
      constructor
      · rintro ⟨rfl, hStart, hRest⟩
        obtain ⟨b, rest, rfl⟩ := List.exists_cons_of_ne_nil hRest
        exact ⟨hStart, b, rest, rfl⟩
      · rintro ⟨hStart, b, rest', hEq⟩
        cases hEq
        exact ⟨rfl, hStart, List.cons_ne_nil _ _⟩

theorem head?_classStuff_ne_close {atStart : Bool}
    {previous : Option CodePoint} (h : atStart = true → previous = none)
    {body text : Str} (hText : classStuff atStart previous body = some text)
    (hNot : closeBracket ∉ body) (hBody : body ≠ []) (more : Str) :
    (text ++ more).head? ≠ some closeBracket := by
  cases body with
  | nil => exact absurd rfl hBody
  | cons c rest =>
      obtain ⟨tail, -, rfl, -⟩ := classStuff_cons_eq_some h hText
      rw [List.append_assoc]
      exact head?_encodeMember_ne_close _
        (fun hEq => hNot (hEq ▸ List.mem_cons_self)) _

/-! ### One member at a time -/

theorem parseMembers_close (more : Str) :
    parseMembers true (closeBracket :: more) = some ([], more) := by
  rw [parseMembers, if_pos ⟨rfl, rfl⟩]
  rfl

/-- A member that no dash follows. -/
theorem parseMembers_single {started : Bool} {text rest : Str} {c : CodePoint}
    (hClose : ¬ (started = true ∧ text.head? = some closeBracket))
    (hCode : takeCode text = some (c, rest)) (hDash : rest.head? ≠ some dash) :
    parseMembers started text =
      (parseMembers true rest).map fun result =>
        ((c, c) :: result.1, result.2) := by
  rw [parseMembers]
  refine (if_neg hClose).trans ?_
  split
  · rename_i hNone
    rw [hCode] at hNone
    cases hNone
  · rename_i low rest' hSome
    rw [hCode, Option.some.injEq, Prod.mk.injEq] at hSome
    obtain ⟨rfl, rfl⟩ := hSome
    exact if_neg hDash

/-- Two members with a dash between them. -/
theorem parseMembers_range {started : Bool} {text rest rest' : Str}
    {low high : CodePoint}
    (hClose : ¬ (started = true ∧ text.head? = some closeBracket))
    (hLow : takeCode text = some (low, dash :: rest))
    (hHigh : takeCode rest = some (high, rest'))
    (hOpen : rest.head? ≠ some closeBracket) :
    parseMembers started text =
      if high < low then none
      else (parseMembers true rest').map fun result =>
        ((low, high) :: result.1, result.2) := by
  rw [parseMembers]
  refine (if_neg hClose).trans ?_
  split
  · rename_i hNone
    rw [hLow] at hNone
    cases hNone
  · rename_i low' rest'' hSome
    rw [hLow, Option.some.injEq, Prod.mk.injEq] at hSome
    obtain ⟨rfl, rfl⟩ := hSome
    refine (if_pos rfl).trans ((if_neg hOpen).trans ?_)
    split
    · rename_i hNone
      rw [List.tail_cons, hHigh] at hNone
      cases hNone
    · rename_i high' rest'' hSome'
      rw [List.tail_cons, hHigh, Option.some.injEq, Prod.mk.injEq] at hSome'
      obtain ⟨rfl, rfl⟩ := hSome'
      rfl

theorem not_atStart (p : CodePoint) : false = true → some p = none := nofun

/-- Printed members read back as the ranges the matcher reads. -/
theorem parseMembers_classStuff (more body : Str) :
    ∀ (atStart : Bool) (previous : Option CodePoint) (text : Str)
      (started : Bool), (atStart = true → previous = none) →
      classStuff atStart previous body = some text → closeBracket ∉ body →
      (started = true ∨ body ≠ []) →
      parseMembers started (text ++ closeBracket :: more) =
        some (readRanges body, more) := by
  induction body using readRanges.induct with
  | case1 first last rest ih =>
      intro atStart previous text started h hText hNot hStarted
      have hClose := head?_classStuff_ne_close h hText hNot
        (List.cons_ne_nil _ _) (closeBracket :: more)
      obtain ⟨text₁, hText₁, rfl, -⟩ := classStuff_cons_eq_some h hText
      obtain ⟨text₂, hText₂, rfl, hUp⟩ :=
        classStuff_cons_eq_some (not_atStart first) hText₁
      obtain ⟨text₃, hText₃, rfl, -⟩ :=
        classStuff_cons_eq_some (not_atStart dash) hText₂
      have hOrder : ¬ last < first := not_lt.mpr (hUp first rfl last rfl rfl)
      have hLast : last ≠ closeBracket := by
        rintro rfl
        exact hNot (by simp)
      have hRest : closeBracket ∉ rest := fun hMem => hNot (by simp [hMem])
      have hPlain : encodeMember (false || decide (last :: rest = [])) dash =
          [dash] := by
        simp [encodeMember, dash, backslash, openBracket, caret, ch]
      rw [hPlain] at hClose ⊢
      simp only [List.append_assoc, List.cons_append] at hClose ⊢
      rw [parseMembers_range (fun hAnd => hClose hAnd.2)
        (takeCode_encodeMember _ _ _) (takeCode_encodeMember _ _ _)
        (head?_encodeMember_ne_close _ hLast _), if_neg hOrder,
        ih false (some last) text₃ true (not_atStart last) hText₃ hRest
          (Or.inl rfl), readRanges, if_pos rfl]
      rfl
  | case2 first d last rest hDash ih =>
      intro atStart previous text started h hText hNot hStarted
      have hClose := head?_classStuff_ne_close h hText hNot
        (List.cons_ne_nil _ _) (closeBracket :: more)
      obtain ⟨text₁, hText₁, rfl, -⟩ := classStuff_cons_eq_some h hText
      have hRest : closeBracket ∉ d :: last :: rest :=
        List.not_mem_of_not_mem_cons hNot
      have hHead : (text₁ ++ closeBracket :: more).head? ≠ some dash := by
        rw [Ne, head?_classStuff_dash_iff (not_atStart first) hText₁]
        rintro ⟨-, b, rest', hEq⟩
        exact hDash (List.cons.inj hEq).1
      rw [List.append_assoc] at hClose ⊢
      rw [parseMembers_single (fun hAnd => hClose hAnd.2)
        (takeCode_encodeMember _ _ _) hHead,
        ih false (some first) text₁ true (not_atStart first) hText₁ hRest
          (Or.inl rfl), readRanges, if_neg hDash]
      rfl
  | case3 first rest hShort ih =>
      intro atStart previous text started h hText hNot hStarted
      have hClose := head?_classStuff_ne_close h hText hNot
        (List.cons_ne_nil _ _) (closeBracket :: more)
      obtain ⟨text₁, hText₁, rfl, -⟩ := classStuff_cons_eq_some h hText
      have hRest : closeBracket ∉ rest := List.not_mem_of_not_mem_cons hNot
      have hHead : (text₁ ++ closeBracket :: more).head? ≠ some dash := by
        rw [Ne, head?_classStuff_dash_iff (not_atStart first) hText₁]
        rintro ⟨-, b, rest', hEq⟩
        exact hShort dash b rest' hEq
      rw [List.append_assoc] at hClose ⊢
      rw [parseMembers_single (fun hAnd => hClose hAnd.2)
        (takeCode_encodeMember _ _ _) hHead,
        ih false (some first) text₁ true (not_atStart first) hText₁ hRest
          (Or.inl rfl), readRanges]
      · rfl
      · exact hShort
  | case4 =>
      intro atStart previous text started h hText hNot hStarted
      have hTrue : started = true := hStarted.resolve_right fun hne => hne rfl
      cases hText
      rw [hTrue, List.nil_append, parseMembers_close, readRanges]

/-! ## Classes -/

/-- The ranges that members behind a closing bracket are read as: the bracket
begins a range when a dash and another member follow, and a range that goes down
is not read. -/
def leadingRanges : Str → Option (List Range)
  | d :: last :: rest =>
      if d = dash then
        if last < closeBracket then none
        else some ((closeBracket, last) :: readRanges rest)
      else some ((closeBracket, closeBracket) :: readRanges (d :: last :: rest))
  | rest => some ((closeBracket, closeBracket) :: readRanges rest)

/-- The ranges of a class as its translation is read. -/
def translatedRanges (body : Str) : Option (List Range) :=
  if leading body then leadingRanges (members body)
  else some (readRanges (members body))

/-- What is printed in front of the members. -/
def classFront (body : Str) : Str :=
  (if negated body then [caret] else []) ++
    (if leading body then [backslash, closeBracket] else [])

/-- The members begin where the class does. -/
def startsClass (body : Str) : Bool := !negated body && !leading body

/-- Printed members begin with something else than a caret. -/
theorem head?_classStuff_ne_caret {atStart : Bool}
    {previous : Option CodePoint} (h : atStart = true → previous = none)
    {body text : Str} (hText : classStuff atStart previous body = some text)
    (hBody : body ≠ []) (more : Str) :
    ∃ c, (text ++ more).head? = some c ∧ c ≠ caret := by
  cases body with
  | nil => exact absurd rfl hBody
  | cons c rest =>
      obtain ⟨tail, -, rfl, -⟩ := classStuff_cons_eq_some h hText
      rw [List.append_assoc]
      rcases head?_encodeMember (atStart || decide (rest = [])) c
        (tail ++ more) with hHead | ⟨hHead, hCaret, -⟩
      · exact ⟨backslash, hHead, by decide⟩
      · exact ⟨c, hHead, hCaret⟩

theorem startsClass_imp (body : Str) :
    startsClass body = true → (none : Option CodePoint) = none := fun _ => rfl

/-- There are members behind the caret of a negated class. -/
theorem classFront_append_ne_caret (cls : ClassText) {text : Str}
    (hText : classStuff (startsClass cls.text) none (members cls.text) =
      some text) : classFront cls.text ++ text ≠ [caret] := by
  intro hEq
  have hLength := congrArg List.length hEq
  rw [List.length_append, List.length_singleton] at hLength
  cases hLeading : leading cls.text with
  | true =>
      simp only [classFront, hLeading, if_true, List.length_append,
        List.length_cons, List.length_nil] at hLength
      omega
  | false =>
      have hMembers : members cls.text ≠ [] :=
        cls.nonempty.resolve_left (by rw [hLeading]; decide)
      obtain ⟨c, hHead, hCaret⟩ := head?_classStuff_ne_caret
        (startsClass_imp cls.text) hText hMembers []
      rw [List.append_nil] at hHead
      obtain ⟨tail, rfl⟩ := List.head?_eq_some_iff.mp hHead
      cases hNegated : negated cls.text with
      | true =>
          simp only [classFront, hNegated, hLeading, if_true,
            Bool.false_eq_true, if_false, List.length_append, List.length_cons,
            List.length_nil] at hLength
          omega
      | false =>
          simp only [classFront, hNegated, hLeading, Bool.false_eq_true,
            if_false, List.append_nil, List.nil_append] at hEq
          exact hCaret (List.cons.inj hEq).1

theorem unnegated_ne_nil (cls : ClassText) : unnegated cls.text ≠ [] := by
  intro hNil
  rcases cls.nonempty with hLeading | hMembers
  · rw [leading, hNil] at hLeading
    cases hLeading
  · rw [members, hNil] at hMembers
    exact hMembers rfl

/-- The text of a translated class. -/
theorem translateClass_eq (cls : ClassText) :
    translateClass cls.text =
      match classStuff (startsClass cls.text) none (members cls.text) with
      | none => never
      | some text =>
          [openBracket] ++ (classFront cls.text ++ text) ++ [closeBracket] := by
  have hNegation : (skipOne bang cls.text).1 ≠ [] ↔ negated cls.text = true := by
    rw [skipOne_fst_ne_nil_iff, negated, decide_eq_true_eq]
  have hFirst : (skipOne closeBracket (unnegated cls.text)).1 ≠ [] ↔
      leading cls.text = true := by
    rw [skipOne_fst_ne_nil_iff, leading, decide_eq_true_eq]
  have hStart : decide ((skipOne bang cls.text).1 = [] ∧
      (skipOne closeBracket (unnegated cls.text)).1 = []) =
      startsClass cls.text := by
    rw [startsClass, Bool.eq_iff_iff, decide_eq_true_eq, Bool.and_eq_true,
      Bool.not_eq_true', Bool.not_eq_true', ← Bool.not_eq_true,
      ← Bool.not_eq_true, ← hNegation, ← hFirst, not_not, not_not]
  have hUnnegated : (skipOne bang cls.text).2 = unnegated cls.text := rfl
  rw [translateClass]
  simp only [hUnnegated, if_neg (unnegated_ne_nil cls), hStart, hNegation,
    hFirst]
  change (match classStuff (startsClass cls.text) none (members cls.text) with
    | none => never
    | some rest => _) = _
  cases hText : classStuff (startsClass cls.text) none (members cls.text) with
  | none => rfl
  | some text =>
      have hNe := classFront_append_ne_caret cls hText
      have hStuff : (if leading cls.text = true then
            (if negated cls.text = true then [caret] else []) ++
              [backslash, closeBracket]
          else if negated cls.text = true then [caret] else []) =
          classFront cls.text := by
        rw [classFront]
        split
        · rfl
        · rw [List.append_nil]
      simp only [hStuff]
      exact if_neg hNe

/-! ## Reading a class back -/

theorem leadingRanges_of_ne {body : Str}
    (h : ∀ last rest, body ≠ dash :: last :: rest) :
    leadingRanges body =
      some ((closeBracket, closeBracket) :: readRanges body) := by
  match body with
  | [] => rfl
  | [_] => rfl
  | d :: last :: rest =>
      have hDash : d ≠ dash := fun hEq => h last rest (by rw [hEq])
      rw [leadingRanges, if_neg hDash]

/-- A closing bracket in front and what is printed after it. -/
theorem parseMembers_leading {body text : Str} (more : Str)
    (hText : classStuff false none body = some text)
    (hNot : closeBracket ∉ body) :
    parseMembers false (backslash :: closeBracket ::
        (text ++ closeBracket :: more)) =
      (leadingRanges body).map fun ranges => (ranges, more) := by
  have hFree : false = true → (none : Option CodePoint) = none := fun _ => rfl
  have hCode : ∀ tail : Str, takeCode (backslash :: closeBracket :: tail) =
      some (closeBracket, tail) := fun _ => rfl
  have hOpen : ∀ tail : Str, ¬ (false = true ∧
      (backslash :: tail).head? = some closeBracket) := fun _ h => nomatch h.1
  by_cases hRange : ∃ last rest, body = dash :: last :: rest
  · obtain ⟨last, rest, rfl⟩ := hRange
    obtain ⟨text₁, hText₁, rfl, -⟩ := classStuff_cons_eq_some hFree hText
    obtain ⟨text₂, hText₂, rfl, -⟩ :=
      classStuff_cons_eq_some (not_atStart dash) hText₁
    have hLast : last ≠ closeBracket := by
      rintro rfl
      exact hNot (by simp)
    have hRest : closeBracket ∉ rest := fun hMem => hNot (by simp [hMem])
    have hPlain : encodeMember (false || decide (last :: rest = [])) dash =
        [dash] := by
      simp [encodeMember, dash, backslash, openBracket, caret, ch]
    rw [hPlain]
    simp only [List.append_assoc, List.cons_append, List.nil_append]
    rw [parseMembers_range (hOpen _) (hCode _) (takeCode_encodeMember _ _ _)
      (head?_encodeMember_ne_close _ hLast _),
      parseMembers_classStuff more rest false (some last) text₂ true
        (not_atStart last) hText₂ hRest (Or.inl rfl), leadingRanges, if_pos rfl]
    split
    · rfl
    · rfl
  · have hOther : ∀ last rest, body ≠ dash :: last :: rest :=
      fun last rest hEq => hRange ⟨last, rest, hEq⟩
    have hHead : (text ++ closeBracket :: more).head? ≠ some dash := by
      rw [Ne, head?_classStuff_dash_iff hFree hText]
      rintro ⟨-, last, rest, hEq⟩
      exact hOther last rest hEq
    rw [parseMembers_single (hOpen _) (hCode _) hHead,
      parseMembers_classStuff more body false none text true hFree hText hNot
        (Or.inl rfl), leadingRanges_of_ne hOther]
    rfl

/-- What is printed of the members reads back, and is not a caret. -/
theorem parseMembers_class (cls : ClassText) {text : Str}
    (hText : classStuff (startsClass cls.text) none (members cls.text) =
      some text) (more : Str) :
    ((if leading cls.text then [backslash, closeBracket] else []) ++ text ++
        closeBracket :: more).head? ≠ some caret ∧
      parseMembers false
          ((if leading cls.text then [backslash, closeBracket] else []) ++ text ++
            closeBracket :: more) =
        (translatedRanges cls.text).map fun ranges => (ranges, more) := by
  cases hLeading : leading cls.text with
  | true =>
      have hFree : startsClass cls.text = false := by
        rw [startsClass, hLeading, Bool.not_true, Bool.and_false]
      rw [hFree] at hText
      rw [translatedRanges, hLeading, if_pos rfl, if_pos rfl]
      exact ⟨fun hEq => absurd (Option.some.inj hEq) (by decide),
        parseMembers_leading more hText cls.noClose⟩
  | false =>
      have hMembers : members cls.text ≠ [] :=
        cls.nonempty.resolve_left (by rw [hLeading]; decide)
      obtain ⟨c, hHead, hCaret⟩ := head?_classStuff_ne_caret
        (startsClass_imp cls.text) hText hMembers (closeBracket :: more)
      rw [translatedRanges, hLeading, if_neg Bool.false_ne_true,
        if_neg Bool.false_ne_true, List.nil_append, hHead,
        parseMembers_classStuff more _ _ none text false
          (startsClass_imp cls.text) hText cls.noClose (Or.inr hMembers)]
      exact ⟨fun hEq => hCaret (Option.some.inj hEq), rfl⟩

/-- A printed class reads back as its translated ranges. -/
theorem parseSet_class (cls : ClassText) {text : Str}
    (hText : classStuff (startsClass cls.text) none (members cls.text) =
      some text) (more : Str) :
    parseSet (classFront cls.text ++ text ++ closeBracket :: more) =
      (translatedRanges cls.text).map fun ranges =>
        (.set (negated cls.text) ranges, more) := by
  obtain ⟨hHead, hMembers⟩ := parseMembers_class cls hText more
  rw [classFront, parseSet]
  cases negated cls.text with
  | true =>
      rw [if_pos rfl]
      refine (if_pos rfl).trans ?_
      change (parseMembers false ((if leading cls.text then
        [backslash, closeBracket] else []) ++ text ++ closeBracket :: more)).map
          _ = _
      rw [hMembers, Option.map_map]
      rfl
  | false =>
      rw [if_neg Bool.false_ne_true, List.nil_append]
      refine (if_neg hHead).trans ?_
      rw [hMembers, Option.map_map]
      rfl

/-! ## Reading a translation back -/

/-- How one slot is printed. -/
def slotText : Option Token → Str
  | none => [ch '.', ch '*']
  | some .question => [ch '.']
  | some (.literal c _) => regexEscape c
  | some (.bracket cls) => translateClass cls.text

/-- What one slot is read back as. -/
def slotPiece : Option Token → Option Piece
  | none => some (.many .any)
  | some .question => some (.one .any)
  | some (.literal c _) => some (.one (.literal c))
  | some (.bracket cls) =>
      if descends (members cls.text) then some .never
      else (translatedRanges cls.text).map fun ranges =>
        .one (.set (negated cls.text) ranges)

theorem translateLoop_unclosed {pat : Str} (h : classEnd pat = none) :
    translateLoop (openBracket :: pat) =
      [backslash, openBracket] ++ translateLoop pat := by
  rw [translateLoop, if_neg (by decide), if_neg (by decide), if_pos rfl]
  split
  · rfl
  · rename_i hSome
    rw [h] at hSome
    cases hSome

theorem translateLoop_bracket {pat body rest : Str}
    (h : classEnd pat = some (body, rest)) :
    translateLoop (openBracket :: pat) =
      translateClass body ++ translateLoop rest := by
  rw [translateLoop, if_neg (by decide), if_neg (by decide), if_pos rfl]
  split
  · rename_i hNone
    rw [h] at hNone
    cases hNone
  · rename_i body' rest' hSome
    rw [h, Option.some.injEq, Prod.mk.injEq] at hSome
    obtain ⟨rfl, rfl⟩ := hSome
    rfl

/-- The slots are printed one after the other. -/
theorem translateLoop_eq (pat : Str) :
    translateLoop pat = (scan pat).flatMap slotText := by
  induction hLength : pat.length using Nat.strong_induction_on
    generalizing pat with
  | _ n ih =>
      cases pat with
      | nil =>
          rw [translateLoop, scan]
          rfl
      | cons c pat =>
          rw [List.length_cons] at hLength
          have ihPat := ih pat.length (by omega) pat rfl
          by_cases hStar : c = star
          · have hSkip := length_skipStars_le pat
            rw [hStar, scan_star, translateLoop, if_pos rfl,
              ih _ (by omega) (skipStars pat) rfl]
            rfl
          · by_cases hQuestion : c = question
            · rw [hQuestion, scan_question, translateLoop, if_neg (by decide),
                if_pos rfl, ihPat]
              rfl
            · by_cases hBracket : c = openBracket
              · rw [hBracket]
                cases hClass : classEnd pat with
                | none =>
                    rw [translateLoop_unclosed hClass, scan_unclosed hClass,
                      ihPat]
                    rfl
                | some parts =>
                    obtain ⟨body, rest⟩ := parts
                    have hRest := length_lt_of_classEnd hClass
                    rw [translateLoop_bracket hClass, scan_bracket hClass,
                      ih rest.length (by omega) rest rfl]
                    rfl
              · rw [scan_literal hStar hQuestion hBracket, translateLoop,
                  if_neg hStar, if_neg hQuestion, if_neg hBracket, ihPat]
                rfl

theorem classStuff_startsClass_eq_none_iff (body : Str) :
    classStuff (startsClass body) none (members body) = none ↔
      descends (members body) = true :=
  classStuff_eq_none_iff _ _ _ (startsClass_imp body)

/-- No slot is printed with a star in front. -/
theorem head?_slotText (slot : Option Token) (more : Str) :
    ∃ c, (slotText slot ++ more).head? = some c ∧ c ≠ star := by
  match slot with
  | none => exact ⟨ch '.', rfl, by decide⟩
  | some .question => exact ⟨ch '.', rfl, by decide⟩
  | some (.literal c hPlain) =>
      rw [slotText, regexEscape]
      split
      · exact ⟨backslash, rfl, by decide⟩
      · exact ⟨c, rfl, hPlain.1⟩
  | some (.bracket cls) =>
      rw [slotText, translateClass_eq]
      split
      · exact ⟨ch '(', rfl, by decide⟩
      · exact ⟨openBracket, rfl, by decide⟩

/-- A character that needs no escape. -/
theorem parseAtom_literal {c : CodePoint} (hPlain : c ≠ star ∧ c ≠ question)
    (hSpecial : c ∉ regexSpecials) (more : Str) :
    parseAtom (c :: more) = some (.literal c, more) := by
  have hCovered : ∀ d ∈ specials, d ∈ regexSpecials ∨ d = star ∨ d = question := by
    simp only [specials, List.forall_mem_cons, List.not_mem_nil,
      false_imp_iff, implies_true, and_true]
    and_intros <;> decide
  have hNot : c ∉ specials := by
    intro hMem
    rcases hCovered c hMem with h | h | h
    · exact hSpecial h
    · exact hPlain.1 h
    · exact hPlain.2 h
  have hDot : c ≠ ch '.' := fun hEq => hNot (hEq ▸ by decide)
  have hOpen : c ≠ ch '[' := fun hEq => hNot (hEq ▸ by decide)
  have hBack : c ≠ ch '\\' := fun hEq => hSpecial (hEq ▸ by decide)
  rw [parseAtom, if_neg hDot, if_neg hOpen,
    if_neg (hNot ∘ List.contains_iff_mem.mp), takeCode,
    if_neg hBack]
  rfl

/-- A character that needs an escape. -/
theorem parseAtom_escaped {c : CodePoint} (hSpecial : c ∈ regexSpecials)
    (more : Str) :
    parseAtom (backslash :: c :: more) = some (.literal c, more) := by
  have hCovered : ∀ d ∈ regexSpecials, isAsciiLetterOrDigit d = false := by
    simp only [regexSpecials, List.forall_mem_cons, List.not_mem_nil,
      false_imp_iff, implies_true, and_true]
    and_intros <;> decide
  have hCode : takeCode (backslash :: c :: more) = some (c, more) := by
    rw [takeCode, if_pos (show backslash = ch '\\' from rfl), takeEscape,
      hCovered c hSpecial]
    rfl
  rw [parseAtom, if_neg (by decide), if_neg (by decide), if_neg (by decide),
    hCode]
  rfl

/-- An atom at the front of the pieces. -/
theorem parsePieces_atom {c : CodePoint} {text rest : Str} {atom : Atom}
    (hClose : c ≠ ch ')') (hOpen : c ≠ ch '(')
    (hAtom : parseAtom (c :: text) = some (atom, rest)) (fuel : Nat) :
    parsePieces (fuel + 1) (c :: text) =
      if rest.head? = some (ch '*') then
        (parsePieces fuel rest.tail).map fun result =>
          (.many atom :: result.1, result.2)
      else
        (parsePieces fuel rest).map fun result =>
          (.one atom :: result.1, result.2) := by
  have hHead : ¬ (c :: text).head? = some (ch ')') :=
    fun hEq => hClose (Option.some.inj hEq)
  have hNever : [ch '(', ch '?', ch '!', ch ')'].isPrefixOf (c :: text) =
      false := by
    rw [List.isPrefixOf, beq_eq_false_iff_ne.mpr (Ne.symm hOpen),
      Bool.false_and]
  rw [parsePieces, if_neg hHead, hNever, if_neg Bool.false_ne_true, hAtom]
  rfl

/-- An atom that is not repeated. -/
theorem parsePieces_one {c : CodePoint} {text more : Str} {atom : Atom}
    (hClose : c ≠ ch ')') (hOpen : c ≠ ch '(')
    (hAtom : parseAtom (c :: text) = some (atom, more))
    (hMore : more.head? ≠ some star) (fuel : Nat) :
    parsePieces (fuel + 1) (c :: text) =
      (parsePieces fuel more).map fun result =>
        (.one atom :: result.1, result.2) :=
  (parsePieces_atom hClose hOpen hAtom fuel).trans (if_neg hMore)

/-- A printed slot reads back as its piece. -/
theorem parsePieces_slot (slot : Option Token) {more : Str}
    (hMore : more.head? ≠ some star) (fuel : Nat) :
    parsePieces (fuel + 1) (slotText slot ++ more) =
      (slotPiece slot).bind fun piece =>
        (parsePieces fuel more).map fun result =>
          (piece :: result.1, result.2) := by
  match slot with
  | none =>
      have hAtom : parseAtom (ch '.' :: ch '*' :: more) =
          some (.any, ch '*' :: more) := rfl
      exact (parsePieces_atom (by decide) (by decide) hAtom fuel).trans
        (if_pos rfl)
  | some .question =>
      have hAtom : parseAtom (ch '.' :: more) = some (.any, more) := rfl
      exact parsePieces_one (by decide) (by decide) hAtom hMore fuel
  | some (.literal c hPlain) =>
      by_cases hSpecial : c ∈ regexSpecials
      · rw [slotText, regexEscape, if_pos hSpecial]
        exact parsePieces_one (by decide) (by decide)
          (parseAtom_escaped hSpecial more) hMore fuel
      · rw [slotText, regexEscape, if_neg hSpecial]
        refine parsePieces_one ?_ ?_ (parseAtom_literal hPlain hSpecial more)
          hMore fuel
        · exact fun hEq => hSpecial (hEq ▸ by decide)
        · exact fun hEq => hSpecial (hEq ▸ by decide)
  | some (.bracket cls) =>
      have hNone := classStuff_startsClass_eq_none_iff cls.text
      rw [slotText, translateClass_eq, slotPiece]
      cases hText : classStuff (startsClass cls.text) none (members cls.text) with
      | none =>
          rw [if_pos (hNone.mp hText)]
          rfl
      | some text =>
          have hUp : ¬ descends (members cls.text) = true := by
            intro hDown
            rw [hNone.mpr hDown] at hText
            cases hText
          have hSet := parseSet_class cls hText more
          have hSplit : [openBracket] ++ (classFront cls.text ++ text) ++
              [closeBracket] ++ more = openBracket ::
                (classFront cls.text ++ text ++ closeBracket :: more) := by
            simp only [List.append_assoc, List.cons_append, List.nil_append]
          have hAtom : parseAtom (openBracket ::
              (classFront cls.text ++ text ++ closeBracket :: more)) =
                (translatedRanges cls.text).map fun ranges =>
                  (.set (negated cls.text) ranges, more) := by
            rw [parseAtom, if_neg (by decide)]
            exact (if_pos rfl).trans hSet
          rw [if_neg hUp, hSplit]
          cases hRanges : translatedRanges cls.text with
          | none =>
              rw [hRanges] at hAtom
              rw [parsePieces, if_neg, hAtom]
              · rfl
              · exact fun hEq => absurd (Option.some.inj hEq) (by decide)
          | some ranges =>
              rw [hRanges] at hAtom
              exact parsePieces_one (by decide) (by decide) hAtom hMore fuel

theorem slotText_ne_nil (slot : Option Token) : slotText slot ≠ [] := by
  intro hNil
  obtain ⟨c, hHead, -⟩ := head?_slotText slot []
  rw [hNil] at hHead
  cases hHead

/-- Printed slots read back as their pieces. -/
theorem parsePieces_slots (slots : List (Option Token)) (tail : Str)
    {fuel : Nat} (hFuel : slots.length < fuel) :
    parsePieces fuel (slots.flatMap slotText ++ ch ')' :: tail) =
      (slots.mapM slotPiece).map fun pieces => (pieces, tail) := by
  induction slots generalizing fuel with
  | nil =>
      obtain ⟨fuel, rfl⟩ : ∃ less, fuel = less + 1 := ⟨fuel - 1, by simp at hFuel; omega⟩
      exact if_pos rfl
  | cons slot slots ih =>
      rw [List.length_cons] at hFuel
      obtain ⟨fuel, rfl⟩ : ∃ less, fuel = less + 1 := ⟨fuel - 1, by omega⟩
      have hMore : (slots.flatMap slotText ++ ch ')' :: tail).head? ≠
          some star := by
        cases slots with
        | nil => exact fun hEq => absurd (Option.some.inj hEq) (by decide)
        | cons next slots =>
            obtain ⟨c, hHead, hStar⟩ := head?_slotText next
              (slots.flatMap slotText ++ ch ')' :: tail)
            rw [List.flatMap_cons, List.append_assoc, hHead]
            exact fun hEq => hStar (Option.some.inj hEq)
      rw [List.flatMap_cons, List.append_assoc, parsePieces_slot slot hMore,
        ih (by omega), List.mapM_cons]
      cases slotPiece slot with
      | none => rfl
      | some piece =>
          cases slots.mapM slotPiece with
          | none => rfl
          | some pieces => rfl

/-- A translation is read as the pieces of its slots. -/
theorem parse_translate (pat : Str) :
    parse (translate pat) = (scan pat).mapM slotPiece := by
  have hLength : ∀ slots : List (Option Token),
      slots.length ≤ (slots.flatMap slotText).length := by
    intro slots
    induction slots with
    | nil => exact Nat.zero_le _
    | cons slot slots ih =>
        have hPos := List.length_pos_of_ne_nil (slotText_ne_nil slot)
        rw [List.flatMap_cons, List.length_append, List.length_cons]
        omega
  have hText : translate pat = ch '(' :: ch '?' :: ch 's' :: ch ':' ::
      ((scan pat).flatMap slotText ++ ch ')' :: [backslash, ch 'z']) := by
    rw [translate, translateLoop_eq, List.append_assoc]
    rfl
  have hFuel : (scan pat).length < (translate pat).length := by
    have hSlots := hLength (scan pat)
    rw [hText]
    simp only [List.length_cons, List.length_append]
    omega
  have hPieces := parsePieces_slots (scan pat) [backslash, ch 'z'] hFuel
  have hPrefix : [ch '(', ch '?', ch 's', ch ':'].isPrefixOf
      (translate pat) = true := by
    rw [hText]
    rfl
  have hDrop : (translate pat).drop 4 =
      (scan pat).flatMap slotText ++ ch ')' :: [backslash, ch 'z'] := by
    rw [hText]
    rfl
  rw [parse, if_pos hPrefix, hDrop, hPieces]
  cases (scan pat).mapM slotPiece with
  | none => rfl
  | some pieces => rfl

end CloverVM.Stdlib.Fnmatch
