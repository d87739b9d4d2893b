import CloverVM.Stdlib.FnmatchTranslation

/-!
# When the matcher and the translation agree

Both readings of a pattern are valuations of its slots, so the matcher and the
translation accept the same names exactly when every class is read, and either
all classes stand for the same code points or both readings have a class that
nothing matches.
-/

namespace CloverVM.Stdlib.Fnmatch

open CloverVM.Collections.WildcardLanguage CloverVM.Stdlib.PythonRegex

/-- The code points a class stands for where its translation is read. -/
def translatedSet (body : Str) : Option (Set CodePoint) :=
  if descends (members body) then some ∅
  else (translatedRanges body).map fun ranges =>
    if negated body then (covered ranges)ᶜ else covered ranges

/-- What the translation puts into a letter slot, if it is read. -/
def Token.translated : Token → Option (Set CodePoint)
  | .question => some Set.univ
  | .literal c _ => some {c}
  | .bracket cls => translatedSet cls.text

def Token.regex (t : Token) : Set CodePoint := t.translated.getD ∅

theorem kstar_letter_univ :
    KStar.kstar (letter (Set.univ : Set CodePoint)) =
      (Set.univ : Set Str) := by
  ext w
  refine iff_of_true ?_ trivial
  refine Language.mem_kstar.mpr ⟨w.map fun c => [c], ?_, ?_⟩
  · induction w with
    | nil => rfl
    | cons c w ih => rw [List.map_cons, List.flatten_cons, ← ih]; rfl
  · intro y hy
    obtain ⟨c, -, rfl⟩ := List.mem_map.mp hy
    exact ⟨c, trivial, rfl⟩

theorem letter_empty : letter (∅ : Set CodePoint) = 0 := by
  ext w
  refine iff_of_false ?_ (Language.notMem_zero w)
  rintro ⟨c, hc, -⟩
  exact hc

/-- What a slot is read back as matches what the slot stands for. -/
theorem slotPiece_language {slot : Option Token} {piece : Piece}
    (h : slotPiece slot = some piece) :
    piece.language = slotLanguage Token.regex slot := by
  match slot with
  | none =>
      cases h
      exact kstar_letter_univ
  | some .question =>
      cases h
      rfl
  | some (.literal c _) =>
      cases h
      rfl
  | some (.bracket cls) =>
      rw [slotPiece] at h
      split at h
      · rename_i hDown
        cases h
        have hSet : Token.regex (.bracket cls) = ∅ := by
          rw [Token.regex, Token.translated, translatedSet, if_pos hDown]
          rfl
        rw [slotLanguage, hSet, letter_empty]
        rfl
      · rename_i hUp
        obtain ⟨ranges, hRanges, rfl⟩ := Option.map_eq_some_iff.mp h
        have hSet : Token.regex (.bracket cls) =
            (Atom.set (negated cls.text) ranges).accepts := by
          rw [Token.regex, Token.translated, translatedSet, if_neg hUp, hRanges]
          rfl
        rw [slotLanguage, hSet]
        rfl

theorem slotPiece_eq_none_iff (slot : Option Token) :
    slotPiece slot = none ↔ ∃ t, slot = some t ∧ t.translated = none := by
  rcases slot with _ | _ | ⟨c, _⟩ | cls
  · exact iff_of_false (by rintro ⟨⟩) (by rintro ⟨t, ⟨⟩, _⟩)
  · exact iff_of_false (by rintro ⟨⟩) (by rintro ⟨t, ⟨⟩, ⟨⟩⟩)
  · exact iff_of_false (by rintro ⟨⟩) (by rintro ⟨t, ⟨⟩, ⟨⟩⟩)
  · simp only [Option.some.injEq, exists_eq_left', Token.translated,
      slotPiece, translatedSet]
    split
    · exact iff_of_false (by rintro ⟨⟩) (by rintro ⟨⟩)
    · rw [Option.map_eq_none_iff, Option.map_eq_none_iff]

/-- The language of the translation, if every class of it is read. -/
theorem mapM_slotPiece (slots : List (Option Token)) :
    (slots.mapM slotPiece = none ∧ ∃ t ∈ letters slots, t.translated = none) ∨
    ∃ pieces, slots.mapM slotPiece = some pieces ∧
      regexLanguage pieces = language Token.regex slots ∧
      ∀ t ∈ letters slots, t.translated ≠ none := by
  induction slots with
  | nil => exact Or.inr ⟨[], rfl, rfl, fun t ht => absurd ht List.not_mem_nil⟩
  | cons slot slots ih =>
      have hLetters : ∀ t, t ∈ letters (slot :: slots) ↔
          slot = some t ∨ t ∈ letters slots := by
        intro t
        cases slot with
        | none => exact ⟨Or.inr, fun h => h.resolve_left nofun⟩
        | some s =>
            change t ∈ s :: letters slots ↔ _
            rw [List.mem_cons, Option.some.injEq, eq_comm]
      cases hPiece : slotPiece slot with
      | none =>
          obtain ⟨t, hSlot, ht⟩ := (slotPiece_eq_none_iff slot).mp hPiece
          refine Or.inl ⟨?_, t, (hLetters t).mpr (Or.inl hSlot), ht⟩
          rw [List.mapM_cons, hPiece]
          rfl
      | some piece =>
          rcases ih with ⟨hNone, t, hMem, ht⟩ | ⟨pieces, hSome, hLanguage, hRead⟩
          · refine Or.inl ⟨?_, t, (hLetters t).mpr (Or.inr hMem), ht⟩
            rw [List.mapM_cons, hPiece, hNone]
            rfl
          · refine Or.inr ⟨piece :: pieces, ?_, ?_, ?_⟩
            · rw [List.mapM_cons, hPiece, hSome]
              rfl
            · rw [regexLanguage, List.map_cons, List.prod_cons,
                slotPiece_language hPiece]
              exact congrArg (slotLanguage Token.regex slot * ·) hLanguage
            · intro t hMem hNone
              rcases (hLetters t).mp hMem with rfl | hMem
              · rw [(slotPiece_eq_none_iff _).mpr ⟨t, rfl, hNone⟩] at hPiece
                cases hPiece
              · exact hRead t hMem hNone

/-! ## Agreement -/

/-- The classes of a pattern. -/
def classes (pat : Str) : List ClassText :=
  (letters (scan pat)).filterMap fun
    | .bracket cls => some cls
    | _ => none

/-- A name matches exactly if it is in the language of the translation. -/
def Agrees (pat : Str) : Prop :=
  ∃ pieces, parse (translate pat) = some pieces ∧
    ∀ name, fnmatchcase name pat = true ↔ name ∈ regexLanguage pieces

/-- Every class is read in translation, and as it is matched, or there is a
class that matches nothing in the one reading and in the other. -/
def ClassesAgree (pat : Str) : Prop :=
  (∀ cls ∈ classes pat, translatedSet cls.text ≠ none) ∧
    ((∀ cls ∈ classes pat,
        translatedSet cls.text = some (directSet cls.text)) ∨
      ((∃ cls ∈ classes pat, directSet cls.text = ∅) ∧
        ∃ cls ∈ classes pat, translatedSet cls.text = some ∅))

theorem mem_classes_iff {pat : Str} {cls : ClassText} :
    cls ∈ classes pat ↔ Token.bracket cls ∈ letters (scan pat) := by
  rw [classes, List.mem_filterMap]
  constructor
  · rintro ⟨t, ht, hEq⟩
    cases t with
    | question => cases hEq
    | literal c _ => cases hEq
    | bracket cls =>
        cases hEq
        exact ht
  · intro h
    exact ⟨_, h, rfl⟩

/-- Only classes can be read in two ways. -/
theorem forall_letters_iff {pat : Str} {P : Token → Prop}
    (hQuestion : P .question) (hLiteral : ∀ c h, P (.literal c h)) :
    (∀ t ∈ letters (scan pat), P t) ↔
      ∀ cls ∈ classes pat, P (.bracket cls) := by
  simp only [mem_classes_iff]
  constructor
  · exact fun h cls hMem => h _ hMem
  · intro h t hMem
    cases t with
    | question => exact hQuestion
    | literal c hPlain => exact hLiteral c hPlain
    | bracket cls => exact h cls hMem

theorem exists_letters_iff {pat : Str} {P : Token → Prop}
    (hQuestion : ¬ P .question) (hLiteral : ∀ c h, ¬ P (.literal c h)) :
    (∃ t ∈ letters (scan pat), P t) ↔
      ∃ cls ∈ classes pat, P (.bracket cls) := by
  have h := not_congr
    (@forall_letters_iff pat (fun t => ¬ P t) hQuestion hLiteral)
  push Not at h
  exact h

/-- A slot that is read stands for what it is read as. -/
theorem Token.regex_eq_iff {t : Token} (h : t.translated ≠ none)
    (s : Set CodePoint) : t.regex = s ↔ t.translated = some s := by
  obtain ⟨r, hr⟩ := Option.ne_none_iff_exists'.mp h
  rw [Token.regex, hr, Option.getD_some, Option.some.injEq]

/-- The two languages of a pattern whose classes are read. -/
theorem languages_eq_iff {pat : Str}
    (hRead : ∀ t ∈ letters (scan pat), t.translated ≠ none) :
    language Token.direct (scan pat) = language Token.regex (scan pat) ↔
      (∀ cls ∈ classes pat,
        translatedSet cls.text = some (directSet cls.text)) ∨
      ((∃ cls ∈ classes pat, directSet cls.text = ∅) ∧
        ∃ cls ∈ classes pat, translatedSet cls.text = some ∅) := by
  have hAlike : (∀ t ∈ letters (scan pat), t.direct = t.regex) ↔
      ∀ cls ∈ classes pat,
        translatedSet cls.text = some (directSet cls.text) := by
    refine Iff.trans ?_ (@forall_letters_iff pat
      (fun t => t.translated = some t.direct) rfl fun _ _ => rfl)
    refine forall₂_congr fun t ht => ?_
    rw [eq_comm, Token.regex_eq_iff (hRead t ht)]
  have hDirect : (∃ t ∈ letters (scan pat), t.direct = ∅) ↔
      ∃ cls ∈ classes pat, directSet cls.text = ∅ :=
    @exists_letters_iff pat (fun t => t.direct = ∅)
      Set.univ_nonempty.ne_empty fun c _ => Set.singleton_ne_empty c
  have hTranslated : (∃ t ∈ letters (scan pat), t.regex = ∅) ↔
      ∃ cls ∈ classes pat, translatedSet cls.text = some ∅ := by
    refine Iff.trans ?_ (@exists_letters_iff pat
      (fun t => t.translated = some ∅)
      (fun h => Set.univ_nonempty.ne_empty (Option.some.inj h))
      fun c _ h => Set.singleton_ne_empty c (Option.some.inj h))
    refine exists_congr fun t => and_congr_right fun ht => ?_
    exact Token.regex_eq_iff (hRead t ht) ∅
  rw [language_eq_iff, hAlike, hDirect, hTranslated]

/-- The matcher and the translation agree on every name exactly when the
classes do. -/
theorem agrees_iff (pat : Str) : Agrees pat ↔ ClassesAgree pat := by
  have hReadIff : (∀ t ∈ letters (scan pat), t.translated ≠ none) ↔
      ∀ cls ∈ classes pat, translatedSet cls.text ≠ none :=
    @forall_letters_iff pat (fun t => t.translated ≠ none) nofun fun _ _ => nofun
  rw [Agrees, ClassesAgree, ← hReadIff, parse_translate]
  rcases mapM_slotPiece (scan pat) with
    ⟨hNone, t, hMem, ht⟩ | ⟨pieces, hSome, hLanguage, hRead⟩
  · rw [hNone]
    refine iff_of_false ?_ fun h => h.1 t hMem ht
    rintro ⟨pieces, hEq, -⟩
    cases hEq
  · rw [hSome, and_iff_right hRead, ← languages_eq_iff hRead, ← hLanguage]
    constructor
    · rintro ⟨pieces', hEq, hNames⟩
      cases hEq
      ext name
      rw [← fnmatchcase_iff, hNames]
    · intro hEq
      refine ⟨pieces, rfl, fun name => ?_⟩
      rw [fnmatchcase_iff, hEq]

/-- `[z-ab]` -/
def reversedRange : Str := [ch '[', ch 'z', ch '-', ch 'a', ch 'b', ch ']']

/-- A range that goes down takes the rest of its class with it in translation:
`b` matches `[z-ab]`, but not the translation `(?s:(?!))\z`. -/
theorem reversedRange_lost :
    fnmatchcase [ch 'b'] reversedRange = true ∧
      ∃ pieces, parse (translate reversedRange) = some pieces ∧
        [ch 'b'] ∉ regexLanguage pieces := by
  have hClass : classEnd [ch 'z', ch '-', ch 'a', ch 'b', ch ']'] =
      some ([ch 'z', ch '-', ch 'a', ch 'b'], []) := by decide
  have hScan : scan reversedRange =
      [some (.bracket (.ofClassEnd hClass))] := by
    change scan (openBracket :: _) = _
    rw [scan_bracket hClass, scan]
  refine ⟨?_, [.never], ?_, ?_⟩
  · change matchAt (openBracket :: _) _ = true
    rw [matchAt_bracket hClass, matchAt_nil]
    decide
  · rw [parse_translate, hScan]
    rfl
  · intro hMem
    simp [regexLanguage, Piece.language] at hMem

end CloverVM.Stdlib.Fnmatch
