import CloverVM.Compiler.TokenStream

/-!
# What the tokenizer returns

The loop ends for every source, within two rounds for each character, and the
tokens it leaves are a well-formed stream.
-/

namespace CloverVM.Compiler.Tokenizer

open CloverVM.Compiler.TokenPattern

/-- The scanner after some rounds. -/
inductive Reachable (re : RegexLibrary) (source : List Char) :
    Scanner → Prop where
  | start : Reachable re source {}
  | step {sc sc' : Scanner} : Reachable re source sc →
      sc.pos < source.length → step re source sc = .ok sc' →
      Reachable re source sc'

/-- A word, a number or a string is found again from its offset, exactly as
far as the scanner skipped. -/
structure FoundAgain (re : RegexLibrary) (source : List Char)
    (t : Token × Nat) (skipped : List Char) : Prop where
  name : t.1 = .name → stringForNameToken re source t.2 = skipped
  int : t.1 = .intNumber → stringForIntNumberToken re source t.2 = skipped
  float : t.1 = .floatNumber →
    stringForFloatNumberToken re source t.2 = skipped
  number : t.1 = .intNumber ∨ t.1 = .floatNumber →
    stringForNumberToken re source t.2 = skipped
  string : t.1 = .string → stringForStringToken re source t.2 = skipped

/-- The round of the scanner that took a token, with what it skipped. -/
def TakenWhole (re : RegexLibrary) (source : List Char)
    (t : Token × Nat) : Prop :=
  ∃ sc sc', Reachable re source sc ∧ sc.pos < source.length ∧
    step re source sc = .ok sc' ∧
    sc'.tokens = sc.tokens ++ [t] ∧ sc.pos = t.2 ∧
    FoundAgain re source t ((sourceView source sc.pos).take (sc'.pos - sc.pos))

structure WellFormed (re : RegexLibrary) (source : List Char)
    (tokens : TokenVector) : Prop where
  ordered : tokens.Pairwise fun a b => a.2 ≤ b.2
  endmarker : ∃ before, tokens = before ++ [(.endmarker, source.length)] ∧
    ∀ t ∈ before, t.1 ≠ .endmarker
  balanced : ∀ before, before <+: tokens → dedentsIn before ≤ indentsIn before
  total : dedentsIn tokens = indentsIn tokens
  newlines : ∀ before offset, before ++ [(.newline, offset)] <+: tokens →
    openBrackets before = 0
  newlineOnce : tokens.IsChain NotBothNewlines
  covered : ∀ p, p < source.length → Skipped re source tokens p ∨
    ∃ t ∈ tokens, Covers re source t p
  once : ∀ (p i j : Nat) (a b : Token × Nat), tokens[i]? = some a →
    tokens[j]? = some b → Covers re source a p → Covers re source b p → i = j
  takenWhole : ∀ t ∈ tokens, tokenText t.1 ≠ .layout →
    TakenWhole re source t

/-- `update_indentation_level`, none when its assertion fails. -/
def updateIndentationLevel (level : Nat) : Token → Option Nat
  | .indent => some (level + 1)
  | .dedent => if 0 < level then some (level - 1) else none
  | _ => some level

variable {re : RegexLibrary} {source : List Char} {tokens : TokenVector}

/-- Reading a well-formed stream, the parser's indentation level is the number
of blocks that are open. -/
theorem WellFormed.levels (h : WellFormed re source tokens)
    (before : TokenVector) (hBefore : before <+: tokens) :
    before.foldlM (fun level t => updateIndentationLevel level t.1) 0 =
      some (indentsIn before - dedentsIn before) := by
  induction before using List.reverseRecOn with
  | nil => rfl
  | append_singleton before t ih =>
      have hPrefix : before <+: tokens :=
        (List.prefix_append before [t]).trans hBefore
      have hBalanced := h.balanced _ hBefore
      have hBalanced' := h.balanced _ hPrefix
      rw [indentsIn_append, dedentsIn_append] at hBalanced ⊢
      rw [List.foldlM_append, ih hPrefix, Option.bind_eq_bind,
        Option.bind_some, List.foldlM_cons]
      simp only [List.foldlM_nil, bind_pure]
      obtain ⟨token, offset⟩ := t
      show updateIndentationLevel _ token = _
      by_cases hIndent : token = .indent
      · subst hIndent
        show some (_ + 1) = some _
        rw [if_pos rfl, if_neg nofun]
        congr 1
        omega
      · by_cases hDedent : token = .dedent
        · subst hDedent
          simp only [if_neg hIndent, if_true] at hBalanced ⊢
          unfold updateIndentationLevel
          simp only
          rw [if_pos (by omega)]
          congr 1
        · rw [if_neg hIndent, if_neg hDedent]
          unfold updateIndentationLevel
          split
          · exact absurd rfl hIndent
          · exact absurd rfl hDedent
          · rfl

/-! ## Rounds -/

/-- Only tokens of lines and blocks were added. -/
def AddsLayout (before after : TokenVector) : Prop :=
  ∃ added, after = before ++ added ∧
    ∀ t ∈ added, tokenText t.1 = .layout

theorem AddsLayout.refl (tokens : TokenVector) : AddsLayout tokens tokens :=
  ⟨[], (List.append_nil _).symm, nofun⟩

theorem AddsLayout.trans {before between after : TokenVector}
    (h : AddsLayout before between) (h' : AddsLayout between after) :
    AddsLayout before after := by
  obtain ⟨added, rfl, hAdded⟩ := h
  obtain ⟨added', rfl, hAdded'⟩ := h'
  refine ⟨added ++ added', List.append_assoc _ _ _, ?_⟩
  intro t ht
  rcases List.mem_append.mp ht with hOld | hNew
  · exact hAdded t hOld
  · exact hAdded' t hNew

theorem AddsLayout.single {token : Token} (offset : Nat)
    (h : tokenText token = .layout) :
    AddsLayout tokens (tokens ++ [(token, offset)]) := by
  refine ⟨_, rfl, ?_⟩
  intro t ht
  obtain rfl := List.mem_singleton.mp ht
  exact h

variable {sc sc' : Scanner}

theorem dedentTo_addsLayout {column : Nat}
    (h : dedentTo column sc = .ok sc') : AddsLayout sc.tokens sc'.tokens := by
  unfold dedentTo at h
  split at h
  · split at h
    · rename_i hMem
      obtain rfl := Except.ok.inj h
      obtain ⟨k, hTokens, -, -⟩ :=
        @closeBlocks_spec column sc.pos sc.indents sc.tokens hMem
      refine ⟨_, hTokens, ?_⟩
      intro t ht
      rw [List.eq_of_mem_replicate ht]
      rfl
    · exact absurd h nofun
  · obtain rfl := Except.ok.inj h
    exact .refl _

theorem stepStartLine_addsLayout (h : stepStartLine source sc = .ok sc') :
    AddsLayout sc.tokens sc'.tokens := by
  unfold stepStartLine at h
  simp only at h
  split at h
  · obtain rfl := Except.ok.inj h
    exact .refl _
  · split at h
    · obtain rfl := Except.ok.inj h
      exact .refl _
    · generalize hStart : ({ sc with pos := sc.pos + (measureIndentation
        (sourceView source sc.pos) 0).2 } : Scanner) = start at h
      have hTokens : start.tokens = sc.tokens := by
        rw [← hStart]
      have hOpen : AddsLayout start.tokens (openBlock (measureIndentation
          (sourceView source sc.pos) 0).1 start).tokens := by
        unfold openBlock
        split
        · exact .single _ rfl
        · exact .refl _
      rw [hTokens] at hOpen
      cases hDedent : dedentTo (measureIndentation
          (sourceView source sc.pos) 0).1 (openBlock (measureIndentation
          (sourceView source sc.pos) 0).1 start) with
      | error e =>
          rw [hDedent] at h
          exact absurd h nofun
      | ok sc₁ =>
          rw [hDedent] at h
          have hClose := dedentTo_addsLayout hDedent
          obtain rfl := Except.ok.inj h
          exact hOpen.trans hClose

/-- A round takes one token of text, or none. -/
theorem step_takes (hRe : re.Lawful) (hLt : sc.pos < source.length)
    (hSize : source.length < uint32Count)
    (hStep : step re source sc = .ok sc') :
    (∃ token, Takes re source sc sc' token) ∨
      AddsLayout sc.tokens sc'.tokens := by
  unfold step at hStep
  cases hState : sc.state with
  | startLine =>
      rw [hState] at hStep
      exact Or.inr (stepStartLine_addsLayout hStep)
  | normal =>
      rw [hState] at hStep
      obtain rfl := Except.ok.inj hStep
      have hCases := stepNormal_cases hRe hLt hSize
      generalize stepNormal re source sc = next at hCases ⊢
      cases hCases with
      | takes token hTakes => exact Or.inl ⟨token, hTakes⟩
      | newline _ =>
          right
          unfold stepNewline
          split
          · exact .refl _
          · show AddsLayout sc.tokens
              (if sc.afterNewline = true then sc
                else sc.emplaceBack .newline sc.pos).tokens
            split
            · exact .refl _
            · exact .single _ rfl
      | blank _ => exact Or.inr (.refl _)
      | comment _ => exact Or.inr (.refl _)

theorem Takes.foundAgain {token : Token} (h : Takes re source sc sc' token)
    (hLt : sc.pos < source.length) :
    FoundAgain re source (token, sc.pos)
      ((sourceView source sc.pos).take (sc'.pos - sc.pos)) := by
  have hEq := h.lexeme_eq
  refine { name := ?_, int := ?_, float := ?_, number := ?_, string := ?_ }
  · rintro rfl
    exact hEq
  · rintro rfl
    exact hEq
  · rintro rfl
    exact hEq
  · rintro (rfl | rfl)
    · show stringForNumberToken re source sc.pos = _
      unfold stringForNumberToken
      rw [h.noFloat rfl]
      exact hEq
    · show stringForNumberToken re source sc.pos = _
      unfold stringForNumberToken
      have hFloat : stringForFloatNumberToken re source sc.pos = _ := hEq
      have hSome : (stringForFloatNumberToken re source sc.pos).isEmpty =
          false := by
        have hPos := h.lt
        rw [hFloat, List.isEmpty_eq_false_iff, ← List.length_pos_iff,
          List.length_take]
        unfold sourceView
        rw [List.length_drop]
        omega
      simp only [hSome]
      exact hEq
  · rintro rfl
    exact hEq

theorem Reachable.scanned (hRe : re.Lawful)
    (hSize : source.length < uint32Count) (h : Reachable re source sc) :
    Scanned re source sc := by
  induction h with
  | start => exact scanned_start
  | step _ hLt hStep ih => exact (step_scanned hRe ih hLt hSize hStep).1

theorem Reachable.takenWhole (hRe : re.Lawful)
    (hSize : source.length < uint32Count) (h : Reachable re source sc) :
    ∀ t ∈ sc.tokens, tokenText t.1 ≠ .layout → TakenWhole re source t := by
  induction h with
  | start => exact nofun
  | @step sc sc' hReachable hLt hStep ih =>
      intro t ht hText
      rcases step_takes hRe hLt hSize hStep with
        ⟨token, hTakes⟩ | ⟨added, hTokens, hAdded⟩
      · rw [hTakes.tokens] at ht
        rcases List.mem_append.mp ht with hOld | hNew
        · exact ih t hOld hText
        · obtain rfl := List.mem_singleton.mp hNew
          exact ⟨sc, sc', hReachable, hLt, hStep, hTakes.tokens, rfl,
            hTakes.foundAgain hLt⟩
      · rw [hTokens] at ht
        rcases List.mem_append.mp ht with hOld | hNew
        · exact ih t hOld hText
        · exact absurd (hAdded t hNew) hText

/-- The loop ends in a state that it has reached, at the end of the source. -/
theorem loop_ends (hRe : re.Lawful) (hSize : source.length < uint32Count)
    (rounds : Nat) :
    ∀ {sc : Scanner}, Reachable re source sc → measure source sc ≤ rounds →
      ∃ r, loop re source rounds sc = some r ∧
        ∀ sc', r = .ok sc' → Reachable re source sc' ∧
          sc'.pos = source.length := by
  have hEnd : ∀ {sc : Scanner}, Reachable re source sc →
      ¬ sc.pos < source.length →
      ∀ sc', (Except.ok sc : Except SyntaxError Scanner) = .ok sc' →
        Reachable re source sc' ∧ sc'.pos = source.length := by
    intro sc h hNot sc' hr
    obtain rfl := Except.ok.inj hr
    have hLe := (h.scanned hRe hSize).pos_le
    exact ⟨h, by omega⟩
  induction rounds with
  | zero =>
      intro sc h hMeasure
      have hNot : ¬ sc.pos < source.length := by
        unfold measure at hMeasure
        omega
      unfold loop
      rw [if_neg hNot]
      exact ⟨_, rfl, hEnd h hNot⟩
  | succ rounds ih =>
      intro sc h hMeasure
      unfold loop
      by_cases hLt : sc.pos < source.length
      · rw [if_pos hLt]
        cases hStep : step re source sc with
        | error e => exact ⟨.error e, rfl, nofun⟩
        | ok sc' =>
            have hLess :=
              (step_scanned hRe (h.scanned hRe hSize) hLt hSize hStep).2
            exact ih (.step h hLt hStep) (by omega)
      · rw [if_neg hLt]
        exact ⟨_, rfl, hEnd h hLt⟩

/-- More rounds leave the result as it is. -/
theorem loop_mono {r : Except SyntaxError Scanner} (rounds : Nat) :
    ∀ {more : Nat} {sc : Scanner}, rounds ≤ more →
      loop re source rounds sc = some r → loop re source more sc = some r := by
  induction rounds with
  | zero =>
      intro more sc _ h
      unfold loop at h
      split at h
      · exact absurd h nofun
      · rename_i hNot
        cases more with
        | zero => unfold loop; rw [if_neg hNot]; exact h
        | succ more => unfold loop; rw [if_neg hNot]; exact h
  | succ rounds ih =>
      intro more sc hLe h
      obtain ⟨more, rfl⟩ : ∃ k, more = k + 1 := ⟨more - 1, by omega⟩
      unfold loop at h ⊢
      split
      · rename_i hLt
        rw [if_pos hLt] at h
        cases hStep : step re source sc with
        | error e =>
            rw [hStep] at h
            exact h
        | ok sc' =>
            rw [hStep] at h
            exact ih (by omega) h
      · rename_i hNot
        rw [if_neg hNot] at h
        exact h

/-! ## The result -/

/-- What follows the loop closes the last line, the open blocks and the
stream. -/
theorem finish_wellFormed (hRe : re.Lawful)
    (hSize : source.length < uint32Count) (h : Reachable re source sc)
    (hEnd : sc.pos = source.length) :
    WellFormed re source (finish source sc) := by
  have hScanned := h.scanned hRe hSize
  have hStream := hScanned.stream
  have hBlocks := hScanned.blocks
  have hTaken := h.takenWhole hRe hSize
  rw [hEnd] at hStream
  -- the tokens after the loop, with the end of the last line
  obtain ⟨lines, hLines, hAdds, hStream₁, hIndents₁, hDedents₁, hNoEnd₁⟩ :
      ∃ lines : TokenVector,
        finish source sc = lines ++ List.replicate (sc.indents.length - 1)
          (.dedent, source.length) ++ [(.endmarker, source.length)] ∧
        AddsLayout sc.tokens lines ∧ Stream re source lines source.length ∧
        indentsIn lines = indentsIn sc.tokens ∧
        dedentsIn lines = dedentsIn sc.tokens ∧
        ∀ t ∈ lines, t.1 ≠ .endmarker := by
    unfold finish
    by_cases hOpen : 0 < sc.bracketDepth
    · simp only [if_pos hOpen]
      refine ⟨_, rfl, .single _ rfl, ?_, ?_, ?_, ?_⟩
      · exact hStream.appendLayout
          (rfl : tokenText .errortokenOpenBracketEof = .layout) nofun nofun
      · exact indentsIn_append _ _
      · exact dedentsIn_append _ _
      · exact noEndmarker_append hScanned.noEndmarker nofun
    · simp only [if_neg hOpen]
      by_cases hAfter : sc.afterNewline = true
      · simp only [if_pos hAfter]
        exact ⟨_, rfl, .refl _, hStream, rfl, rfl, hScanned.noEndmarker⟩
      · simp only [if_neg hAfter]
        refine ⟨_, rfl, .single _ rfl, ?_, ?_, ?_, ?_⟩
        · refine hStream.appendLayout
            (rfl : tokenText .newline = .layout) ?_ nofun
          intro _
          refine ⟨?_, Scanner.not_newline hAfter⟩
          rw [← hScanned.depth]
          omega
        · exact indentsIn_append _ _
        · exact dedentsIn_append _ _
        · exact noEndmarker_append hScanned.noEndmarker nofun
  have hIndentsPos := hScanned.indents_pos
  obtain ⟨hStream₂, hIndents₂, hDedents₂, -⟩ :=
    hStream₁.appendDedents (sc.indents.length - 1) (by omega)
  have hStream₃ := hStream₂.appendLayout
    (rfl : tokenText .endmarker = .layout) nofun nofun
  have hAll : AddsLayout sc.tokens (finish source sc) := by
    refine hAdds.trans ⟨List.replicate (sc.indents.length - 1)
      (.dedent, source.length) ++ [(.endmarker, source.length)], ?_, ?_⟩
    · rw [hLines, List.append_assoc]
    · intro t ht
      rcases List.mem_append.mp ht with hDedent | hEndmarker
      · rw [List.eq_of_mem_replicate hDedent]
        rfl
      · obtain rfl := List.mem_singleton.mp hEndmarker
        rfl
  rw [← hLines] at hStream₃
  refine
    { ordered := ?_, endmarker := ⟨_, hLines, ?_⟩
      balanced := hStream₃.balanced, total := ?_
      newlines := hStream₃.newlines, newlineOnce := hStream₃.newlineOnce
      covered := hStream₃.covered, once := ?_, takenWhole := ?_ }
  · refine hStream₃.ordered.imp ?_
    intro a b hab
    omega
  · intro t ht
    rcases List.mem_append.mp ht with hOld | hDedent
    · exact hNoEnd₁ t hOld
    · rw [List.eq_of_mem_replicate hDedent]
      exact nofun
  · rw [hLines, indentsIn_append, dedentsIn_append, if_neg nofun,
      if_neg nofun]
    omega
  · exact hStream₃.once
  · intro t ht hText
    obtain ⟨added, hTokens, hAdded⟩ := hAll
    rw [hTokens] at ht
    rcases List.mem_append.mp ht with hOld | hNew
    · exact hTaken t hOld hText
    · exact absurd (hAdded t hNew) hText

/-- The tokenizer ends, with an error or with a well-formed stream. -/
theorem tokenize_wellFormed (re : RegexLibrary) (hRe : re.Lawful)
    (source : List Char) :
    ∃ r, (∀ rounds, 2 * source.length + 1 ≤ rounds →
        tokenize re source rounds = some r) ∧
      ((∃ e, r = .error e) ∨
        ∃ tokens, r = .ok tokens ∧ WellFormed re source tokens) := by
  by_cases hLarge : uint32Count ≤ source.length
  · refine ⟨.error ⟨"SyntaxError", "source file too large"⟩, ?_,
      Or.inl ⟨_, rfl⟩⟩
    intro rounds _
    unfold tokenize
    rw [if_pos hLarge]
  · have hSize : source.length < uint32Count := Nat.lt_of_not_le hLarge
    have hMeasure : measure source {} ≤ 2 * source.length + 1 := by
      unfold measure
      rw [if_pos rfl]
      exact Nat.le_refl _
    obtain ⟨r, hLoop, hEnds⟩ := loop_ends hRe hSize _ .start hMeasure
    refine ⟨r.map (finish source), ?_, ?_⟩
    · intro rounds hRounds
      unfold tokenize
      rw [if_neg hLarge, loop_mono _ hRounds hLoop]
      rfl
    · cases r with
      | error e => exact Or.inl ⟨e, rfl⟩
      | ok sc =>
          obtain ⟨hReachable, hEnd⟩ := hEnds sc rfl
          exact Or.inr ⟨_, rfl,
            finish_wellFormed hRe hSize hReachable hEnd⟩

/-- The parser can follow the blocks of every source that the tokenizer takes,
and has none open at the end. -/
theorem tokenize_levels (hRe : re.Lawful) {rounds : Nat}
    (h : tokenize re source rounds = some (.ok tokens)) :
    (∀ before, before <+: tokens →
      before.foldlM (fun level t => updateIndentationLevel level t.1) 0 =
        some (indentsIn before - dedentsIn before)) ∧
    tokens.foldlM (fun level t => updateIndentationLevel level t.1) 0 =
      some 0 := by
  have hWellFormed : WellFormed re source tokens := by
    unfold tokenize at h
    split at h
    · cases h
    · rename_i hSize
      obtain ⟨r, hLoop, hResult⟩ := Option.map_eq_some_iff.mp h
      obtain ⟨r', hLoop', hEnds⟩ := loop_ends hRe (Nat.lt_of_not_le hSize)
        (max rounds (measure source {})) .start (le_max_right ..)
      rw [loop_mono _ (le_max_left ..) hLoop] at hLoop'
      cases hLoop'
      cases r with
      | error e => cases hResult
      | ok sc =>
          cases hResult
          obtain ⟨hReachable, hEnd⟩ := hEnds sc rfl
          exact finish_wellFormed hRe (Nat.lt_of_not_le hSize) hReachable hEnd
  refine ⟨hWellFormed.levels, ?_⟩
  rw [hWellFormed.levels _ (List.prefix_refl _), hWellFormed.total,
    Nat.sub_self]

/-- The longest prefix in the language of an expression. -/
def longestMatch (p : Pattern) (s : List Char) : Option Nat :=
  (List.range (s.length + 1)).reverse.find? fun n => p.rmatch (s.take n)

/-- A library that takes the longest match, with the word characters of
ASCII. -/
def longestLibrary : RegexLibrary :=
  { search := longestMatch
    wordCharacter := oneOf
      "ABCDEFGHIJKLMNOPQRSTUVWXYZabcdefghijklmnopqrstuvwxyz0123456789_" }

theorem longestLibrary_lawful : longestLibrary.Lawful := by
  refine { found := ?_, notFound := ?_ }
  · intro p s n h
    have hMem := List.mem_of_find?_eq_some h
    have hMatch := List.find?_some h
    rw [List.mem_reverse, List.mem_range] at hMem
    exact ⟨Nat.le_of_lt_succ hMem,
      (RegularExpression.rmatch_iff_matches' _ _).mp hMatch⟩
  · intro p s h n hLe hMatch
    have hNone := List.find?_eq_none.mp h n (by
      rw [List.mem_reverse, List.mem_range]
      omega)
    exact hNone ((RegularExpression.rmatch_iff_matches' _ _).mpr hMatch)

theorem tokenize_levels_sample :
    [(Token.name, 0), (.colon, 1), (.newline, 2), (.indent, 4), (.name, 4),
      (.newline, 5), (.dedent, 5), (.endmarker, 5)].foldlM
        (fun level t => updateIndentationLevel level t.1) 0 = some 0 :=
  (@tokenize_levels longestLibrary "x:\n y".toList _ longestLibrary_lawful 11
    (by decide +kernel)).2

theorem tokenize_wellFormed_sample :
    ∃ r, (∀ rounds, 2 * "x = [0xff,\n .5]\n".toList.length + 1 ≤ rounds →
        tokenize longestLibrary "x = [0xff,\n .5]\n".toList rounds =
          some r) ∧
      ((∃ e, r = .error e) ∨ ∃ tokens, r = .ok tokens ∧
        WellFormed longestLibrary "x = [0xff,\n .5]\n".toList tokens) :=
  tokenize_wellFormed longestLibrary longestLibrary_lawful _

end CloverVM.Compiler.Tokenizer
