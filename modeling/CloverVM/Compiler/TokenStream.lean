import CloverVM.Compiler.TokenLexeme
import Mathlib.Data.List.Chain
import Mathlib.Data.List.TakeWhile

/-!
# Token streams

What the tokens taken so far have in common, whatever the source: they stand
in order, cover every character that is no blank, newline or comment, open and
close blocks in balance and end lines only outside brackets.  Each round of the
scanner keeps this, and the parser relies on it.
-/

namespace CloverVM.Compiler.Tokenizer

open CloverVM.Compiler.TokenPattern

def indentsIn (tokens : TokenVector) : Nat :=
  tokens.countP fun t => t.1 = .indent

def dedentsIn (tokens : TokenVector) : Nat :=
  tokens.countP fun t => t.1 = .dedent

/-- The brackets that are open after the tokens. -/
def openBrackets (tokens : TokenVector) : Nat :=
  tokens.foldl (fun depth t => bracketDepthAfter depth t.1) 0

/-- Two newlines do not follow each other. -/
def NotBothNewlines (a b : Token × Nat) : Prop :=
  ¬ (a.1 = .newline ∧ b.1 = .newline)

variable (re : RegexLibrary) (source : List Char)

/-- A position belongs to the lexeme of a token. -/
def Covers (t : Token × Nat) (p : Nat) : Prop :=
  t.2 ≤ p ∧ p < t.2 + (lexeme re source t).length

/-- A hash that belongs to no token, with no newline since. -/
def InComment (tokens : TokenVector) (p : Nat) : Prop :=
  ∃ q, q ≤ p ∧ source.getD q '\x00' = '#' ∧
    (∀ i, q ≤ i → i ≤ p → isNewline (source.getD i '\x00') = false) ∧
    ∀ t ∈ tokens, ¬ Covers re source t q

/-- A position outside the lexemes. -/
def Skipped (tokens : TokenVector) (p : Nat) : Prop :=
  isBlank (source.getD p '\x00') = true ∨
    isNewline (source.getD p '\x00') = true ∨ InComment re source tokens p

/-- The tokens of the source up to a position. -/
structure Stream (tokens : TokenVector) (pos : Nat) : Prop where
  balanced : ∀ before, before <+: tokens → dedentsIn before ≤ indentsIn before
  newlines : ∀ before offset, before ++ [(.newline, offset)] <+: tokens →
    openBrackets before = 0
  newlineOnce : tokens.IsChain NotBothNewlines
  ordered : tokens.Pairwise fun a b =>
    a.2 + (lexeme re source a).length ≤ b.2
  ends : ∀ t ∈ tokens, t.2 + (lexeme re source t).length ≤ pos
  covered : ∀ p, p < pos → Skipped re source tokens p ∨
    ∃ t ∈ tokens, Covers re source t p

variable {re source} {tokens : TokenVector} {pos : Nat}

@[simp] theorem indentsIn_append (tokens : TokenVector) (t : Token × Nat) :
    indentsIn (tokens ++ [t]) =
      indentsIn tokens + if t.1 = .indent then 1 else 0 := by
  unfold indentsIn
  rw [List.countP_append, List.countP_singleton]
  simp

@[simp] theorem dedentsIn_append (tokens : TokenVector) (t : Token × Nat) :
    dedentsIn (tokens ++ [t]) =
      dedentsIn tokens + if t.1 = .dedent then 1 else 0 := by
  unfold dedentsIn
  rw [List.countP_append, List.countP_singleton]
  simp

@[simp] theorem openBrackets_append (tokens : TokenVector) (t : Token × Nat) :
    openBrackets (tokens ++ [t]) =
      bracketDepthAfter (openBrackets tokens) t.1 := by
  unfold openBrackets
  rw [List.foldl_append]
  rfl

theorem stream_nil : Stream re source [] 0 := by
  refine
    { balanced := ?_, newlines := ?_, newlineOnce := .nil, ordered := .nil
      ends := nofun, covered := nofun }
  · intro before hBefore
    rw [List.prefix_nil] at hBefore
    rw [hBefore]
    exact Nat.le_refl _
  · intro before offset hBefore
    rw [List.prefix_nil] at hBefore
    exact absurd hBefore (by simp)

/-! ## A token more -/

/-- A later token does not cover the hash of a comment. -/
theorem Skipped.append (h : ∀ t ∈ tokens, t.2 + (lexeme re source t).length ≤ pos)
    {p : Nat} (hp : p < pos) (hSkipped : Skipped re source tokens p)
    (token : Token) : Skipped re source (tokens ++ [(token, pos)]) p := by
  rcases hSkipped with hBlank | hNewline | ⟨q, hq, hHash, hLine, hNone⟩
  · exact Or.inl hBlank
  · exact Or.inr (Or.inl hNewline)
  · refine Or.inr (Or.inr ⟨q, hq, hHash, hLine, ?_⟩)
    intro t ht hCovers
    rcases List.mem_append.mp ht with hOld | hNew
    · exact hNone t hOld hCovers
    · obtain rfl := List.mem_singleton.mp hNew
      have hLe : pos ≤ q := hCovers.1
      omega

theorem Stream.append (h : Stream re source tokens pos) {token : Token}
    {pos' : Nat}
    (hPos : pos' = pos + (lexeme re source (token, pos)).length)
    (hNewline : token = .newline → openBrackets tokens = 0 ∧
      ∀ t ∈ tokens.getLast?, t.1 ≠ .newline)
    (hDedent : token = .dedent → dedentsIn tokens < indentsIn tokens) :
    Stream re source (tokens ++ [(token, pos)]) pos' := by
  refine
    { balanced := ?_, newlines := ?_, newlineOnce := ?_, ordered := ?_
      ends := ?_, covered := ?_ }
  · intro before hBefore
    rcases List.prefix_concat_iff.mp hBefore with rfl | hOld
    · have hAll := h.balanced tokens (List.prefix_refl _)
      rw [indentsIn_append, dedentsIn_append]
      by_cases hToken : token = .dedent
      · have hLt := hDedent hToken
        rw [if_pos hToken]
        omega
      · rw [if_neg hToken]
        omega
    · exact h.balanced before hOld
  · intro before offset hBefore
    rcases List.prefix_concat_iff.mp hBefore with hSame | hOld
    · obtain ⟨rfl, hLast⟩ := List.append_inj' hSame rfl
      have hToken : Token.newline = token :=
        congrArg Prod.fst (List.singleton_inj.mp hLast)
      exact (hNewline hToken.symm).1
    · exact h.newlines before offset hOld
  · rw [List.isChain_append]
    refine ⟨h.newlineOnce, .singleton _, ?_⟩
    intro last hLast first hFirst
    obtain rfl := Option.some.inj hFirst
    rintro ⟨hBoth, hToken⟩
    exact (hNewline hToken).2 last hLast hBoth
  · rw [List.pairwise_append]
    refine ⟨h.ordered, List.pairwise_singleton _ _, ?_⟩
    intro a ha b hb
    obtain rfl := List.mem_singleton.mp hb
    exact h.ends a ha
  · intro t ht
    rcases List.mem_append.mp ht with hOld | hNew
    · have hOldEnds := h.ends t hOld
      omega
    · obtain rfl := List.mem_singleton.mp hNew
      exact Nat.le_of_eq hPos.symm
  · intro p hp
    by_cases hOld : p < pos
    · rcases h.covered p hOld with hSkipped | ⟨t, ht, hCovers⟩
      · exact Or.inl (hSkipped.append h.ends hOld token)
      · exact Or.inr ⟨t, List.mem_append_left _ ht, hCovers⟩
    · refine Or.inr ⟨(token, pos), List.mem_append_right _
        (List.mem_singleton_self _), ?_, ?_⟩
      · exact Nat.le_of_not_lt hOld
      · show p < pos + _
        omega

/-- A token without text of its own leaves the position. -/
theorem Stream.appendLayout (h : Stream re source tokens pos) {token : Token}
    (hText : tokenText token = .layout)
    (hNewline : token = .newline → openBrackets tokens = 0 ∧
      ∀ t ∈ tokens.getLast?, t.1 ≠ .newline)
    (hDedent : token = .dedent → dedentsIn tokens < indentsIn tokens) :
    Stream re source (tokens ++ [(token, pos)]) pos := by
  refine h.append ?_ hNewline hDedent
  unfold lexeme
  simp only [hText]
  rfl

/-- Characters that are skipped belong to no token. -/
theorem Stream.skip (h : Stream re source tokens pos) {pos' : Nat}
    (hLe : pos ≤ pos')
    (hSkipped : ∀ p, pos ≤ p → p < pos' → Skipped re source tokens p) :
    Stream re source tokens pos' := by
  refine { h with ends := ?_, covered := ?_ }
  · intro t ht
    exact Nat.le_trans (h.ends t ht) hLe
  · intro p hp
    by_cases hOld : p < pos
    · exact h.covered p hOld
    · exact Or.inl (hSkipped p (Nat.le_of_not_lt hOld) hp)

/-- Lexemes in order do not overlap. -/
theorem Stream.once (h : Stream re source tokens pos) (p i j : Nat)
    (a b : Token × Nat) (ha : tokens[i]? = some a) (hb : tokens[j]? = some b)
    (hCovers : Covers re source a p) (hCovers' : Covers re source b p) :
    i = j := by
  have hApart : ∀ {i j : Nat} {a b : Token × Nat}, tokens[i]? = some a →
      tokens[j]? = some b → Covers re source a p → Covers re source b p →
      ¬ i < j := by
    intro i j a b ha hb hCovers hCovers' hLt
    obtain ⟨hi, rfl⟩ := List.getElem?_eq_some_iff.mp ha
    obtain ⟨hj, rfl⟩ := List.getElem?_eq_some_iff.mp hb
    have hOrder := List.pairwise_iff_getElem.mp h.ordered i j hi hj hLt
    have hEnd := hCovers.2
    have hStart := hCovers'.1
    omega
  have hNot := hApart ha hb hCovers hCovers'
  have hNot' := hApart hb ha hCovers' hCovers
  omega

/-! ## The scanner -/

/-- The invariant of the loop. -/
structure Scanned (re : RegexLibrary) (source : List Char) (sc : Scanner) :
    Prop where
  stream : Stream re source sc.tokens sc.pos
  pos_le : sc.pos ≤ source.length
  indents_pos : 0 < sc.indents.length
  blocks : indentsIn sc.tokens + 1 = dedentsIn sc.tokens + sc.indents.length
  depth : sc.bracketDepth = openBrackets sc.tokens
  noEndmarker : ∀ t ∈ sc.tokens, t.1 ≠ .endmarker

theorem scanned_start : Scanned re source {} :=
  { stream := stream_nil, pos_le := Nat.zero_le _, indents_pos := by decide
    blocks := rfl, depth := rfl, noEndmarker := nofun }

/-- The rounds that may be left: each moves on or leaves the start of the
line. -/
def measure (source : List Char) (sc : Scanner) : Nat :=
  2 * (source.length - sc.pos) + if sc.state = .startLine then 1 else 0

variable {sc sc' : Scanner}

theorem noEndmarker_append {offset : Nat} {token : Token}
    (h : ∀ t ∈ tokens, t.1 ≠ .endmarker) (hToken : token ≠ .endmarker) :
    ∀ t ∈ tokens ++ [(token, offset)], t.1 ≠ .endmarker := by
  intro t ht
  rcases List.mem_append.mp ht with hOld | hNew
  · exact h t hOld
  · obtain rfl := List.mem_singleton.mp hNew
    exact hToken

theorem Takes.scanned {token : Token} (h : Scanned re source sc)
    (hTakes : Takes re source sc sc' token) : Scanned re source sc' := by
  have hLength : (lexeme re source (token, sc.pos)).length =
      sc'.pos - sc.pos := by
    have hView : (sourceView source sc.pos).length = source.length - sc.pos :=
      List.length_drop
    have hLe := hTakes.le
    rw [hTakes.lexeme_eq, List.length_take]
    omega
  have hLt := hTakes.lt
  have hNotLayout : ∀ t, tokenText t = .layout → token ≠ t := by
    rintro t ht rfl
    exact hTakes.text ht
  have hNewline := hNotLayout .newline rfl
  have hIndent := hNotLayout .indent rfl
  have hDedent := hNotLayout .dedent rfl
  refine
    { stream := ?_, pos_le := hTakes.le, indents_pos := ?_, blocks := ?_
      depth := ?_, noEndmarker := ?_ }
  · rw [hTakes.tokens]
    exact h.stream.append (by omega) (fun hToken => absurd hToken hNewline)
      (fun hToken => absurd hToken hDedent)
  · rw [hTakes.indents]
    exact h.indents_pos
  · rw [hTakes.tokens, hTakes.indents, indentsIn_append, dedentsIn_append,
      if_neg hIndent, if_neg hDedent]
    exact h.blocks
  · rw [hTakes.tokens, hTakes.bracketDepth, openBrackets_append, h.depth]
  · rw [hTakes.tokens]
    exact noEndmarker_append h.noEndmarker (hNotLayout .endmarker rfl)

/-- The characters of a run are in the source and of its kind. -/
theorem getD_of_lt_takeWhile {f : Char → Bool} {p : Nat} (hPos : pos ≤ p)
    (h : p < pos + ((sourceView source pos).takeWhile f).length) :
    f (source.getD p '\x00') = true ∧ p < source.length := by
  have hPrefix := List.takeWhile_prefix (l := sourceView source pos) f
  have hIndex : p - pos < ((sourceView source pos).takeWhile f).length := by
    omega
  have hIndex' : p - pos < (sourceView source pos).length :=
    Nat.lt_of_lt_of_le hIndex hPrefix.length_le
  have hMem := List.getElem_mem hIndex
  have hHolds := List.mem_takeWhile_imp hMem
  rw [hPrefix.getElem hIndex] at hHolds
  unfold sourceView at hHolds hIndex'
  rw [List.length_drop] at hIndex'
  rw [List.getElem_drop] at hHolds
  have hSum : pos + (p - pos) = p := by omega
  simp only [hSum] at hHolds
  refine ⟨?_, by omega⟩
  rw [List.getD_eq_getElem?_getD, List.getElem?_eq_getElem (by omega)]
  exact hHolds

theorem takeWhile_length_le (f : Char → Bool) (pos : Nat) :
    ((sourceView source pos).takeWhile f).length ≤ source.length - pos := by
  have hLe := (List.takeWhile_prefix (l := sourceView source pos) f).length_le
  unfold sourceView at hLe ⊢
  rw [List.length_drop] at hLe
  exact hLe

theorem measureIndentation_count (s : List Char) :
    ∀ column, (measureIndentation s column).2 =
      (s.takeWhile isBlank).length := by
  induction s with
  | nil => intro column; rfl
  | cons c rest ih =>
      intro column
      unfold measureIndentation
      by_cases hSpace : c = ' '
      · subst hSpace
        rw [if_pos rfl]
        exact congrArg (· + 1) (ih _)
      · rw [if_neg hSpace]
        by_cases hTab : c = '\t'
        · subst hTab
          rw [if_pos rfl]
          exact congrArg (· + 1) (ih _)
        · rw [if_neg hTab]
          by_cases hFeed : c = '\x0c'
          · subst hFeed
            rw [if_pos rfl]
            exact congrArg (· + 1) (ih _)
          · rw [if_neg hFeed, List.takeWhile_cons_of_neg]
            · rfl
            · simp [isBlank, hSpace, hTab, hFeed]

/-! ## The end of a line -/

theorem Scanner.not_newline (hAfter : ¬ sc.afterNewline = true) :
    ∀ t ∈ sc.tokens.getLast?, t.1 ≠ .newline := by
  intro t ht hToken
  refine hAfter ?_
  unfold Scanner.afterNewline
  rw [Option.mem_def.mp ht]
  exact decide_eq_true hToken

theorem stepNewline_scanned (h : Scanned re source sc)
    (hLt : sc.pos < source.length)
    (hNewline : isNewline (source.getD sc.pos '\x00') = true)
    (hState : sc.state = .normal) :
    Scanned re source (stepNewline source sc) ∧
      measure source (stepNewline source sc) < measure source sc := by
  have hCount : 1 ≤ newlines (sourceView source sc.pos) := by
    unfold newlines sourceView
    rw [List.drop_eq_getElem_cons hLt, List.takeWhile_cons_of_pos]
    · simp
    · rw [List.getD_eq_getElem?_getD, List.getElem?_eq_getElem hLt] at hNewline
      exact hNewline
  have hLe := @takeWhile_length_le source isNewline sc.pos
  have hLe' : newlines (sourceView source sc.pos) ≤
      source.length - sc.pos := hLe
  have hSkip : ∀ tokens p, sc.pos ≤ p →
      p < sc.pos + newlines (sourceView source sc.pos) →
      Skipped re source tokens p := by
    intro tokens p hp hEnd
    exact Or.inr (Or.inl (getD_of_lt_takeWhile hp hEnd).1)
  unfold stepNewline
  by_cases hInside : 0 < sc.bracketDepth
  · simp only [if_pos hInside]
    refine ⟨{ h with stream := ?_, pos_le := ?_ }, ?_⟩
    · exact h.stream.skip (Nat.le_add_right _ _) (hSkip sc.tokens)
    · show sc.pos + newlines (sourceView source sc.pos) ≤ source.length
      omega
    · unfold measure
      simp only
      omega
  · simp only [if_neg hInside]
    have hDepth : openBrackets sc.tokens = 0 := by
      rw [← h.depth]
      omega
    have hMeasure : ∀ tokens : TokenVector,
        measure source { sc with
          tokens := tokens
          pos := sc.pos + newlines (sourceView source sc.pos)
          state := .startLine } < measure source sc := by
      intro tokens
      unfold measure
      rw [if_pos rfl, if_neg (by rw [hState]; decide)]
      simp only
      omega
    by_cases hAfter : sc.afterNewline = true
    · simp only [if_pos hAfter]
      refine ⟨{ h with stream := ?_, pos_le := ?_ }, hMeasure sc.tokens⟩
      · exact h.stream.skip (Nat.le_add_right _ _) (hSkip sc.tokens)
      · show sc.pos + newlines (sourceView source sc.pos) ≤ source.length
        omega
    · simp only [if_neg hAfter]
      have hLast := Scanner.not_newline hAfter
      have hStream := h.stream.appendLayout
        (rfl : tokenText .newline = .layout) (fun _ => ⟨hDepth, hLast⟩) nofun
      refine ⟨
        { stream := ?_, pos_le := ?_, indents_pos := h.indents_pos
          blocks := ?_, depth := ?_
          noEndmarker := noEndmarker_append h.noEndmarker nofun },
        hMeasure _⟩
      · exact hStream.skip (Nat.le_add_right _ _) (hSkip _)
      · show sc.pos + newlines (sourceView source sc.pos) ≤ source.length
        omega
      · show indentsIn (sc.tokens ++ [(.newline, sc.pos)]) + 1 = _
        rw [indentsIn_append]
        show _ = dedentsIn (sc.tokens ++ [(.newline, sc.pos)]) + _
        rw [dedentsIn_append]
        exact h.blocks
      · show sc.bracketDepth = openBrackets (sc.tokens ++ [(.newline, sc.pos)])
        rw [openBrackets_append]
        exact h.depth

/-! ## The start of a line -/

/-- Closing blocks that are open. -/
theorem Stream.appendDedents (k : Nat) :
    ∀ {tokens : TokenVector}, Stream re source tokens pos →
      dedentsIn tokens + k ≤ indentsIn tokens →
      Stream re source (tokens ++ List.replicate k (.dedent, pos)) pos ∧
        indentsIn (tokens ++ List.replicate k (.dedent, pos)) =
          indentsIn tokens ∧
        dedentsIn (tokens ++ List.replicate k (.dedent, pos)) =
          dedentsIn tokens + k ∧
        openBrackets (tokens ++ List.replicate k (.dedent, pos)) =
          openBrackets tokens := by
  induction k with
  | zero =>
      intro tokens h _
      rw [List.replicate_zero, List.append_nil]
      exact ⟨h, rfl, rfl, rfl⟩
  | succ k ih =>
      intro tokens h hOpen
      have hOne := h.appendLayout (rfl : tokenText .dedent = .layout) nofun
        (fun _ => by omega)
      have hIndents : indentsIn (tokens ++ [(.dedent, pos)]) =
          indentsIn tokens := by
        rw [indentsIn_append]
        rfl
      have hDedents : dedentsIn (tokens ++ [(.dedent, pos)]) =
          dedentsIn tokens + 1 := by
        rw [dedentsIn_append]
        rfl
      have hBrackets : openBrackets (tokens ++ [(.dedent, pos)]) =
          openBrackets tokens := by
        rw [openBrackets_append]
        rfl
      obtain ⟨hStream, hIn, hOut, hDepth⟩ := ih hOne (by omega)
      rw [List.replicate_succ, List.append_cons]
      exact ⟨hStream, hIn.trans hIndents, by omega, hDepth.trans hBrackets⟩

/-- The blocks that are closed are deeper than one that stays. -/
theorem closeBlocks_spec {column offset : Nat} (indents : List Nat) :
    ∀ tokens, column ∈ indents →
      ∃ k, (closeBlocks column offset indents tokens).2 =
          tokens ++ List.replicate k (.dedent, offset) ∧
        (closeBlocks column offset indents tokens).1.length + k =
          indents.length ∧
        0 < (closeBlocks column offset indents tokens).1.length := by
  induction indents with
  | nil => intro tokens h; exact absurd h List.not_mem_nil
  | cons indent below ih =>
      intro tokens h
      unfold closeBlocks
      by_cases hLt : column < indent
      · have hBelow : column ∈ below := by
          rcases List.mem_cons.mp h with hSame | hBelow
          · omega
          · exact hBelow
        obtain ⟨k, hTokens, hLength, hPos⟩ :=
          ih (tokens ++ [(.dedent, offset)]) hBelow
        rw [if_pos hLt]
        refine ⟨k + 1, ?_, ?_, hPos⟩
        · rw [hTokens, List.append_assoc]
          rfl
        · rw [List.length_cons]
          omega
      · rw [if_neg hLt]
        exact ⟨0, by simp, rfl, Nat.succ_pos _⟩

theorem openBlock_scanned (h : Scanned re source sc) (column : Nat) :
    Scanned re source (openBlock column sc) ∧
      (openBlock column sc).pos = sc.pos ∧
      (openBlock column sc).state = sc.state := by
  unfold openBlock
  split
  · refine ⟨
      { stream := ?_, pos_le := h.pos_le, indents_pos := ?_, blocks := ?_
        depth := ?_
        noEndmarker := noEndmarker_append h.noEndmarker nofun }, rfl, rfl⟩
    · exact h.stream.appendLayout (rfl : tokenText .indent = .layout) nofun
        nofun
    · show 0 < sc.indents.length + 1
      omega
    · have hBlocks := h.blocks
      show indentsIn (sc.tokens ++ [(.indent, sc.pos)]) + 1 =
        dedentsIn (sc.tokens ++ [(.indent, sc.pos)]) + (sc.indents.length + 1)
      rw [indentsIn_append, dedentsIn_append, if_pos rfl, if_neg nofun]
      omega
    · show sc.bracketDepth = openBrackets (sc.tokens ++ [(.indent, sc.pos)])
      rw [openBrackets_append]
      exact h.depth
  · exact ⟨h, rfl, rfl⟩

theorem dedentTo_scanned (h : Scanned re source sc) {column : Nat}
    (hDedent : dedentTo column sc = .ok sc') :
    Scanned re source sc' ∧ sc'.pos = sc.pos := by
  unfold dedentTo at hDedent
  split at hDedent
  · split at hDedent
    · rename_i hMem
      obtain rfl := Except.ok.inj hDedent
      obtain ⟨k, hTokens, hLength, hPos⟩ :=
        @closeBlocks_spec column sc.pos sc.indents sc.tokens hMem
      have hBlocks := h.blocks
      obtain ⟨hStream, hIndents, hDedents, hDepth⟩ :=
        h.stream.appendDedents k (by omega)
      rw [← hTokens] at hStream hIndents hDedents hDepth
      refine ⟨
        { stream := hStream, pos_le := h.pos_le, indents_pos := hPos
          blocks := ?_, depth := h.depth.trans hDepth.symm
          noEndmarker := ?_ }, rfl⟩
      · show indentsIn _ + 1 = dedentsIn _ + _
        rw [hIndents, hDedents]
        simp only
        omega
      · intro t ht
        have ht' : t ∈ sc.tokens ++ List.replicate k (.dedent, sc.pos) := by
          rw [← hTokens]
          exact ht
        rcases List.mem_append.mp ht' with hOld | hNew
        · exact h.noEndmarker t hOld
        · rw [List.eq_of_mem_replicate hNew]
          exact nofun
    · exact absurd hDedent nofun
  · obtain rfl := Except.ok.inj hDedent
    exact ⟨h, rfl⟩

theorem stepStartLine_scanned (h : Scanned re source sc)
    (hLt : sc.pos < source.length) (hState : sc.state = .startLine)
    (hStep : stepStartLine source sc = .ok sc') :
    Scanned re source sc' ∧ measure source sc' < measure source sc := by
  let r := measureIndentation (sourceView source sc.pos) 0
  let start : Scanner := { sc with pos := sc.pos + r.2 }
  have hCount : r.2 = ((sourceView source sc.pos).takeWhile isBlank).length :=
    measureIndentation_count _ _
  have hRun : sc.pos + r.2 ≤ source.length := by
    have hLe := @takeWhile_length_le source isBlank sc.pos
    omega
  have hStart : Scanned re source start := by
    refine { h with stream := ?_, pos_le := hRun }
    refine h.stream.skip (Nat.le_add_right _ _) ?_
    intro p hp hEnd
    have hEnd' : p < sc.pos + r.2 := hEnd
    rw [hCount] at hEnd'
    exact Or.inl (getD_of_lt_takeWhile hp hEnd').1
  have hNormal : ∀ {sc₁ : Scanner}, sc₁.pos = start.pos →
      measure source { sc₁ with state := .normal } < measure source sc := by
    intro sc₁ hPos
    have hPos' : sc₁.pos = sc.pos + r.2 := hPos
    unfold measure
    rw [if_neg (show ¬ ScannerState.normal = .startLine from nofun),
      if_pos hState]
    simp only [hPos']
    omega
  unfold stepStartLine at hStep
  cases hView : sourceView source (sc.pos + r.2) with
  | nil =>
      have hEnd : sc.pos + r.2 = source.length := by
        have hLength := congrArg List.length hView
        unfold sourceView at hLength
        rw [List.length_drop, List.length_nil] at hLength
        omega
      simp only [r] at hView
      simp only [hView] at hStep
      obtain rfl := Except.ok.inj hStep
      refine ⟨hStart, ?_⟩
      unfold measure
      rw [if_pos hState]
      show 2 * (source.length - (sc.pos + r.2)) + 1 < _
      omega
  | cons c rest =>
      simp only [r] at hView
      simp only [hView] at hStep
      split at hStep
      · obtain rfl := Except.ok.inj hStep
        exact ⟨{ hStart with }, hNormal rfl⟩
      · obtain ⟨hOpened, hPos, -⟩ := openBlock_scanned hStart r.1
        cases hDedent : dedentTo r.1 (openBlock r.1 start) with
        | error e =>
            simp only [r, start] at hDedent
            simp only [hDedent] at hStep
            exact absurd hStep nofun
        | ok sc₁ =>
            obtain ⟨hScanned, hPos'⟩ := dedentTo_scanned hOpened hDedent
            simp only [r, start] at hDedent
            simp only [hDedent] at hStep
            obtain rfl := Except.ok.inj hStep
            exact ⟨{ hScanned with }, hNormal (hPos'.trans hPos)⟩

/-! ## One round -/

theorem stepNormal_scanned (hRe : re.Lawful) (h : Scanned re source sc)
    (hLt : sc.pos < source.length) (hSize : source.length < uint32Count)
    (hState : sc.state = .normal) :
    Scanned re source (stepNormal re source sc) ∧
      measure source (stepNormal re source sc) < measure source sc := by
  have hCases := stepNormal_cases hRe hLt hSize
  generalize stepNormal re source sc = next at hCases ⊢
  cases hCases with
  | takes token hTakes =>
      refine ⟨hTakes.scanned h, ?_⟩
      have hPos := hTakes.lt
      have hLe := hTakes.le
      unfold measure
      rw [hTakes.state]
      omega
  | newline hNewline => exact stepNewline_scanned h hLt hNewline hState
  | blank hBlank =>
      refine ⟨{ h with stream := ?_, pos_le := hLt }, ?_⟩
      · refine h.stream.skip (Nat.le_succ _) ?_
        intro p hp hEnd
        obtain rfl : p = sc.pos := by
          have hEnd' : p < sc.pos + 1 := hEnd
          omega
        exact Or.inl hBlank
      · unfold measure
        simp only
        omega
  | comment hHash =>
      let n := ((sourceView source (sc.pos + 1)).takeWhile
        fun c => !isNewline c).length
      have hCount : n ≤ source.length - (sc.pos + 1) :=
        takeWhile_length_le (fun c => !isNewline c) (sc.pos + 1)
      refine ⟨{ h with stream := ?_, pos_le := ?_ }, ?_⟩
      · refine h.stream.skip ?_ ?_
        · show sc.pos ≤ sc.pos + 1 + n
          omega
        · intro p hp hEnd
          refine Or.inr (Or.inr ⟨sc.pos, hp, hHash, ?_, ?_⟩)
          · intro i hi hip
            by_cases hFirst : i = sc.pos
            · rw [hFirst, hHash]
              rfl
            · have hEnd' : p < sc.pos + 1 + n := hEnd
              obtain ⟨hNot, -⟩ := @getD_of_lt_takeWhile source (sc.pos + 1)
                (fun c => !isNewline c) i (by omega)
                (Nat.lt_of_le_of_lt hip hEnd')
              simpa using hNot
          · intro t ht hCovers
            have hEnds := h.stream.ends t ht
            have hIn := hCovers.2
            omega
      · show sc.pos + 1 + n ≤ source.length
        omega
      · unfold measure
        show 2 * (source.length - (sc.pos + 1 + n)) + _ < _
        simp only
        omega

/-- One round keeps the invariant and gets nearer to the end. -/
theorem step_scanned (hRe : re.Lawful) (h : Scanned re source sc)
    (hLt : sc.pos < source.length) (hSize : source.length < uint32Count)
    (hStep : step re source sc = .ok sc') :
    Scanned re source sc' ∧ measure source sc' < measure source sc := by
  unfold step at hStep
  cases hState : sc.state with
  | startLine =>
      rw [hState] at hStep
      exact stepStartLine_scanned h hLt hState hStep
  | normal =>
      rw [hState] at hStep
      obtain rfl := Except.ok.inj hStep
      exact stepNormal_scanned hRe h hLt hSize hState

end CloverVM.Compiler.Tokenizer
