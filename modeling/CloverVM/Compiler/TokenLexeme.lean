import CloverVM.Compiler.Tokenizer
import Mathlib.Tactic.IntervalCases

/-!
# Lexemes

The part of the source that a token stands for, found from the token and its
offset alone: by the functions that the parser calls for words, numbers and
strings, by their spelling for operators and brackets.
-/

namespace CloverVM.Compiler.Tokenizer

open CloverVM.Compiler.TokenPattern

/-- How the text of a token is found again. -/
inductive TokenText where
  | layout
  | spelled (text : String)
  | character
  | openString
  | word
  | int
  | float
  | string
deriving DecidableEq, Repr

/-- Tokens for the structure of lines and blocks have no text of their own. -/
def tokenText : Token → TokenText
  | .endmarker | .newline | .indent | .dedent
  | .errortokenOpenBracketEof => .layout
  | .errortokenInvalidCharacter => .character
  | .errortokenUnterminatedString
  | .errortokenUnterminatedTripleString => .openString
  | .intNumber => .int
  | .floatNumber => .float
  | .string => .string
  | .lpar => .spelled "("
  | .rpar => .spelled ")"
  | .lsqb => .spelled "["
  | .rsqb => .spelled "]"
  | .colon => .spelled ":"
  | .comma => .spelled ","
  | .semi => .spelled ";"
  | .plus => .spelled "+"
  | .minus => .spelled "-"
  | .star => .spelled "*"
  | .slash => .spelled "/"
  | .vbar => .spelled "|"
  | .amper => .spelled "&"
  | .less => .spelled "<"
  | .greater => .spelled ">"
  | .equal => .spelled "="
  | .dot => .spelled "."
  | .percent => .spelled "%"
  | .lbrace => .spelled "\x7b"
  | .rbrace => .spelled "\x7d"
  | .eqequal => .spelled "=="
  | .notequal => .spelled "!="
  | .lessequal => .spelled "<="
  | .greaterequal => .spelled ">="
  | .tilde => .spelled "~"
  | .circumflex => .spelled "^"
  | .leftshift => .spelled "<<"
  | .rightshift => .spelled ">>"
  | .doublestar => .spelled "**"
  | .plusequal => .spelled "+="
  | .minequal => .spelled "-="
  | .starequal => .spelled "*="
  | .slashequal => .spelled "/="
  | .percentequal => .spelled "%="
  | .amperequal => .spelled "&="
  | .vbarequal => .spelled "|="
  | .circumflexequal => .spelled "^="
  | .leftshiftequal => .spelled "<<="
  | .rightshiftequal => .spelled ">>="
  | .doublestarequal => .spelled "**="
  | .doubleslash => .spelled "//"
  | .doubleslashequal => .spelled "//="
  | .at => .spelled "@"
  | .atequal => .spelled "@="
  | .rarrow => .spelled "->"
  | .ellipsis => .spelled "..."
  | .colonequal => .spelled ":="
  | .exclamation => .spelled "!"
  | _ => .word

section Lexeme

variable (re : RegexLibrary) (source : List Char)

/-- The part of the source that a token stands for. -/
def lexeme (t : Token × Nat) : List Char :=
  let view := sourceView source t.2
  match tokenText t.1 with
  | .layout => []
  | .spelled text => view.take text.length
  | .character => view.take 1
  | .openString => view.take (scanStringLiteral re view).length
  | .word => stringForNameToken re source t.2
  | .int => stringForIntNumberToken re source t.2
  | .float => stringForFloatNumberToken re source t.2
  | .string => stringForStringToken re source t.2

end Lexeme

/-! ## Operators -/

/-- A token is spelled as the first characters of a text. -/
def Spelled (r : Token × Nat) (text : List Char) : Prop :=
  1 ≤ r.2 ∧ r.2 ≤ text.length ∧
    tokenText r.1 = .spelled (String.ofList (text.take r.2))

theorem orEqual_spelled {c c2 c3 : Char} {withEqual alone : Token}
    (hEqual : tokenText withEqual = .spelled (String.ofList [c, '=']))
    (hAlone : tokenText alone = .spelled (String.ofList [c])) :
    Spelled (orEqual c2 withEqual alone) [c, c2, c3] := by
  unfold orEqual
  by_cases h : c2 = '='
  · rw [if_pos h, h]
    exact ⟨by simp, by simp, hEqual⟩
  · rw [if_neg h]
    exact ⟨by simp, by simp, hAlone⟩

theorem orDoubled_spelled {c c2 c3 : Char}
    {withEqual doubledEqual doubled alone : Token}
    (hEqual : tokenText withEqual = .spelled (String.ofList [c, '=']))
    (hDoubledEqual :
      tokenText doubledEqual = .spelled (String.ofList [c, c, '=']))
    (hDoubled : tokenText doubled = .spelled (String.ofList [c, c]))
    (hAlone : tokenText alone = .spelled (String.ofList [c])) :
    Spelled (orDoubled c c2 c3 withEqual doubledEqual doubled alone)
      [c, c2, c3] := by
  unfold orDoubled
  by_cases h : c2 = '='
  · rw [if_pos h, h]
    exact ⟨by simp, by simp, hEqual⟩
  · rw [if_neg h]
    by_cases hDouble : c2 = c
    · rw [if_pos hDouble, hDouble]
      by_cases hThird : c3 = '='
      · rw [if_pos hThird, hThird]
        exact ⟨by simp, by simp, hDoubledEqual⟩
      · rw [if_neg hThird]
        exact ⟨by simp, by simp, hDoubled⟩
    · rw [if_neg hDouble]
      exact ⟨by simp, by simp, hAlone⟩

/-- An operator is spelled as the characters at the position. -/
theorem operatorToken_spelled {c c2 c3 : Char} {r : Token × Nat}
    (h : operatorToken c c2 c3 = some r) : Spelled r [c, c2, c3] := by
  unfold operatorToken at h
  split at h
  case h_5 =>
    split_ifs at h with hEqual hArrow
    · obtain rfl := Option.some.inj h
      rw [hEqual]
      exact ⟨by simp, by simp, rfl⟩
    · obtain rfl := Option.some.inj h
      rw [hArrow]
      exact ⟨by simp, by simp, rfl⟩
    · obtain rfl := Option.some.inj h
      exact ⟨by simp, by simp, rfl⟩
  case h_13 =>
    split_ifs at h with hDots
    · obtain rfl := Option.some.inj h
      rw [hDots.1, hDots.2]
      exact ⟨by simp, by simp, rfl⟩
    · obtain rfl := Option.some.inj h
      exact ⟨by simp, by simp, rfl⟩
  case h_19 => exact absurd h (by simp)
  -- the others are one character, or have one of the two forms above
  all_goals
    obtain rfl := Option.some.inj h
    first
    | exact orEqual_spelled rfl rfl
    | exact orDoubled_spelled rfl rfl rfl rfl
    | exact ⟨by simp, by simp, rfl⟩

/-- No operator has the character that stands for the end of the source. -/
theorem spelled_ne_nul {t : Token} {text : String}
    (h : tokenText t = .spelled text) : '\x00' ∉ text.toList := by
  cases t <;>
    first
    | (obtain rfl := TokenText.spelled.inj h
       decide)
    | exact TokenText.noConfusion h

/-! ## Strings -/

theorem scanStringBody_spec (quote : Char) (quoteLen : Nat) (s : List Char) :
    ∀ (i : Nat) (escaped : Bool),
      (scanStringBody quote quoteLen s i escaped).kind ≠ .notString ∧
        i ≤ (scanStringBody quote quoteLen s i escaped).length ∧
        (scanStringBody quote quoteLen s i escaped).length ≤ i + s.length := by
  induction s with
  | nil =>
      intro i escaped
      unfold scanStringBody
      split
      · exact ⟨by simp, Nat.le_refl _, Nat.le_refl _⟩
      · exact ⟨by simp, Nat.le_refl _, Nat.le_refl _⟩
  | cons c rest ih =>
      have hRest : ∀ (i : Nat) (escaped : Bool),
          (scanStringBody quote quoteLen rest (i + 1) escaped).kind ≠
              .notString ∧
            i ≤ (scanStringBody quote quoteLen rest (i + 1) escaped).length ∧
            (scanStringBody quote quoteLen rest (i + 1) escaped).length ≤
              i + (c :: rest).length := by
        intro i escaped
        obtain ⟨hKind, hLe, hLength⟩ := ih (i + 1) escaped
        rw [List.length_cons]
        exact ⟨hKind, by omega, by omega⟩
      intro i escaped
      unfold scanStringBody
      split
      · exact ⟨by simp, Nat.le_refl _, Nat.le_add_right _ _⟩
      · split
        · exact hRest i false
        · split
          · exact hRest i true
          · split
            · split
              · simp
              · split
                · rename_i hQuotes
                  have hTwo : 2 ≤ rest.length := by
                    have hLength := congrArg List.length hQuotes
                    simp only [List.length_take, List.length_cons,
                      List.length_nil] at hLength
                    omega
                  rw [List.length_cons]
                  refine ⟨by simp, ?_, ?_⟩
                  · show i ≤ i + 3
                    omega
                  · show i + 3 ≤ i + (rest.length + 1)
                    omega
                · exact hRest i false
            · exact hRest i false

variable {re : RegexLibrary}

/-- A string, or the part of one that is there, has its opening quote and ends
in the text. -/
theorem scanStringLiteral_length {s : List Char}
    (h : (scanStringLiteral re s).kind ≠ .notString) :
    1 ≤ (scanStringLiteral re s).length ∧
      (scanStringLiteral re s).length ≤ s.length := by
  unfold scanStringLiteral at h ⊢
  split at h
  · exact absurd rfl h
  · rename_i hEmpty
    rw [if_neg hEmpty]
    simp only at h ⊢
    split at h
    · exact absurd rfl h
    · rename_i hPrefix
      rw [if_neg hPrefix]
      have hLength : ((s.drop (re.matched stringPrefixPattern s).length)
          ).length = s.length - (re.matched stringPrefixPattern s).length :=
        List.length_drop
      generalize (re.matched stringPrefixPattern s).length = n at h hLength ⊢
      cases hDrop : s.drop n with
      | nil =>
          rw [hDrop] at h
          exact absurd rfl h
      | cons quote rest =>
          rw [hDrop, List.length_cons] at hLength
          simp only
          rw [hDrop] at h
          simp only at h
          split at h
          · exact absurd rfl h
          · rename_i hQuote
            rw [if_neg hQuote]
            split
            · have hTwo : 2 ≤ rest.length := by
                rename_i hQuotes
                have hTake := congrArg List.length hQuotes
                simp only [List.length_take, List.length_cons,
                  List.length_nil] at hTake
                omega
              obtain ⟨-, hLe, hEnd⟩ :=
                scanStringBody_spec quote 3 (rest.drop 2) (n + 3) false
              rw [List.length_drop] at hEnd
              exact ⟨by omega, by omega⟩
            · obtain ⟨-, hLe, hEnd⟩ :=
                scanStringBody_spec quote 1 rest (n + 1) false
              exact ⟨by omega, by omega⟩

theorem findStringLiteralLength_of_complete {s : List Char}
    (h : (scanStringLiteral re s).kind = .complete) :
    findStringLiteralLength re s = (scanStringLiteral re s).length := by
  unfold findStringLiteralLength
  simp only [h, if_true]

/-! ## One round inside a line -/

/-- The depth of the open brackets after one more token. -/
def bracketDepthAfter (depth : Nat) : Token → Nat
  | .lpar | .lsqb | .lbrace => depth + 1
  | .rpar | .rsqb | .rbrace => depth - 1
  | _ => depth

/-- A bracket is no operator. -/
theorem bracketDepthAfter_operator {c c2 c3 : Char} {r : Token × Nat}
    (h : operatorToken c c2 c3 = some r) (depth : Nat) :
    bracketDepthAfter depth r.1 = depth := by
  unfold operatorToken orEqual orDoubled at h
  split at h <;> (try split_ifs at h) <;>
    first
    | (obtain rfl := Option.some.inj h
       rfl)
    | contradiction

/-- The scanner takes a token at its position and moves past its lexeme. -/
structure Takes (re : RegexLibrary) (source : List Char) (sc sc' : Scanner)
    (token : Token) : Prop where
  tokens : sc'.tokens = sc.tokens ++ [(token, sc.pos)]
  indents : sc'.indents = sc.indents
  bracketDepth : sc'.bracketDepth = bracketDepthAfter sc.bracketDepth token
  state : sc'.state = sc.state
  lexeme_eq : lexeme re source (token, sc.pos) =
    (sourceView source sc.pos).take (sc'.pos - sc.pos)
  lt : sc.pos < sc'.pos
  le : sc'.pos ≤ source.length
  text : tokenText token ≠ .layout
  noFloat : token = .intNumber →
    stringForFloatNumberToken re source sc.pos = []

/-- What a round inside a line does. -/
inductive NormalStep (re : RegexLibrary) (source : List Char)
    (sc : Scanner) : Scanner → Prop where
  | takes {sc' : Scanner} (token : Token)
      (h : Takes re source sc sc' token) : NormalStep re source sc sc'
  | newline (h : isNewline (source.getD sc.pos '\x00') = true) :
      NormalStep re source sc (stepNewline source sc)
  | blank (h : isBlank (source.getD sc.pos '\x00') = true) :
      NormalStep re source sc { sc with pos := sc.pos + 1 }
  | comment (h : source.getD sc.pos '\x00' = '#') :
      NormalStep re source sc
        { sc with
          pos := sc.pos + 1 + ((sourceView source (sc.pos + 1)).takeWhile
            fun c => !isNewline c).length }

variable {source : List Char} {sc : Scanner}

theorem takes_take {token : Token} {n : Nat} (hPos : 1 ≤ n)
    (hLe : sc.pos + n ≤ source.length)
    (hLexeme : lexeme re source (token, sc.pos) =
      (sourceView source sc.pos).take n)
    (hDepth : bracketDepthAfter sc.bracketDepth token = sc.bracketDepth)
    (hText : tokenText token ≠ .layout)
    (hFloat : token = .intNumber →
      stringForFloatNumberToken re source sc.pos = []) :
    Takes re source sc (sc.take token n) token := by
  have hSub : sc.pos + n - sc.pos = n := Nat.add_sub_cancel_left _ _
  refine
    { tokens := rfl, indents := rfl, bracketDepth := hDepth.symm, state := rfl
      lexeme_eq := ?_, lt := ?_, le := hLe, text := hText, noFloat := hFloat }
  · show _ = (sourceView source sc.pos).take (sc.pos + n - sc.pos)
    rw [hSub]
    exact hLexeme
  · show sc.pos < sc.pos + n
    omega

/-- A token whose text is a match of an expression. -/
theorem takes_matched {token : Token} {p : Pattern}
    (hSome : (re.matched p (sourceView source sc.pos)).isEmpty = false)
    (hLexeme : lexeme re source (token, sc.pos) =
      re.matched p (sourceView source sc.pos))
    (hDepth : bracketDepthAfter sc.bracketDepth token = sc.bracketDepth)
    (hText : tokenText token ≠ .layout)
    (hFloat : token = .intNumber →
      stringForFloatNumberToken re source sc.pos = []) :
    Takes re source sc
      (sc.take token (re.matched p (sourceView source sc.pos)).length)
      token := by
  have hLength : (re.matched p (sourceView source sc.pos)).length ≤
      source.length - sc.pos := by
    unfold RegexLibrary.matched sourceView
    rw [List.length_take, List.length_drop]
    exact Nat.min_le_right _ _
  have hPos : 1 ≤ (re.matched p (sourceView source sc.pos)).length := by
    rw [Nat.one_le_iff_ne_zero]
    intro hZero
    rw [List.length_eq_zero_iff] at hZero
    rw [hZero] at hSome
    exact absurd hSome (by simp)
  refine takes_take hPos (by omega) ?_ hDepth hText hFloat
  rw [hLexeme]
  exact List.prefix_iff_eq_take.mp (List.take_prefix _ _)

/-- Characters that are none of the end of the text are in the text. -/
theorem take_eq_of_not_nul {s : List Char} {c3 : Char} {n : Nat}
    (hThree : n ≤ 3) (hThird : 1 < s.length → c3 = s.getD 2 '\x00')
    (hNul : '\x00' ∉ [s.getD 0 '\x00', s.getD 1 '\x00', c3].take n) :
    s.take n = [s.getD 0 '\x00', s.getD 1 '\x00', c3].take n := by
  rcases s with _ | ⟨a, _ | ⟨b, _ | ⟨c, rest⟩⟩⟩ <;> interval_cases n <;>
    simp_all

theorem getD_sourceView (source : List Char) (pos i : Nat) :
    (sourceView source pos).getD i '\x00' = source.getD (pos + i) '\x00' := by
  unfold sourceView
  rw [List.getD_eq_getElem?_getD, List.getD_eq_getElem?_getD,
    List.getElem?_drop]

theorem takes_spelled {token : Token} {ts : List Char}
    (hText : tokenText token = .spelled (String.ofList ts))
    (hPos : 1 ≤ ts.length)
    (hTake : (sourceView source sc.pos).take ts.length = ts)
    (hDepth : bracketDepthAfter sc.bracketDepth token = sc.bracketDepth) :
    Takes re source sc (sc.take token ts.length) token := by
  have hLength := congrArg List.length hTake
  unfold sourceView at hLength
  rw [List.length_take, List.length_drop] at hLength
  refine takes_take hPos (by omega) ?_ hDepth (by rw [hText]; simp) ?_
  · unfold lexeme
    simp only [hText, String.length_ofList]
  · rintro rfl
    exact TokenText.noConfusion hText

theorem takes_operator {c3 : Char} {r : Token × Nat}
    (hThird : sc.pos + 1 < source.length →
      c3 = source.getD (sc.pos + 2) '\x00')
    (h : operatorToken (source.getD sc.pos '\x00')
      (source.getD (sc.pos + 1) '\x00') c3 = some r) :
    Takes re source sc (sc.take r.1 r.2) r.1 := by
  obtain ⟨hPos, hThree, hText⟩ := operatorToken_spelled h
  have hNul := spelled_ne_nul hText
  rw [String.toList_ofList] at hNul
  have hView := @take_eq_of_not_nul (sourceView source sc.pos) c3 r.2 hThree
  rw [getD_sourceView, getD_sourceView, getD_sourceView] at hView
  have hTake := hView (by
    intro hLt
    unfold sourceView at hLt
    rw [List.length_drop] at hLt
    exact hThird (by omega)) hNul
  have hLength : ([source.getD sc.pos '\x00',
      source.getD (sc.pos + 1) '\x00', c3].take r.2).length = r.2 := by
    rw [List.length_take]
    exact Nat.min_eq_left hThree
  have hTakes := @takes_spelled re source sc r.1 _ hText
    (by rw [hLength]; exact hPos) (by rw [hLength]; exact hTake)
    (bracketDepthAfter_operator h _)
  rw [hLength] at hTakes
  exact hTakes

theorem takes_bracket {token : Token} {c : Char} {depth : Nat}
    (hText : tokenText token = .spelled (String.ofList [c]))
    (hLt : sc.pos < source.length)
    (hChar : source.getD sc.pos '\x00' = c)
    (hDepth : bracketDepthAfter sc.bracketDepth token = depth) :
    Takes re source sc { sc.take token 1 with bracketDepth := depth }
      token := by
  have hView : (sourceView source sc.pos).take 1 = [c] := by
    unfold sourceView
    rw [List.drop_eq_getElem_cons hLt, ← hChar,
      List.getD_eq_getElem?_getD, List.getElem?_eq_getElem hLt]
    rfl
  refine
    { tokens := rfl, indents := rfl, bracketDepth := hDepth.symm, state := rfl
      lexeme_eq := ?_, lt := ?_, le := hLt, text := by rw [hText]; simp
      noFloat := ?_ }
  · show _ = (sourceView source sc.pos).take (sc.pos + 1 - sc.pos)
    unfold lexeme
    simp only [hText, String.length_ofList, Nat.add_sub_cancel_left]
    rfl
  · show sc.pos < sc.pos + 1
    omega
  · rintro rfl
    exact TokenText.noConfusion hText

theorem openBracketToken_spec {c : Char} {token : Token}
    (h : openBracketToken c = some token) (depth : Nat) :
    tokenText token = .spelled (String.ofList [c]) ∧
      bracketDepthAfter depth token = depth + 1 := by
  unfold openBracketToken at h
  split at h <;>
    first
    | (obtain rfl := Option.some.inj h
       exact ⟨rfl, rfl⟩)
    | contradiction

theorem closeBracketToken_spec {c : Char} {token : Token}
    (h : closeBracketToken c = some token) (depth : Nat) :
    tokenText token = .spelled (String.ofList [c]) ∧
      bracketDepthAfter depth token = depth - 1 := by
  unfold closeBracketToken at h
  split at h <;>
    first
    | (obtain rfl := Option.some.inj h
       exact ⟨rfl, rfl⟩)
    | contradiction

/-- A word is a name or a keyword. -/
theorem tokenText_tokenOfWord (word : List Char) :
    tokenText (tokenOfWord word) = .word := by
  have hMap : ∀ entries : List (String × Token), ∀ key : String,
      (∀ e ∈ entries, tokenText e.2 = .word) →
      tokenText ((entries.lookup key).getD .name) = .word := by
    intro entries key hAll
    induction entries with
    | nil => rfl
    | cons e entries ih =>
        rw [List.lookup_cons]
        cases key == e.1 with
        | true => exact hAll e List.mem_cons_self
        | false => exact ih fun e' h => hAll e' (List.mem_cons_of_mem _ h)
  exact hMap keywordTokenMap (String.ofList word) (by decide)

/-- Only spelled tokens are brackets. -/
theorem bracketDepthAfter_of_not_spelled {t : Token}
    (h : ∀ text, tokenText t ≠ .spelled text) (depth : Nat) :
    bracketDepthAfter depth t = depth := by
  cases t <;>
    first
    | rfl
    | exact absurd rfl (h _)

theorem stepDefault_takes (hLt : sc.pos < source.length) :
    ∃ token, Takes re source sc (stepDefault re source sc) token := by
  have hView : (sourceView source sc.pos).length = source.length - sc.pos :=
    List.length_drop
  unfold stepDefault
  simp only
  cases hKind : (scanStringLiteral re (sourceView source sc.pos)).kind with
  | complete =>
      have hFind := findStringLiteralLength_of_complete hKind
      obtain ⟨hPos, hLe⟩ :=
        @scanStringLiteral_length re (sourceView source sc.pos)
          (by rw [hKind]; simp)
      refine ⟨.string, takes_take hPos (by omega) ?_ rfl (by decide) nofun⟩
      show stringForStringToken re source sc.pos = _
      unfold stringForStringToken
      simp only [hFind]
      rw [if_pos (by omega)]
  | unterminatedString =>
      obtain ⟨hPos, hLe⟩ :=
        @scanStringLiteral_length re (sourceView source sc.pos)
          (by rw [hKind]; simp)
      simp only [Nat.max_eq_left hPos]
      exact ⟨.errortokenUnterminatedString,
        takes_take hPos (by omega) rfl rfl (by decide) nofun⟩
  | unterminatedTripleString =>
      obtain ⟨hPos, hLe⟩ :=
        @scanStringLiteral_length re (sourceView source sc.pos)
          (by rw [hKind]; simp)
      simp only [Nat.max_eq_left hPos]
      exact ⟨.errortokenUnterminatedTripleString,
        takes_take hPos (by omega) rfl rfl (by decide) nofun⟩
  | notString =>
      simp only
      split
      · rename_i hFloat
        exact ⟨.floatNumber,
          takes_matched (by rwa [Bool.not_eq_true'] at hFloat) rfl rfl
            (by decide) nofun⟩
      · rename_i hNoFloat
        split
        · rename_i hInt
          refine ⟨.intNumber,
            takes_matched (by rwa [Bool.not_eq_true'] at hInt) rfl rfl
              (by decide) ?_⟩
          intro _
          rw [Bool.not_eq_true, Bool.not_eq_false'] at hNoFloat
          exact List.isEmpty_iff.mp hNoFloat
        · split
          · rename_i hWord
            have hText := tokenText_tokenOfWord
              (stringForNameToken re source sc.pos)
            refine ⟨tokenOfWord (stringForNameToken re source sc.pos),
              takes_matched (by rwa [Bool.not_eq_true'] at hWord) ?_ ?_ ?_ ?_⟩
            · unfold lexeme
              simp only [hText]
              rfl
            · refine bracketDepthAfter_of_not_spelled ?_ _
              rw [hText]
              simp
            · rw [hText]
              simp
            · intro hInt
              rw [hInt] at hText
              exact TokenText.noConfusion hText
          · exact ⟨.errortokenInvalidCharacter,
              takes_take (Nat.le_refl 1) hLt rfl rfl (by decide) nofun⟩

/-! ## Numbers that start with a dot -/

theorem mem_digits {c : Char} (h : '0' ≤ c ∧ c ≤ '9') :
    c ∈ "0123456789".toList := by
  have hLow : 48 ≤ c.toNat := h.1
  have hHigh : c.toNat ≤ 57 := h.2
  have hChar : c = Char.ofNat c.toNat := (Char.ofNat_toNat c).symm
  rw [hChar]
  generalize c.toNat = n at hLow hHigh
  interval_cases n <;> decide

theorem float_matches_dot_digit {c : Char} (h : '0' ≤ c ∧ c ≤ '9') :
    ['.', c] ∈ floatNumberPattern.matches' := by
  rw [← RegularExpression.rmatch_iff_matches']
  have hAll : ("0123456789".toList.all fun d =>
      floatNumberPattern.rmatch ['.', d]) = true := by decide
  exact List.all_eq_true.mp hAll c (mem_digits h)

theorem float_not_matches_nil : [] ∉ floatNumberPattern.matches' := by
  rw [← RegularExpression.rmatch_iff_matches']
  decide

/-- A dot before a digit starts a number. -/
theorem float_of_dot (hRe : re.Lawful)
    (hDot : source.getD sc.pos '\x00' = '.')
    (hDigit : '0' ≤ source.getD (sc.pos + 1) '\x00' ∧
      source.getD (sc.pos + 1) '\x00' ≤ '9') :
    (re.matched floatNumberPattern
      (sourceView source sc.pos)).isEmpty = false := by
  let view := sourceView source sc.pos
  have hNe : source.getD (sc.pos + 1) '\x00' ≠ '\x00' := by
    intro hNul
    rw [hNul] at hDigit
    exact absurd hDigit (by decide)
  have hTake : view.take 2 = ['.', source.getD (sc.pos + 1) '\x00'] := by
    have hView := @take_eq_of_not_nul view (view.getD 2 '\x00') 2 (by decide)
      fun _ => rfl
    rw [getD_sourceView, getD_sourceView, Nat.add_zero, hDot] at hView
    refine hView ?_
    simp only [List.take_succ_cons, List.take_zero, List.mem_cons,
      List.not_mem_nil, or_false, not_or]
    exact ⟨by decide, hNe.symm⟩
  have hLength : 2 ≤ view.length := by
    have hTakeLength := congrArg List.length hTake
    rw [List.length_take] at hTakeLength
    have hTwo : min 2 view.length = 2 := hTakeLength
    omega
  cases hSearch : re.search floatNumberPattern view with
  | none =>
      have hNot := hRe.notFound _ _ hSearch 2 hLength
      rw [hTake] at hNot
      exact absurd (float_matches_dot_digit hDigit) hNot
  | some n =>
      obtain ⟨-, hMatch⟩ := hRe.found _ _ n hSearch
      unfold RegexLibrary.matched
      rw [hSearch, Option.getD_some, List.isEmpty_eq_false_iff]
      intro hNil
      rw [hNil] at hMatch
      exact float_not_matches_nil hMatch

/-- One round inside a line takes a token, ends the line, or skips a blank or
a comment. -/
theorem stepNormal_cases (hRe : re.Lawful) (hLt : sc.pos < source.length)
    (hSize : source.length < uint32Count) :
    NormalStep re source sc (stepNormal re source sc) := by
  unfold stepNormal
  simp only
  split
  · rename_i token hOpen
    obtain ⟨hText, hDepth⟩ := openBracketToken_spec hOpen sc.bracketDepth
    exact .takes token (takes_bracket hText hLt rfl hDepth)
  · split
    · rename_i token hClose
      obtain ⟨hText, hDepth⟩ := closeBracketToken_spec hClose sc.bracketDepth
      exact .takes token (takes_bracket hText hLt rfl hDepth)
    · split
      · rename_i r hOperator
        refine .takes r.1 (takes_operator ?_ hOperator)
        intro hNext
        rw [Nat.mod_eq_of_lt (by omega)]
      · rename_i hNone
        split
        · rename_i hDot
          refine .takes .floatNumber
            (takes_matched (float_of_dot hRe hDot ?_) rfl rfl (by decide)
              nofun)
          rw [hDot] at hNone
          unfold operatorToken at hNone
          simp only at hNone
          split at hNone
          · contradiction
          · split at hNone
            · assumption
            · contradiction
        · split
          · exact .newline (by assumption)
          · split
            · exact .blank (by assumption)
            · split
              · exact .comment (by assumption)
              · obtain ⟨token, hTakes⟩ := stepDefault_takes hLt
                exact .takes token hTakes

end CloverVM.Compiler.Tokenizer
