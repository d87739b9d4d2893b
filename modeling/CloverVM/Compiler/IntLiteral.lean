import CloverVM.BuiltinTypes.IntTextRoundTrip
import CloverVM.Compiler.TokenizerWellFormed

/-!
# Integer literals

What the parser's atom rule makes of an integer token.  The rule finds the
text of the token again and hands it to the parser of `int.cpp`, which reads
decimal digits.  The pattern of the tokenizer also accepts a base prefix; the
text behind a prefix is no decimal integer, and the rule raises.
-/

namespace CloverVM.Compiler.IntLiteral

open CloverVM.BuiltinTypes.BigInt CloverVM.Compiler.TokenPattern
open CloverVM.Compiler.Tokenizer CloverVM.Machine
open CloverVM.Machine.NumeralText CloverVM.Runtime

/-- The node of a literal: the position of its token, and its value. -/
structure NumberLiteral where
  sourcePos : Nat
  value : IntValue
deriving DecidableEq, Repr

/-- The rule for an integer token at an offset. -/
def atomIntNumber (re : RegexLibrary) (isSpace : Char → Bool)
    (source : List Char) (offset : Nat) :
    Option (Except BuiltinException NumberLiteral) := do
  let token := stringForIntNumberToken re source offset
  match ← parseIntStringView isSpace token with
  | .error e => some (.error e)
  | .ok v => some (.ok { sourcePos := offset, value := v })

/-- The integer of a literal in the language: its digits behind a prefix, in
the base of the prefix, and else in base ten. -/
def pythonInteger : List Char → Nat
  | zero :: letter :: digits =>
      if zero = '0' ∧ letter ∈ "xX".toList then numeral 16 digits 0
      else if zero = '0' ∧ letter ∈ "bB".toList then numeral 2 digits 0
      else if zero = '0' ∧ letter ∈ "oO".toList then numeral 8 digits 0
      else numeral 10 (zero :: letter :: digits) 0
  | text => numeral 10 text 0

/-- A letter that marks a base. -/
def isBaseLetter (c : Char) : Bool := decide (c ∈ "xXbBoO".toList)

/-- A zero and the letter of a base at the front of the text. -/
def BasePrefixed (text : List Char) : Prop :=
  ∃ letter digits, text = '0' :: letter :: digits ∧
    isBaseLetter letter = true

/-! ## The language of the pattern -/

theorem mem_oneOf_iff {cs : String} {s : List Char} :
    s ∈ (oneOf cs).matches' ↔ ∃ c ∈ cs.toList, s = [c] := by
  rw [oneOf]
  induction cs.toList with
  | nil =>
      constructor
      · exact fun h => absurd h (Language.notMem_zero s)
      · rintro ⟨c, hc, -⟩
        exact absurd hc List.not_mem_nil
  | cons d ds ih =>
      have hSingle : s ∈ ({[d]} : Language Char) ↔ s = [d] := Iff.rfl
      rw [List.map_cons, List.foldr_cons, RegularExpression.matches'_add,
        Language.mem_add, ih, RegularExpression.matches'_char, hSingle]
      simp

/-- A digit after at most one underscore. -/
theorem mem_opt_underscore_iff {ds : String} {s : List Char} :
    s ∈ (opt (oneOf "_") * oneOf ds).matches' ↔
      ∃ c ∈ ds.toList, s = [c] ∨ s = ['_', c] := by
  rw [RegularExpression.matches'_mul, Language.mem_mul]
  simp only [opt, RegularExpression.matches'_add,
    RegularExpression.matches'_epsilon, Language.mem_add, Language.mem_one,
    mem_oneOf_iff]
  constructor
  · rintro ⟨front, hFront, back, ⟨c, hc, rfl⟩, rfl⟩
    refine ⟨c, hc, ?_⟩
    rcases hFront with rfl | ⟨d, hd, rfl⟩
    · exact Or.inl rfl
    · exact Or.inr (by rw [List.eq_of_mem_singleton hd]; rfl)
  · rintro ⟨c, hc, rfl | rfl⟩
    · exact ⟨[], Or.inl rfl, [c], ⟨c, hc, rfl⟩, rfl⟩
    · exact ⟨['_'], Or.inr ⟨'_', List.mem_singleton_self _, rfl⟩, [c],
        ⟨c, hc, rfl⟩, rfl⟩

/-- The class of the digits of a string. -/
def digitOf (ds : String) (c : Char) : Bool := decide (c ∈ ds.toList)

theorem mem_digitsAfter_iff {ds : String} {s : List Char} :
    s ∈ (digitsAfter (oneOf ds)).matches' ↔ AfterDigit (digitOf ds) s := by
  rw [digitsAfter, RegularExpression.matches'_star, Language.mem_kstar]
  constructor
  · rintro ⟨parts, rfl, hParts⟩
    induction parts with
    | nil => exact .nil
    | cons part parts ih =>
        have hRest := ih fun t ht => hParts t (List.mem_cons_of_mem _ ht)
        obtain ⟨c, hc, rfl | rfl⟩ :=
          mem_opt_underscore_iff.mp (hParts part List.mem_cons_self)
        · exact .digit (decide_eq_true hc) hRest
        · exact .underscore (decide_eq_true hc) hRest
  · intro h
    induction h with
    | nil => exact ⟨[], rfl, fun t ht => absurd ht List.not_mem_nil⟩
    | @digit c s hDigit _ ih =>
        obtain ⟨parts, rfl, hParts⟩ := ih
        refine ⟨[c] :: parts, rfl, ?_⟩
        intro t ht
        rcases List.mem_cons.mp ht with rfl | hMem
        · exact mem_opt_underscore_iff.mpr
            ⟨c, of_decide_eq_true hDigit, Or.inl rfl⟩
        · exact hParts t hMem
    | @underscore c s hDigit _ ih =>
        obtain ⟨parts, rfl, hParts⟩ := ih
        refine ⟨['_', c] :: parts, rfl, ?_⟩
        intro t ht
        rcases List.mem_cons.mp ht with rfl | hMem
        · exact mem_opt_underscore_iff.mpr
            ⟨c, of_decide_eq_true hDigit, Or.inr rfl⟩
        · exact hParts t hMem

/-- A character of a class and a text of a pattern behind it. -/
theorem mem_oneOf_mul_iff {cs : String} {p : Pattern} {s : List Char} :
    s ∈ (oneOf cs * p).matches' ↔
      ∃ c ∈ cs.toList, ∃ t ∈ p.matches', s = c :: t := by
  rw [RegularExpression.matches'_mul, Language.mem_mul]
  simp only [mem_oneOf_iff]
  constructor
  · rintro ⟨front, ⟨c, hc, rfl⟩, t, ht, rfl⟩
    exact ⟨c, hc, t, ht, rfl⟩
  · rintro ⟨c, hc, t, ht, rfl⟩
    exact ⟨[c], ⟨c, hc, rfl⟩, t, ht, rfl⟩

/-- A digit of a class and the digits after it are a decimal numeral. -/
theorem digitRun_of_mem {cs ds : String} {s : List Char}
    (hFirst : cs.toList.all isAsciiDigit = true)
    (hDigits : ds.toList.all isAsciiDigit = true)
    (h : s ∈ (oneOf cs * digitsAfter (oneOf ds)).matches') :
    DigitRun isAsciiDigit s := by
  obtain ⟨c, hc, t, ht, rfl⟩ := mem_oneOf_mul_iff.mp h
  refine digitRun_cons_iff.mpr ⟨List.all_eq_true.mp hFirst c hc, ?_⟩
  refine (mem_digitsAfter_iff.mp ht).mono fun d hd => ?_
  exact List.all_eq_true.mp hDigits d (of_decide_eq_true hd)

/-- A prefix of the pattern at the front of a lexeme. -/
theorem basePrefixed_of_mem {letters : String} {p : Pattern} {s : List Char}
    (hLetters : letters.toList.all isBaseLetter = true)
    (h : s ∈ (oneOf "0" * oneOf letters * p).matches') : BasePrefixed s := by
  rw [RegularExpression.matches'_mul, Language.mem_mul] at h
  obtain ⟨front, hFront, digits, -, rfl⟩ := h
  obtain ⟨zero, hZero, t, ht, rfl⟩ := mem_oneOf_mul_iff.mp hFront
  obtain ⟨letter, hLetter, rfl⟩ := mem_oneOf_iff.mp ht
  rw [List.eq_of_mem_singleton hZero]
  exact ⟨letter, digits, rfl, List.all_eq_true.mp hLetters letter hLetter⟩

/-- A lexeme has a base prefix or is a decimal numeral. -/
theorem intNumberPattern_cases {s : List Char}
    (h : s ∈ intNumberPattern.matches') :
    BasePrefixed s ∨ DigitRun isAsciiDigit s := by
  simp only [intNumberPattern, RegularExpression.matches'_add,
    Language.mem_add] at h
  rcases h with ((hHex | hBinary) | hOctal) | hZeros | hDecimal
  · exact Or.inl (basePrefixed_of_mem (by decide) hHex)
  · exact Or.inl (basePrefixed_of_mem (by decide) hBinary)
  · exact Or.inl (basePrefixed_of_mem (by decide) hOctal)
  · exact Or.inr (digitRun_of_mem (by decide) (by decide) hZeros)
  · exact Or.inr (digitRun_of_mem (by decide) (by decide) hDecimal)

theorem isBaseLetter_spec {c : Char} (h : isBaseLetter c = true) :
    c.isAlpha = true ∧ isAsciiDigit c = false ∧ c ∉ ['+', '-', '_'] := by
  have hAll : ("xXbBoO".toList.all fun c => decide (c.isAlpha = true ∧
      isAsciiDigit c = false ∧ c ∉ ['+', '-', '_'])) = true := by decide
  exact of_decide_eq_true
    (List.all_eq_true.mp hAll c (of_decide_eq_true h))

theorem not_basePrefixed {s : List Char} (h : DigitRun isAsciiDigit s) :
    ¬ BasePrefixed s := by
  rintro ⟨letter, digits, rfl, hLetter⟩
  obtain ⟨-, hNoDigit, hNoSign⟩ := isBaseLetter_spec hLetter
  rcases h.forall_mem letter (by simp) with hDigit | rfl
  · exact absurd (hNoDigit.symm.trans hDigit) (by decide)
  · exact hNoSign (by simp)

/-- A decimal numeral denotes its number in base ten. -/
theorem pythonInteger_of_digitRun {s : List Char}
    (h : DigitRun isAsciiDigit s) : pythonInteger s = numeral 10 s 0 := by
  have hPrefix := not_basePrefixed h
  unfold pythonInteger
  split
  · rename_i zero letter digits
    have hNo : ∀ letters : String,
        letters.toList.all isBaseLetter = true →
        ¬ (zero = '0' ∧ letter ∈ letters.toList) := by
      rintro letters hLetters ⟨rfl, hLetter⟩
      exact hPrefix ⟨letter, digits, rfl,
        List.all_eq_true.mp hLetters letter hLetter⟩
    rw [if_neg (hNo "xX" (by decide)), if_neg (hNo "bB" (by decide)),
      if_neg (hNo "oO" (by decide))]
  · rfl

/-- A character of an integer's text is white space, a sign, a digit or an
underscore. -/
theorem char_of_intText {isSpace : Char → Bool} {s : List Char} {n : Int}
    (h : IntText isSpace s n) {c : Char} (hc : c ∈ s) :
    isSpace c = true ∨ c ∈ ['+', '-', '_'] ∨ isAsciiDigit c = true := by
  obtain ⟨hBefore, hSign, hDigits, hAfter⟩ := h
  simp only [List.mem_append] at hc
  rcases hc with (hMem | hMem | hMem) | hMem
  · exact Or.inl (hBefore c hMem)
  · cases hSign with
    | none => exact absurd hMem List.not_mem_nil
    | plus => exact Or.inr (Or.inl (by simp [List.eq_of_mem_singleton hMem]))
    | minus => exact Or.inr (Or.inl (by simp [List.eq_of_mem_singleton hMem]))
  · rcases hDigits.forall_mem c hMem with hDigit | rfl
    · exact Or.inr (Or.inr hDigit)
    · exact Or.inr (Or.inl (by simp))
  · exact Or.inl (hAfter c hMem)

/-- A lexeme with a base prefix is no decimal text. -/
theorem not_intText_of_basePrefixed {isSpace : Char → Bool}
    (hLetters : ∀ c, c.isAlpha = true → isSpace c = false) {s : List Char}
    (h : BasePrefixed s) : ¬ ∃ n, IntText isSpace s n := by
  obtain ⟨letter, digits, rfl, hLetter⟩ := h
  rintro ⟨n, hText⟩
  obtain ⟨hAlpha, hNoDigit, hNoSign⟩ := isBaseLetter_spec hLetter
  have hMem : letter ∈ '0' :: letter :: digits := by simp
  rcases char_of_intText hText hMem with hSpace | hSign | hDigit
  · exact absurd ((hLetters letter hAlpha).symm.trans hSpace) (by decide)
  · exact hNoSign hSign
  · exact absurd (hNoDigit.symm.trans hDigit) (by decide)

/-! ## The rule -/

/-- The rule gives a literal of the token's position and the integer. -/
def Evaluates (outcome : Option (Except BuiltinException NumberLiteral))
    (offset : Nat) (n : Int) : Prop :=
  ∃ literal, outcome = some (.ok literal) ∧ literal.sourcePos = offset ∧
    literal.value.Canonical ∧ literal.value.toInt = n

/-- Every lexeme of the pattern that the rule is given is evaluated to its
integer exactly when it has no base prefix. -/
theorem int_literal_exact_iff {isSpace : Char → Bool}
    (hSpace : SpaceClass isSpace)
    (hLetters : ∀ c, c.isAlpha = true → isSpace c = false)
    (re : RegexLibrary) (source : List Char) (offset : Nat)
    (hLexeme : stringForIntNumberToken re source offset ∈
      intNumberPattern.matches') :
    Evaluates (atomIntNumber re isSpace source offset) offset
        (pythonInteger (stringForIntNumberToken re source offset)) ↔
      ¬ BasePrefixed (stringForIntNumberToken re source offset) := by
  generalize hToken : stringForIntNumberToken re source offset = token
    at hLexeme
  have hHead : atomIntNumber re isSpace source offset =
      parseIntStringView isSpace token >>= fun parsed =>
        match parsed with
        | .error e => some (.error e)
        | .ok v => some (.ok { sourcePos := offset, value := v }) := by
    rw [← hToken]
    rfl
  obtain ⟨hParsed, hRaised⟩ := parseIntStringView_spec hSpace token
  rw [hHead]
  rcases intNumberPattern_cases hLexeme with hPrefix | hDigits
  · rw [hRaised (not_intText_of_basePrefixed hLetters hPrefix)]
    refine ⟨?_, fun hNo => absurd hPrefix hNo⟩
    rintro ⟨literal, hRun, -⟩
    cases hRun
  · have hNone : ∀ c ∈ ([] : List Char), isSpace c = true :=
      fun c hc => absurd hc List.not_mem_nil
    have hText := IntText.intro hNone .none hDigits hNone
    rw [if_neg Bool.false_ne_true, List.nil_append, List.nil_append,
      List.append_nil] at hText
    obtain ⟨v, hRun, hCanonical, hv⟩ := hParsed _ hText
    refine ⟨fun _ => not_basePrefixed hDigits, fun _ => ?_⟩
    rw [bind_of_eq_some hRun, pythonInteger_of_digitRun hDigits]
    exact ⟨_, rfl, rfl, hCanonical, hv⟩

theorem portableSpace_of_isAlpha (c : Char) (h : c.isAlpha = true) :
    portableSpace c = false := by
  have hLow : 65 ≤ c.toNat := by
    simp only [Char.isAlpha, Char.isUpper, Char.isLower, Bool.or_eq_true,
      Bool.and_eq_true, decide_eq_true_eq] at h
    rcases h with ⟨hLow, -⟩ | ⟨hLow, -⟩
    · exact hLow
    · exact Nat.le_trans (by decide) hLow
  have hBelow : ¬ c ≤ '\r' := by
    intro hHigh
    have hReturn : c.toNat ≤ 13 := hHigh
    omega
  have hSpace : c ≠ ' ' := by
    rintro rfl
    exact absurd hLow (by decide)
  simp [portableSpace, hBelow, hSpace]

theorem int_literal_exact_iff_sample :
    Evaluates (atomIntNumber longestLibrary portableSpace "12_3".toList 0) 0
        (pythonInteger
          (stringForIntNumberToken longestLibrary "12_3".toList 0)) ↔
      ¬ BasePrefixed
        (stringForIntNumberToken longestLibrary "12_3".toList 0) :=
  int_literal_exact_iff spaceClass_portableSpace portableSpace_of_isAlpha
    longestLibrary "12_3".toList 0
    ((RegularExpression.rmatch_iff_matches' _ _).mp (by decide +kernel))

/-- The lexeme is accepted and denotes an integer, and the rule raises. -/
theorem hexadecimal_literal_raises :
    stringForIntNumberToken longestLibrary "0xff".toList 0 ∈
        intNumberPattern.matches' ∧
      pythonInteger
        (stringForIntNumberToken longestLibrary "0xff".toList 0) = 255 ∧
      atomIntNumber longestLibrary portableSpace "0xff".toList 0 =
        some (.error invalidIntLiteralError) ∧
      ¬ Evaluates
        (atomIntNumber longestLibrary portableSpace "0xff".toList 0) 0 255 := by
  have hRaises : atomIntNumber longestLibrary portableSpace "0xff".toList 0 =
      some (.error invalidIntLiteralError) := by
    decide +kernel
  refine ⟨(RegularExpression.rmatch_iff_matches' _ _).mp (by decide +kernel),
    by decide +kernel, hRaises, ?_⟩
  rintro ⟨literal, hRun, -⟩
  rw [hRaises] at hRun
  cases hRun

end CloverVM.Compiler.IntLiteral
