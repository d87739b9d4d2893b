import CloverVM.BuiltinTypes.IntText

/-!
# Integers in text and back

The grammar of the texts that the integer parser takes, stated on its own: a
sign and a run of digits between white space.  The parser of `int.cpp` accepts
these texts and no others.  An integer is printed by the digits of a small
integer or, for an object, in chunks of nine digits that come off a division
by the power of ten; the chunks below the top one are padded with zeros.
-/

namespace CloverVM.BuiltinTypes.BigInt

open CloverVM.Machine CloverVM.Machine.Digits CloverVM.Machine.NumeralText
open CloverVM.ObjectModel CloverVM.Runtime

/-- An optional sign, and whether it is a minus sign. -/
inductive SignText : List Char → Bool → Prop
  | none : SignText [] false
  | plus : SignText ['+'] false
  | minus : SignText ['-'] true

/-- The text of an integer: a sign and digits between white space. -/
inductive IntText (isSpace : Char → Bool) : List Char → Int → Prop
  | intro {before sign digits after : List Char} {negative : Bool}
      (hBefore : ∀ c ∈ before, isSpace c = true)
      (hSign : SignText sign negative)
      (hDigits : DigitRun isAsciiDigit digits)
      (hAfter : ∀ c ∈ after, isSpace c = true) :
      IntText isSpace (before ++ (sign ++ digits) ++ after)
        (if negative = true then -(numeral 10 digits 0 : Int)
          else numeral 10 digits 0)

/-- The class of white space has no character of an integer. -/
structure SpaceClass (isSpace : Char → Bool) : Prop where
  digit : ∀ c, isAsciiDigit c = true → isSpace c = false
  plus : isSpace '+' = false
  minus : isSpace '-' = false
  underscore : isSpace '_' = false

section Trim

variable {isSpace : Char → Bool}

theorem dropWhile_of_forall {s : List Char}
    (h : ∀ c ∈ s, isSpace c = false) : s.dropWhile isSpace = s := by
  cases s with
  | nil => rfl
  | cons c s =>
      have hc := h c List.mem_cons_self
      simp [hc]

/-- White space is trimmed down to a text that has none. -/
theorem trimSpace_append {before core after : List Char}
    (hBefore : ∀ c ∈ before, isSpace c = true)
    (hAfter : ∀ c ∈ after, isSpace c = true)
    (hCore : ∀ c ∈ core, isSpace c = false) (hne : core ≠ []) :
    trimSpace isSpace (before ++ core ++ after) = core := by
  have hFront : (core ++ after).dropWhile isSpace = core ++ after := by
    cases core with
    | nil => exact absurd rfl hne
    | cons c core =>
        have hc := hCore c List.mem_cons_self
        simp [hc]
  have hBack : core.reverse.dropWhile isSpace = core.reverse :=
    dropWhile_of_forall fun c hc => hCore c (List.mem_reverse.mp hc)
  rw [trimSpace, List.append_assoc, List.dropWhile_append_of_pos hBefore,
    hFront, List.rdropWhile, List.reverse_append,
    List.dropWhile_append_of_pos fun c hc => hAfter c (List.mem_reverse.mp hc),
    hBack, List.reverse_reverse]

/-- Every text is its trimmed text between white space. -/
theorem exists_around_trimSpace (isSpace : Char → Bool) (text : List Char) :
    ∃ before after, text = before ++ trimSpace isSpace text ++ after ∧
      (∀ c ∈ before, isSpace c = true) ∧ (∀ c ∈ after, isSpace c = true) := by
  refine ⟨text.takeWhile isSpace,
    (text.dropWhile isSpace).rtakeWhile isSpace, ?_,
    fun c hc => List.mem_takeWhile_imp hc,
    fun c hc => List.mem_rtakeWhile_imp hc⟩
  rw [trimSpace, List.append_assoc, List.rdropWhile_append_rtakeWhile,
    List.takeWhile_append_dropWhile]

end Trim

/-! ## Signs -/

/-- The sign and the digits of a text, taken apart and put together. -/
theorem signText_splitSign (text : List Char) :
    ∃ sign, text = sign ++ (splitSign text).2 ∧
      SignText sign (splitSign text).1 := by
  cases text with
  | nil => exact ⟨[], rfl, .none⟩
  | cons front text =>
      by_cases hPlus : front = '+'
      · subst hPlus
        exact ⟨['+'], rfl, .plus⟩
      by_cases hMinus : front = '-'
      · subst hMinus
        exact ⟨['-'], rfl, .minus⟩
      have hSplit : splitSign (front :: text) = (false, front :: text) :=
        if_neg (not_or.mpr ⟨hPlus, hMinus⟩)
      rw [hSplit]
      exact ⟨[], rfl, .none⟩

theorem splitSign_append {sign digits : List Char} {negative : Bool}
    (hSign : SignText sign negative) (hDigits : DigitRun isAsciiDigit digits) :
    splitSign (sign ++ digits) = (negative, digits) := by
  cases hSign with
  | none =>
      obtain ⟨c, digits, rfl, hDigit, -⟩ := hDigits
      have hNoSign : ¬ (c = '+' ∨ c = '-') := by
        rintro (rfl | rfl) <;> exact absurd hDigit (by decide)
      exact if_neg hNoSign
  | plus => rfl
  | minus => rfl

theorem SpaceClass.not_space_of_mem {isSpace : Char → Bool}
    (hSpace : SpaceClass isSpace) {sign digits : List Char} {negative : Bool}
    (hSign : SignText sign negative) (hDigits : DigitRun isAsciiDigit digits) :
    ∀ c ∈ sign ++ digits, isSpace c = false := by
  intro c hc
  rcases List.mem_append.mp hc with hMem | hMem
  · cases hSign with
    | none => exact absurd hMem List.not_mem_nil
    | plus => exact List.eq_of_mem_singleton hMem ▸ hSpace.plus
    | minus => exact List.eq_of_mem_singleton hMem ▸ hSpace.minus
  · rcases hDigits.forall_mem c hMem with hDigit | rfl
    · exact hSpace.digit c hDigit
    · exact hSpace.underscore

/-- The grammar of a text, by the parts the parser takes it into. -/
theorem intText_iff {isSpace : Char → Bool} (hSpace : SpaceClass isSpace)
    (text : List Char) (n : Int) :
    IntText isSpace text n ↔
      DigitRun isAsciiDigit (splitSign (trimSpace isSpace text)).2 ∧
        n = signedNumeral (trimSpace isSpace text) := by
  constructor
  · rintro ⟨hBefore, hSign, hDigits, hAfter⟩
    have hne := hDigits
    obtain ⟨c, t, hCons, -⟩ := hne
    rw [trimSpace_append hBefore hAfter
      (hSpace.not_space_of_mem hSign hDigits) (by simp [hCons]),
      signedNumeral, splitSign_append hSign hDigits]
    exact ⟨hDigits, rfl⟩
  · rintro ⟨hDigits, rfl⟩
    obtain ⟨before, after, hText, hBefore, hAfter⟩ :=
      exists_around_trimSpace isSpace text
    obtain ⟨sign, hCore, hSign⟩ :=
      signText_splitSign (trimSpace isSpace text)
    have hIntText := IntText.intro hBefore hSign hDigits hAfter
    rw [← hCore, ← hText] at hIntText
    exact hIntText

/-- A text of an integer is parsed into it, and every other text raises. -/
theorem parseIntStringView_spec {isSpace : Char → Bool}
    (hSpace : SpaceClass isSpace) (text : List Char) :
    (∀ n, IntText isSpace text n →
      YieldsOk (parseIntStringView isSpace text) n) ∧
    ((¬ ∃ n, IntText isSpace text n) →
      parseIntStringView isSpace text =
        some (.error invalidIntLiteralError)) := by
  have hSlow : parseIntStringView isSpace text =
      parseIntStringSlow (trimSpace isSpace text) := by
    obtain ⟨hValue, hRaised⟩ :=
      parseIntStringSlow_of_fast (trimSpace isSpace text)
    obtain ⟨result, hFast, -⟩ :=
      parseIntStringFast_spec (trimSpace isSpace text)
    refine (bind_of_eq_some hFast _).trans ?_
    cases result with
    | notPresent => rfl
    | raised e => exact (hRaised e hFast).symm
    | value v => exact (hValue v hFast).symm
  obtain ⟨hAccepted, hRejected⟩ :=
    parseIntStringSlow_spec (trimSpace isSpace text)
  rw [hSlow]
  constructor
  · intro n hText
    obtain ⟨hDigits, rfl⟩ := (intText_iff hSpace text n).mp hText
    exact hAccepted hDigits
  · intro hNoText
    exact hRejected fun hDigits =>
      hNoText ⟨_, (intText_iff hSpace text _).mpr ⟨hDigits, rfl⟩⟩

def toWstring (n : Int) : List Char :=
  (if n < 0 then ['-'] else []) ++ Nat.toDigits 10 n.natAbs

def kDecimalBase : Digit := 1000000000

def kDecimalBaseDigits : Nat := 9

/-- The loop of divisions, from the low chunk up, for so many rounds. -/
def decimalChunks (capacity : Nat) :
    Nat → ConstBigIntView → Option (List Digit)
  | 0, _ => none
  | rounds + 1, current =>
      if current.nDigits = 0 then some []
      else do
        let (quotient, remainder) ←
          divmodAbsByU32 capacity current kDecimalBase
        let chunks ← decimalChunks capacity rounds quotient
        some (remainder :: chunks)

/-- The chunks below the top one, from the top down, behind the result. -/
def appendChunks : List Digit → List Char → Option (List Char)
  | [], result => some result
  | next :: chunks, result => do
      let chunk := toWstring next.toNat
      check (chunk.length ≤ kDecimalBaseDigits)
      let zeros := List.replicate (kDecimalBaseDigits - chunk.length) '0'
      appendChunks chunks (result ++ zeros ++ chunk)

/-- The text of a view; the magnitude bounds the divisions. -/
def bigintToDecimalString (view : ConstBigIntView) :
    Option (List Char) := do
  check (isNormalizedBigintView view)
  if view.signum = 0 then some ['0']
  else do
    let chunks ← decimalChunks view.nDigits (view.magnitude + 1)
      ⟨1, view.digits⟩
    match chunks.reverse with
    | [] => none
    | back :: chunks =>
        appendChunks chunks
          ((if view.signum < 0 then ['-'] else []) ++ toWstring back.toNat)

def nativeIntStr : IntValue → Option (List Char)
  | .smi value => some (toWstring value.smi)
  | .bigInt bigint => bigintToDecimalString bigint

/-! ## The chunks of a magnitude -/

theorem toWstring_natCast (n : Nat) : toWstring n = Nat.toDigits 10 n := by
  rw [toWstring, if_neg (by omega), List.nil_append, Int.natAbs_natCast]

/-- The divisions take off the digits in base one thousand million. -/
theorem decimalChunks_spec {capacity : Nat} (rounds : Nat) :
    ∀ (current : ConstBigIntView) (a : Nat), Denotes current a →
      current.nDigits ≤ capacity → a < rounds →
      ∃ chunks, decimalChunks capacity rounds current = some chunks ∧
        chunks.map BitVec.toNat = Nat.digits (10 ^ 9) a := by
  induction rounds with
  | zero => exact fun _ _ _ _ hRounds => absurd hRounds (Nat.not_lt_zero _)
  | succ rounds ih =>
      intro current a h hCapacity hRounds
      by_cases hZero : a = 0
      · subst hZero
        have hNil : current.nDigits = 0 := by
          rw [ConstBigIntView.nDigits, h.digits_eq_nil_iff.mpr rfl]
          rfl
        exact ⟨[], if_pos hNil, by simp⟩
      have hPos : 0 < a := Nat.pos_of_ne_zero hZero
      have hDigits : ¬ current.nDigits = 0 := by
        rw [ConstBigIntView.nDigits, List.length_eq_zero_iff,
          h.digits_eq_nil_iff]
        omega
      have hBase : kDecimalBase.toNat = 10 ^ 9 := by decide
      obtain ⟨quotient, remainder, hDivision, hQuotient, hRemainder⟩ :=
        divmodAbsByU32_spec h (show kDecimalBase ≠ 0 by decide) hCapacity
      rw [hBase] at hQuotient hRemainder
      have hLess : a / 10 ^ 9 < a := Nat.div_lt_self hPos (by decide)
      have hLength : quotient.nDigits ≤ current.nDigits :=
        hQuotient.nDigits_mono h (by
          rw [Int.natAbs_natCast, Int.natAbs_natCast]
          exact hLess.le)
      obtain ⟨chunks, hRun, hChunks⟩ := ih quotient (a / 10 ^ 9) hQuotient
        (hLength.trans hCapacity) (by omega)
      refine ⟨remainder :: chunks, ?_, ?_⟩
      · rw [decimalChunks, if_neg hDigits]
        refine (bind_of_eq_some hDivision _).trans ?_
        exact bind_of_eq_some hRun _
      · rw [List.map_cons, hChunks, hRemainder,
          Nat.digits_def' (by decide) hPos]

/-- The number of a chunk and those below it. -/
def withChunk (high : Nat) (chunk : Digit) : Nat :=
  10 ^ 9 * high + chunk.toNat

/-- The chunks are padded into the digits of the number they continue. -/
theorem appendChunks_spec {chunks : List Digit} (sign : List Char) :
    ∀ high : Nat, 0 < high → (∀ chunk ∈ chunks, chunk.toNat < 10 ^ 9) →
      appendChunks chunks (sign ++ Nat.toDigits 10 high) =
        some (sign ++ Nat.toDigits 10 (chunks.foldl withChunk high)) := by
  induction chunks with
  | nil => exact fun _ _ _ => rfl
  | cons chunk chunks ih =>
      intro high hHigh hChunks
      have hChunk : chunk.toNat < 10 ^ 9 := hChunks chunk List.mem_cons_self
      have hLength : (toWstring chunk.toNat).length ≤ kDecimalBaseDigits := by
        rw [toWstring_natCast]
        exact length_toDigits_le (by decide) hChunk
      have hNext := toDigits_append_padded (by decide) hHigh hChunk
      rw [padded] at hNext
      have hStep : appendChunks (chunk :: chunks)
          (sign ++ Nat.toDigits 10 high) = appendChunks chunks
            (sign ++ Nat.toDigits 10 high ++
              List.replicate (9 - (toWstring chunk.toNat).length) '0' ++
              toWstring chunk.toNat) := by
        rw [appendChunks]
        exact check_bind hLength _
      rw [hStep, toWstring_natCast, List.append_assoc, List.append_assoc, hNext]
      exact ih _ (Nat.add_pos_left (Nat.mul_pos (by decide) hHigh) _)
        fun next hNextMem => hChunks next (List.mem_cons_of_mem _ hNextMem)

/-- The chunks from the top down make up the number. -/
theorem foldl_withChunk (chunks : List Digit) (back : Digit) :
    chunks.foldl withChunk back.toNat =
      Nat.ofDigits (10 ^ 9) ((back :: chunks).reverse.map BitVec.toNat) := by
  have hOrder : withChunk = fun high chunk => chunk.toNat + 10 ^ 9 * high := by
    funext high chunk
    exact Nat.add_comm _ _
  rw [Nat.ofDigits_eq_foldr, hOrder]
  simp [List.foldr_append, List.foldl_map]

/-- A view is printed by the decimal digits of its integer. -/
theorem bigintToDecimalString_spec {view : ConstBigIntView} {n : Int}
    (h : Denotes view n) : bigintToDecimalString view = some (toWstring n) := by
  unfold bigintToDecimalString
  rw [check_normalized h.normalized]
  by_cases hZero : view.signum = 0
  · rw [if_pos hZero, h.signum_eq_zero_iff.mp hZero]
    rfl
  have hne : n.natAbs ≠ 0 := by
    have hn := mt h.signum_eq_zero_iff.mpr hZero
    omega
  have hDigits : view.digits ≠ [] := by
    rw [Ne, h.digits_eq_nil_iff]
    omega
  have hCurrent : Denotes ⟨1, view.digits⟩ (n.natAbs : Nat) := by
    have hDenotes := denotes_of_trimmed h.normalized.trimmed hDigits
      (Or.inr (rfl : (1 : Int) = 1))
    rw [Int.one_mul, show value view.digits = n.natAbs from h.magnitude]
      at hDenotes
    exact hDenotes
  obtain ⟨chunks, hRun, hChunks⟩ := decimalChunks_spec (view.magnitude + 1)
    _ _ hCurrent (Nat.le_refl view.nDigits)
    (h.magnitude ▸ Nat.lt_succ_self _)
  rw [if_neg hZero]
  refine (bind_of_eq_some hRun _).trans ?_
  have hNonempty : Nat.digits (10 ^ 9) n.natAbs ≠ [] :=
    Nat.digits_ne_nil_iff_ne_zero.mpr hne
  cases hReverse : chunks.reverse with
  | nil =>
      rw [List.reverse_eq_nil_iff] at hReverse
      rw [← hChunks, hReverse] at hNonempty
      exact absurd rfl hNonempty
  | cons back rest =>
      have hSplit : chunks = (back :: rest).reverse := by
        rw [← hReverse, List.reverse_reverse]
      have hValue : rest.foldl withChunk back.toNat = n.natAbs := by
        rw [foldl_withChunk, ← hSplit, hChunks, Nat.ofDigits_digits]
      have hSmall : ∀ chunk ∈ rest, chunk.toNat < 10 ^ 9 := by
        intro chunk hMem
        have hChunk : chunk ∈ chunks := by simp [hSplit, hMem]
        have hDigit := List.mem_map_of_mem (f := BitVec.toNat) hChunk
        rw [hChunks] at hDigit
        exact Nat.digits_lt_base (by decide) hDigit
      have hBack : 0 < back.toNat := by
        have hTop := Nat.getLast_digit_ne_zero (10 ^ 9) hne
        simp only [← hChunks, hSplit, List.reverse_cons, List.map_append,
          List.map_cons, List.map_nil, List.getLast_append_singleton] at hTop
        omega
      have hSign : view.signum < 0 ↔ n < 0 := by
        rw [h.signum]
        exact Int.sign_neg_iff
      show appendChunks rest ((if view.signum < 0 then ['-'] else []) ++
        toWstring back.toNat) = some (toWstring n)
      simp only [hSign]
      rw [toWstring_natCast, appendChunks_spec _ _ hBack hSmall, hValue,
        toWstring]

/-- Small integers and objects are printed alike. -/
theorem nativeIntStr_eq {v : IntValue} (h : v.Canonical) :
    nativeIntStr v = some (toWstring v.toInt) := by
  cases v with
  | smi value => rfl
  | bigInt bigint => exact bigintToDecimalString_spec (denotes_self h.1)

/-! ## The round trip -/

/-- The printed text of an integer is a text of the grammar. -/
theorem intText_toWstring (isSpace : Char → Bool) (n : Int) :
    IntText isSpace (toWstring n) n := by
  have hDigits : DigitRun isAsciiDigit (Nat.toDigits 10 n.natAbs) :=
    digitRun_of_forall Nat.toDigits_ne_nil isDigit_of_mem_toDigits
  have hNone : ∀ c ∈ ([] : List Char), isSpace c = true :=
    fun c hc => absurd hc List.not_mem_nil
  by_cases hNegative : n < 0
  · have hText := IntText.intro hNone .minus hDigits hNone
    rw [if_pos rfl, numeral_toDigits, List.nil_append, List.append_nil,
      show -(n.natAbs : Int) = n by omega] at hText
    rw [toWstring, if_pos hNegative]
    exact hText
  · have hText := IntText.intro hNone .none hDigits hNone
    rw [if_neg Bool.false_ne_true, numeral_toDigits, List.nil_append,
      List.append_nil, show (n.natAbs : Int) = n by omega] at hText
    rw [toWstring, if_neg hNegative]
    exact hText

theorem eq_zero_of_toDigits_head {n : Nat}
    (h : (Nat.toDigits 10 n).head? = some '0') : Nat.toDigits 10 n = ['0'] := by
  rcases Nat.eq_zero_or_pos n with rfl | hPos
  · exact Nat.toDigits_zero 10
  · exact absurd h (toDigits_no_leading_zero hPos)

/-- The parser accepts the grammar of integers and no other text, the fast
pass agrees with the slow one, and a printed integer is parsed back. -/
theorem int_text_exact {isSpace : Char → Bool} (hSpace : SpaceClass isSpace) :
    (∀ text,
      (∀ n, IntText isSpace text n →
        YieldsOk (parseIntStringView isSpace text) n) ∧
      ((¬ ∃ n, IntText isSpace text n) →
        parseIntStringView isSpace text =
          some (.error invalidIntLiteralError))) ∧
    (∀ text,
      (∀ v, parseIntStringFast text = some (.value v) →
        parseIntStringSlow text = some (.ok (.smi v))) ∧
      (∀ e, parseIntStringFast text = some (.raised e) →
        parseIntStringSlow text = some (.error e))) ∧
    (∀ v : IntValue, v.Canonical →
      ∃ digits,
        nativeIntStr v =
          some ((if v.toInt < 0 then ['-'] else []) ++ digits) ∧
        (∀ c ∈ digits, isAsciiDigit c = true) ∧
        (digits.head? = some '0' → digits = ['0']) ∧
        parseIntStringView isSpace
            ((if v.toInt < 0 then ['-'] else []) ++ digits) =
          some (.ok v)) := by
  refine ⟨parseIntStringView_spec hSpace, parseIntStringSlow_of_fast, ?_⟩
  intro v hv
  refine ⟨Nat.toDigits 10 v.toInt.natAbs, nativeIntStr_eq hv,
    isDigit_of_mem_toDigits, eq_zero_of_toDigits_head, ?_⟩
  obtain ⟨w, hRun, hCanonical, hw⟩ :=
    (parseIntStringView_spec hSpace _).1 _ (intText_toWstring isSpace v.toInt)
  rw [← IntValue.eq_of_toInt_eq hCanonical hv hw]
  exact hw ▸ hRun

/-- The white space of the portable locale. -/
def portableSpace (c : Char) : Bool :=
  decide (c = ' ') || (decide ('\t' ≤ c) && decide (c ≤ '\r'))

theorem spaceClass_portableSpace : SpaceClass portableSpace where
  digit := by
    intro c hDigit
    simp only [isAsciiDigit, Bool.and_eq_true, decide_eq_true_eq] at hDigit
    have hLow : 48 ≤ c.toNat := hDigit.1
    have hBelow : ¬ c ≤ '\r' := by
      intro hHigh
      have hReturn : c.toNat ≤ 13 := hHigh
      omega
    have hSpace : c ≠ ' ' := by
      rintro rfl
      have hBlank : ' '.toNat = 32 := rfl
      omega
    simp [portableSpace, hBelow, hSpace]
  plus := rfl
  minus := rfl
  underscore := rfl

theorem int_text_exact_portable :
    YieldsOk (parseIntStringView portableSpace [' ', '-', '7', '_', '0'])
      (-70) := by
  have hBefore : ∀ c ∈ [' '], portableSpace c = true :=
    fun c hc => List.eq_of_mem_singleton hc ▸ rfl
  have hAfter : ∀ c ∈ ([] : List Char), portableSpace c = true :=
    fun c hc => absurd hc List.not_mem_nil
  have hDigits : DigitRun isAsciiDigit ['7', '_', '0'] :=
    digitRun_cons_iff.mpr ⟨rfl, .underscore rfl .nil⟩
  exact ((int_text_exact spaceClass_portableSpace).1 _).1 _
    (IntText.intro hBefore .minus hDigits hAfter)

end CloverVM.BuiltinTypes.BigInt
