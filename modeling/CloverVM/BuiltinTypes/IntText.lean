import CloverVM.BuiltinTypes.BigIntFloorDivision
import CloverVM.Machine.NumeralText

/-!
# Integers from text

The parser of `builtin_types/int.cpp` for integers in decimal text.  The fast
pass takes a text of plain digits whose number fits a small integer; at an
underscore, or where the number outgrows the limit, it gives up and the slow
pass starts again from the front with a number of any size.  The limit is one
greater behind a minus sign.

The class of white space is a parameter, as it is the locale's.
-/

namespace CloverVM.BuiltinTypes.BigInt

open CloverVM.Machine CloverVM.Machine.Digits CloverVM.Machine.NumeralText
open CloverVM.ObjectModel CloverVM.Runtime

def isAsciiDigit (ch : Char) : Bool := decide ('0' ≤ ch) && decide (ch ≤ '9')

/-- Whether the text has a minus sign, and the text behind its sign. -/
def splitSign : List Char → Bool × List Char
  | [] => (false, [])
  | front :: text =>
      if front = '+' ∨ front = '-' then (decide (front = '-'), text)
      else (false, front :: text)

/-- How the digits of the fast pass end. -/
inductive FastDigits where
  | notPresent
  | invalid
  | parsed (n : Nat)
deriving DecidableEq, Repr

def parseFastLoop (limit : Nat) : List Char → Nat → Bool → Option FastDigits
  | [], parsed, sawDigit =>
      some (if sawDigit then .parsed parsed else .invalid)
  | ch :: text, parsed, _ =>
      if ch = '_' then some .notPresent
      else if isAsciiDigit ch = false then some .invalid
      else do
        let digit := ch.toNat - '0'.toNat
        check (digit ≤ limit)
        if parsed > (limit - digit) / 10 then some .notPresent
        else
          let parsed ← doubleDigit (parsed * 10 + digit)
          parseFastLoop limit text parsed true

/-- A value, an exception, or the marker that there is no value. -/
inductive FastResult where
  | notPresent
  | raised (e : BuiltinException)
  | value (v : Value)
deriving DecidableEq, Repr

def positiveLimit : Nat := valueSmiMax.toNat

def negativeLimit : Nat := positiveLimit + 1

/-- The limit of the fast pass, and its result. -/
def parseIntStringFast (text : List Char) : Option FastResult := do
  if text = [] then
    some (.raised invalidIntLiteralError)
  else
    let (negative, digits) := splitSign text
    let limit := if negative then negativeLimit else positiveLimit
    match ← parseFastLoop limit digits 0 false with
    | .notPresent => some .notPresent
    | .invalid => some (.raised invalidIntLiteralError)
    | .parsed n =>
        some (.value (Value.ofInt (if negative then -(n : Int) else n)))

def bigintAbsMulAddU32 (capacity : Nat) (src : ConstBigIntView)
    (multiplier addend : Digit) : Option ConstBigIntView := do
  check (isNormalizedBigintView src)
  check (src.signum = 0 ∨ src.signum = 1)
  check (multiplier ≠ 0)
  check (src.nDigits + 1 ≤ capacity)
  let (digits, carry) ← mulDigitLoop multiplier src.digits addend.toNat
  let dest := unsignedView
    (if carry ≠ 0 then digits ++ [toDigit carry] else digits)
  check (isNormalizedBigintView dest)
  some dest

/-- The loop of the slow pass; an exception where the text is no integer. -/
def parseSlowLoop (capacity : Nat) : List Char → ConstBigIntView → Bool →
    Bool → Option (Except BuiltinException ConstBigIntView)
  | [], current, sawDigit, previousUnderscore =>
      if sawDigit = false ∨ previousUnderscore = true then
        some (.error invalidIntLiteralError)
      else some (.ok current)
  | ch :: text, current, sawDigit, previousUnderscore =>
      if ch = '_' then
        if sawDigit = false ∨ previousUnderscore = true then
          some (.error invalidIntLiteralError)
        else parseSlowLoop capacity text current sawDigit true
      else if isAsciiDigit ch = false then
        some (.error invalidIntLiteralError)
      else do
        let dest ← bigintAbsMulAddU32 capacity current 10
          (toDigit (ch.toNat - '0'.toNat))
        parseSlowLoop capacity text dest true false

def parseIntStringSlow (text : List Char) :
    Option (Except BuiltinException IntValue) := do
  if text = [] then
    some (.error invalidIntLiteralError)
  else
    let (negative, digits) := splitSign text
    match ← parseSlowLoop (digits.length + 1) digits ⟨0, []⟩ false false with
    | .error e => some (.error e)
    | .ok current => do
        let current ← normalizeBigintView current
        let value ← finalizeBigint
          (if current.signum ≠ 0 then
            { current with signum := if negative then -1 else 1 }
          else current)
        some (.ok value)

/-- The text without the white space around it. -/
def trimSpace (isSpace : Char → Bool) (text : List Char) : List Char :=
  (text.dropWhile isSpace).rdropWhile isSpace

def parseIntStringView (isSpace : Char → Bool) (text : List Char) :
    Option (Except BuiltinException IntValue) := do
  let trimmed := trimSpace isSpace text
  match ← parseIntStringFast trimmed with
  | .value v => some (.ok (.smi v))
  | .raised e => some (.error e)
  | .notPresent => parseIntStringSlow trimmed

theorem bigintAbsMulAddU32_spec {capacity a : Nat} {src : ConstBigIntView}
    (h : Denotes src a) (hCapacity : src.nDigits + 1 ≤ capacity)
    {multiplier : Digit} (hne : multiplier ≠ 0) (addend : Digit) :
    ∃ dest, bigintAbsMulAddU32 capacity src multiplier addend = some dest ∧
      Denotes dest (a * multiplier.toNat + addend.toNat : Nat) ∧
      dest.nDigits ≤ src.nDigits + 1 := by
  have hPos : 0 < multiplier.toNat :=
    Nat.pos_of_ne_zero (mt (toNat_eq_zero_iff multiplier).mp hne)
  obtain ⟨digits, carry, hRun, hCarry, hLength, hValue⟩ :=
    mulDigitLoop_spec multiplier src.digits addend.toNat addend.isLt
  rw [h.value_digits] at hValue
  generalize hWritten : (if carry ≠ 0 then digits ++ [toDigit carry] else
    digits) = written
  have hDest : Trimmed written ∧
      value written = a * multiplier.toNat + addend.toNat := by
    rw [← hWritten]
    rw [← hLength] at hValue
    refine trimmed_with_carry hCarry hValue fun hNil => ?_
    have hne : src.digits ≠ [] := by
      rintro hEmpty
      rw [hEmpty] at hLength
      exact hNil (List.length_eq_zero_iff.mp hLength)
    rw [hLength, ← h.value_digits]
    exact (pow_le_value h.normalized.trimmed hne).trans
      ((Nat.le_mul_of_pos_right _ hPos).trans (Nat.le_add_right _ _))
  have hWrittenLength : written.length ≤ src.nDigits + 1 := by
    rw [← hWritten, ConstBigIntView.nDigits, ← hLength]
    split <;> simp
  have hDenotes := denotes_unsignedView hDest.1
  rw [hDest.2] at hDenotes
  refine ⟨unsignedView written, ?_, hDenotes, hWrittenLength⟩
  unfold bigintAbsMulAddU32
  rw [check_normalized h.normalized, check_bind h.signum_nonneg,
    check_bind hne, check_bind hCapacity]
  refine (bind_of_eq_some hRun _).trans ?_
  simp only [hWritten]
  exact check_normalized hDenotes.normalized _

/-- The character of a digit, as both passes read it. -/
structure DigitChar (ch : Char) : Prop where
  ne_underscore : ch ≠ '_'
  lt_ten : ch.toNat - '0'.toNat < 10
  value : digitValue ch = ch.toNat - '0'.toNat

theorem digitChar_of_isAsciiDigit {ch : Char} (h : isAsciiDigit ch = true) :
    DigitChar ch := by
  refine ⟨isDigit_ne_underscore h, ?_, if_pos h⟩
  simp only [isAsciiDigit, Bool.and_eq_true, decide_eq_true_eq] at h
  have hHigh : ch.toNat ≤ '9'.toNat := h.2
  have hNine : '9'.toNat = 57 := rfl
  have hZero : '0'.toNat = 48 := rfl
  omega

theorem numeral_asciiDigit {ch : Char} (h : isAsciiDigit ch = true)
    (s : List Char) (n : Nat) :
    numeral 10 (ch :: s) n =
      numeral 10 s (10 * n + (ch.toNat - '0'.toNat)) := by
  have hDigit := digitChar_of_isAsciiDigit h
  rw [numeral_digit hDigit.ne_underscore, hDigit.value]

/-- What is accepted behind the digits and the underscore that were seen. -/
def Accepts (afterDigit : Bool) (s : List Char) : Prop :=
  if afterDigit then AfterDigit isAsciiDigit s else DigitRun isAsciiDigit s

theorem accepts_digit_iff {afterDigit : Bool} {ch : Char}
    (h : isAsciiDigit ch = true) (s : List Char) :
    Accepts afterDigit (ch :: s) ↔ Accepts true s := by
  have hUnderscore := (digitChar_of_isAsciiDigit h).ne_underscore
  cases afterDigit
  · simp [Accepts, digitRun_cons_iff, h]
  · simp [Accepts, afterDigit_cons_iff, h, hUnderscore]

theorem accepts_underscore_iff {afterDigit : Bool} (s : List Char) :
    Accepts afterDigit ('_' :: s) ↔ afterDigit = true ∧ Accepts false s := by
  have hNoDigit : isAsciiDigit '_' = false := rfl
  cases afterDigit
  · simp [Accepts, digitRun_cons_iff, hNoDigit]
  · simp [Accepts, afterDigit_cons_iff, hNoDigit]

theorem not_accepts_other {afterDigit : Bool} {ch : Char}
    (hDigit : isAsciiDigit ch = false) (hne : ch ≠ '_') (s : List Char) :
    ¬ Accepts afterDigit (ch :: s) := by
  cases afterDigit
  · simp [Accepts, digitRun_cons_iff, hDigit]
  · simp [Accepts, afterDigit_cons_iff, hDigit, hne]

theorem accepts_nil_iff {afterDigit : Bool} :
    Accepts afterDigit [] ↔ afterDigit = true := by
  cases afterDigit
  · simp [Accepts, not_digitRun_nil]
  · simp [Accepts, AfterDigit.nil]

/-- What an outcome of the fast pass says of the text it was given. -/
def FastDigits.Sound (limit : Nat) (s : List Char) (parsed : Nat)
    (sawDigit : Bool) : FastDigits → Prop
  | .notPresent => True
  | .invalid => ¬ Accepts sawDigit s
  | .parsed n => Accepts sawDigit s ∧ n = numeral 10 s parsed ∧ n ≤ limit

theorem parseFastLoop_spec {limit : Nat} (hLow : 9 ≤ limit)
    (hHigh : limit < 2 ^ 64) (s : List Char) :
    ∀ (parsed : Nat) (sawDigit : Bool), parsed ≤ limit →
      ∃ out, parseFastLoop limit s parsed sawDigit = some out ∧
        out.Sound limit s parsed sawDigit := by
  induction s with
  | nil =>
      intro parsed sawDigit hParsed
      refine ⟨_, rfl, ?_⟩
      cases sawDigit
      · exact mt accepts_nil_iff.mp (by decide)
      · exact ⟨accepts_nil_iff.mpr rfl, rfl, hParsed⟩
  | cons ch s ih =>
      intro parsed sawDigit hParsed
      by_cases hUnderscore : ch = '_'
      · exact ⟨.notPresent, if_pos hUnderscore, trivial⟩
      by_cases hDigit : isAsciiDigit ch = false
      · refine ⟨.invalid, ?_, not_accepts_other hDigit hUnderscore s⟩
        rw [parseFastLoop, if_neg hUnderscore, if_pos hDigit]
      have hIsDigit : isAsciiDigit ch = true := by simpa using hDigit
      have hTen := (digitChar_of_isAsciiDigit hIsDigit).lt_ten
      have hCheck : ch.toNat - '0'.toNat ≤ limit := by omega
      have hHead : parseFastLoop limit (ch :: s) parsed sawDigit =
          if parsed > (limit - (ch.toNat - '0'.toNat)) / 10 then
            some .notPresent
          else doubleDigit (parsed * 10 + (ch.toNat - '0'.toNat)) >>=
            fun parsed => parseFastLoop limit s parsed true := by
        rw [parseFastLoop, if_neg hUnderscore, if_neg hDigit]
        exact check_bind hCheck _
      rw [hHead]
      by_cases hLarge : parsed > (limit - (ch.toNat - '0'.toNat)) / 10
      · exact ⟨.notPresent, if_pos hLarge, trivial⟩
      have hNext : parsed * 10 + (ch.toNat - '0'.toNat) ≤ limit := by omega
      obtain ⟨out, hRun, hSound⟩ := ih _ true hNext
      refine ⟨out, ?_, ?_⟩
      · rw [if_neg hLarge, doubleDigit_eq_some (by omega)]
        exact hRun
      · cases out with
        | notPresent => trivial
        | invalid => exact mt (accepts_digit_iff hIsDigit s).mp hSound
        | parsed n =>
            obtain ⟨hAccepts, hn, hFits⟩ := hSound
            refine ⟨(accepts_digit_iff hIsDigit s).mpr hAccepts, ?_, hFits⟩
            rw [numeral_asciiDigit hIsDigit, Nat.mul_comm 10, hn]

theorem parseSlowLoop_spec {capacity : Nat} (s : List Char) :
    ∀ (current : ConstBigIntView) (a : Nat)
      (sawDigit previousUnderscore : Bool), Denotes current a →
      current.nDigits + s.length + 1 ≤ capacity →
      (Accepts (sawDigit && !previousUnderscore) s →
        ∃ view, parseSlowLoop capacity s current sawDigit
            previousUnderscore = some (.ok view) ∧
          Denotes view (numeral 10 s a : Nat)) ∧
      (¬ Accepts (sawDigit && !previousUnderscore) s →
        parseSlowLoop capacity s current sawDigit previousUnderscore =
          some (.error invalidIntLiteralError)) := by
  induction s with
  | nil =>
      intro current a sawDigit previousUnderscore h _
      rw [accepts_nil_iff]
      cases sawDigit <;> cases previousUnderscore <;>
        simp [parseSlowLoop, h]
  | cons ch s ih =>
      intro current a sawDigit previousUnderscore h hCapacity
      rw [List.length_cons] at hCapacity
      by_cases hUnderscore : ch = '_'
      · subst hUnderscore
        obtain ⟨hAccepted, hRejected⟩ :=
          ih current a sawDigit true h (by omega)
        rw [accepts_underscore_iff]
        cases sawDigit
        · simp [parseSlowLoop]
        · cases previousUnderscore
          · simpa [parseSlowLoop, numeral_underscore] using
              And.intro hAccepted hRejected
          · simp [parseSlowLoop]
      by_cases hDigit : isAsciiDigit ch = false
      · refine ⟨fun hAccepts => absurd hAccepts
          (not_accepts_other hDigit hUnderscore s), fun _ => ?_⟩
        rw [parseSlowLoop, if_neg hUnderscore, if_pos hDigit]
      have hIsDigit : isAsciiDigit ch = true := by simpa using hDigit
      have hTen := (digitChar_of_isAsciiDigit hIsDigit).lt_ten
      obtain ⟨dest, hRun, hDest, hLength⟩ := bigintAbsMulAddU32_spec h
        (show current.nDigits + 1 ≤ capacity by omega)
        (show (10 : Digit) ≠ 0 by decide) (toDigit (ch.toNat - '0'.toNat))
      have hMultiplier : (10 : Digit).toNat = 10 := rfl
      rw [toNat_toDigit (by omega), hMultiplier, Nat.mul_comm] at hDest
      have hHead : parseSlowLoop capacity (ch :: s) current sawDigit
          previousUnderscore = parseSlowLoop capacity s dest true false := by
        rw [parseSlowLoop, if_neg hUnderscore, if_neg hDigit]
        exact bind_of_eq_some hRun _
      rw [hHead, accepts_digit_iff hIsDigit, numeral_asciiDigit hIsDigit]
      exact ih dest _ true false hDest (by omega)

/-! ## The two passes -/

/-- The number of the digits behind a sign. -/
def signedNumeral (text : List Char) : Int :=
  if (splitSign text).1 = true then -(numeral 10 (splitSign text).2 0 : Int)
  else numeral 10 (splitSign text).2 0

theorem normalizeBigintView_self {view : ConstBigIntView} {n : Int}
    (h : Denotes view n) : normalizeBigintView view = some view := by
  have hSign : value view.digits = 0 ∨ view.signum = -1 ∨ view.signum = 1 := by
    rcases h.normalized.signum with ⟨hNil, -⟩ | ⟨-, hUnit⟩
    · exact Or.inl (by rw [hNil, value_nil])
    · exact Or.inr hUnit
  obtain ⟨trimmed, hRun, -, hTrimmed⟩ :=
    normalizeBigintView_spec view.signum view.digits hSign
  have hToInt : view.signum * value view.digits = n := h.toInt
  rw [hToInt] at hTrimmed
  rw [← hTrimmed.eq h]
  rw [hTrimmed.eq h] at hRun ⊢
  exact hRun

theorem parseIntStringSlow_spec (text : List Char) :
    (DigitRun isAsciiDigit (splitSign text).2 →
      YieldsOk (parseIntStringSlow text) (signedNumeral text)) ∧
    (¬ DigitRun isAsciiDigit (splitSign text).2 →
      parseIntStringSlow text = some (.error invalidIntLiteralError)) := by
  by_cases hNil : text = []
  · subst hNil
    exact ⟨fun hRun => absurd hRun not_digitRun_nil, fun _ => rfl⟩
  obtain ⟨hAccepted, hRejected⟩ :=
    @parseSlowLoop_spec ((splitSign text).2.length + 1)
      (splitSign text).2 ⟨0, []⟩ 0 false false denotes_zero
      (by simp [ConstBigIntView.nDigits])
  unfold parseIntStringSlow
  rw [if_neg hNil]
  constructor
  · intro hDigits
    obtain ⟨view, hRun, hView⟩ := hAccepted hDigits
    have hSigned : Denotes
        (if view.signum ≠ 0 then
          { view with signum := if (splitSign text).1 then -1 else 1 }
        else view) (signedNumeral text) := by
      by_cases hZero : view.signum = 0
      · have hNumeral := hView.signum_eq_zero_iff.mp hZero
        rw [if_neg (not_not.mpr hZero), signedNumeral, hNumeral]
        rw [hNumeral] at hView
        simpa using hView
      · have hPos : 0 < numeral 10 (splitSign text).2 0 := by
          have hne := mt hView.signum_eq_zero_iff.mpr hZero
          omega
        rw [if_pos hZero, signedNumeral]
        cases (splitSign text).1
        · simpa using hView.withSignum hPos (Or.inr rfl)
        · simpa using hView.withSignum hPos (Or.inl rfl)
    obtain ⟨v, hFinal, hCanonical⟩ := finalizeBigint_yields hSigned
    refine ⟨v, ?_, hCanonical⟩
    refine (bind_of_eq_some hRun _).trans ?_
    refine (bind_of_eq_some (normalizeBigintView_self hView) _).trans ?_
    exact bind_of_eq_some hFinal _
  · intro hDigits
    exact bind_of_eq_some (hRejected hDigits) _

/-- What an outcome of the fast pass says of the whole text. -/
def FastResult.Sound (text : List Char) : FastResult → Prop
  | .notPresent => True
  | .raised e => ¬ DigitRun isAsciiDigit (splitSign text).2 ∧
      e = invalidIntLiteralError
  | .value v => DigitRun isAsciiDigit (splitSign text).2 ∧
      v = Value.ofInt (signedNumeral text) ∧ SmiRange (signedNumeral text)

theorem parseIntStringFast_spec (text : List Char) :
    ∃ result, parseIntStringFast text = some result ∧
      result.Sound text := by
  by_cases hNil : text = []
  · subst hNil
    exact ⟨_, rfl, not_digitRun_nil, rfl⟩
  have hPositive : positiveLimit = 2 ^ 58 - 1 := by decide
  have hHead : parseIntStringFast text =
      parseFastLoop (if (splitSign text).1 = true then negativeLimit
        else positiveLimit) (splitSign text).2 0 false >>= fun out =>
          match out with
          | .notPresent => some .notPresent
          | .invalid => some (.raised invalidIntLiteralError)
          | .parsed n =>
              some (.value (Value.ofInt
                (if (splitSign text).1 = true then -(n : Int) else n))) := by
    unfold parseIntStringFast
    rw [if_neg hNil]
  rw [hHead]
  have hLimits :
      9 ≤ (if (splitSign text).1 = true then negativeLimit
        else positiveLimit) ∧
      (if (splitSign text).1 = true then negativeLimit
        else positiveLimit) < 2 ^ 64 := by
    cases (splitSign text).1 <;> decide
  obtain ⟨out, hRun, hSound⟩ := parseFastLoop_spec hLimits.1 hLimits.2
    (splitSign text).2 0 false (Nat.zero_le _)
  rw [bind_of_eq_some hRun]
  cases out with
  | notPresent => exact ⟨_, rfl, trivial⟩
  | invalid => exact ⟨_, rfl, hSound, rfl⟩
  | parsed n =>
      obtain ⟨hAccepts, hn, hFits⟩ := hSound
      have hNumber : signedNumeral text =
          if (splitSign text).1 = true then -(n : Int) else n := by
        rw [signedNumeral, hn]
      refine ⟨_, rfl, hAccepts, by rw [hNumber], ?_⟩
      rw [hNumber, SmiRange, valueSmiMin, valueSmiMax]
      rw [negativeLimit, hPositive] at hFits
      by_cases hNegative : (splitSign text).1 = true
      · rw [if_pos hNegative] at hFits
        rw [if_pos hNegative]
        omega
      · rw [if_neg hNegative] at hFits
        rw [if_neg hNegative]
        omega

/-- The fast pass returns and raises only what the slow one would. -/
theorem parseIntStringSlow_of_fast (text : List Char) :
    (∀ v, parseIntStringFast text = some (.value v) →
      parseIntStringSlow text = some (.ok (.smi v))) ∧
    (∀ e, parseIntStringFast text = some (.raised e) →
      parseIntStringSlow text = some (.error e)) := by
  obtain ⟨hAccepted, hRejected⟩ := parseIntStringSlow_spec text
  obtain ⟨result, hFast, hSound⟩ := parseIntStringFast_spec text
  constructor
  · intro v hv
    rw [hFast, Option.some.injEq] at hv
    subst hv
    obtain ⟨hDigits, rfl, hFits⟩ := hSound
    obtain ⟨w, hSlow, hCanonical, hw⟩ := hAccepted hDigits
    have hSmi : (IntValue.smi (Value.ofInt (signedNumeral text))).Canonical :=
      isSmi_ofInt _
    rw [hSlow, IntValue.eq_of_toInt_eq hCanonical hSmi]
    exact hw.trans (smi_ofInt hFits).symm
  · intro e he
    rw [hFast, Option.some.injEq] at he
    subst he
    obtain ⟨hDigits, rfl⟩ := hSound
    exact hRejected hDigits

end CloverVM.BuiltinTypes.BigInt
