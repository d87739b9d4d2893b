import CloverVM.Compiler.Tokenizer
import CloverVM.Runtime.BuiltinException

/-!
# String and bytes literals

What `repr` writes of a `str` (`builtin_types/str.cpp`) and of a `bytes`
(`builtin_types/bytes.cpp`), and what the parser reads from the token of a
literal (`compiler/parser.cpp`).  A string that is read is a list of code
units, since an escape may give a unit that is no character.
-/

namespace CloverVM.Compiler.StringLiteral

open CloverVM.Compiler.Tokenizer CloverVM.Compiler.TokenPattern
open CloverVM.Runtime

/-- The letter of the escapes that both `repr`s write. -/
def escapeLetter : Char → Option Char
  | '\\' => some '\\'
  | '\'' => some '\''
  | '\n' => some 'n'
  | '\r' => some 'r'
  | '\t' => some 't'
  | _ => none

def escaped (c : Char) (otherwise : List Char) : List Char :=
  match escapeLetter c with
  | some e => ['\\', e]
  | none => otherwise

def nativeStrRepr (s : List Char) : List Char :=
  '\'' :: (s.flatMap (fun c => escaped c [c]) ++ ['\''])

def digits : List Char := "0123456789abcdef".toList

def appendHexByte (byte : UInt8) : List Char :=
  ['\\', 'x', digits[byte.toNat / 16]!, digits[byte.toNat % 16]!]

def bytesReprByte (byte : UInt8) : List Char :=
  let c := Char.ofNat byte.toNat
  escaped c (if 0x20 ≤ byte.toNat ∧ byte.toNat ≤ 0x7e then [c]
    else appendHexByte byte)

def bytesRepr (bytes : List UInt8) : List Char :=
  'b' :: '\'' :: (bytes.flatMap bytesReprByte ++ ['\''])

/-! ## Reading -/

def syntaxError (message : String) : BuiltinException :=
  ⟨"SyntaxError", message⟩

def isHexDigit (c : Char) : Bool :=
  ('0' ≤ c && c ≤ '9') || ('a' ≤ c && c ≤ 'f') || ('A' ≤ c && c ≤ 'F')

def hexValue (c : Char) : Nat :=
  if '0' ≤ c ∧ c ≤ '9' then c.toNat - '0'.toNat
  else if 'a' ≤ c ∧ c ≤ 'f' then 10 + (c.toNat - 'a'.toNat)
  else 10 + (c.toNat - 'A'.toNat)

structure LiteralPrefix where
  length : Nat
  isRaw : Bool
  isBytes : Bool

def parseLiteralPrefix : List Char → LiteralPrefix
  | [] => ⟨0, false, false⟩
  | c :: rest =>
      let after := parseLiteralPrefix rest
      let length := after.length + 1
      if c = 'r' ∨ c = 'R' then { after with length, isRaw := true }
      else if c = 'u' ∨ c = 'U' then { after with length }
      else if c = 'b' ∨ c = 'B' then { after with length, isBytes := true }
      else ⟨0, false, false⟩

def stringLiteralBody (token : List Char) (prefixLen : Nat) :
    Except BuiltinException (List Char) :=
  let invalid := .error (syntaxError "Invalid string literal")
  match token.drop prefixLen with
  | [] => invalid
  | quote :: rest =>
      let quoteLen := if rest.take 2 = [quote, quote] then 3 else 1
      if quote ≠ '\'' ∧ quote ≠ '"' then invalid
      else if token.length < prefixLen + quoteLen * 2 then invalid
      else if token.drop (token.length - quoteLen) ≠
        List.replicate quoteLen quote then invalid
      else .ok ((token.drop (prefixLen + quoteLen)).take
        (token.length - prefixLen - quoteLen * 2))

/-- The escapes of one letter. -/
def namedEscape : Char → Option (List Nat)
  | '\n' => some []
  | '\\' => some [0x5c]
  | '\'' => some [0x27]
  | '"' => some [0x22]
  | 'a' => some [0x07]
  | 'b' => some [0x08]
  | 'f' => some [0x0c]
  | 'n' => some [0x0a]
  | 'r' => some [0x0d]
  | 't' => some [0x09]
  | 'v' => some [0x0b]
  | _ => none

/-- A character that stands for itself. -/
def plainUnit (isBytes : Bool) (c : Char) : Except BuiltinException Nat :=
  if isBytes ∧ 0x7f < c.toNat then .error
    (syntaxError "bytes can only contain ASCII literal characters")
  else .ok c.toNat

def hexEscape (count : Nat) (message : String) (rest : List Char) :
    Except BuiltinException (List Nat × List Char) :=
  let found := rest.take count
  if found.length = count ∧ found.all isHexDigit then
    .ok ([found.foldl (fun value h => value * 16 + hexValue h) 0],
      rest.drop count)
  else .error (syntaxError message)

def isOctalDigit (c : Char) : Bool := '0' ≤ c && c ≤ '7'

def octalEscape (esc : Char) (rest : List Char) : List Nat × List Char :=
  let found := (rest.take 2).takeWhile isOctalDigit
  ([(esc :: found).foldl (fun value d => value * 8 + (d.toNat - '0'.toNat)) 0
    % 0x100], rest.drop found.length)

/-- One turn of the loop of a decoder: the units that a character, or an
escape, stands for.  The decoders differ in `\u`, in their messages and in
what may stand for itself. -/
def decodeTurn (isBytes isRaw : Bool) (c : Char) (rest : List Char) :
    Except BuiltinException (List Nat × List Char) := do
  let literal := if isBytes then "bytes literal" else "string literal"
  if c ≠ '\\' ∨ isRaw then
    return ([← plainUnit isBytes c], rest)
  match rest with
  | [] => .error (syntaxError ("Invalid escape in " ++ literal))
  | esc :: rest =>
      match namedEscape esc with
      | some units => return (units, rest)
      | none =>
          if esc = 'x' then
            hexEscape 2 ("Invalid \\x escape in " ++ literal) rest
          else if !isBytes && (esc = 'u' || esc = 'U') then
            hexEscape (if esc = 'u' then 4 else 8)
              ("Invalid unicode escape in " ++ literal) rest
          else if isOctalDigit esc then return octalEscape esc rest
          else return (['\\'.toNat, ← plainUnit isBytes esc], rest)

/-- The loop, with a number of turns; each takes a character at least. -/
def decode (isBytes isRaw : Bool) :
    Nat → List Char → Except BuiltinException (List Nat)
  | _, [] => .ok []
  | 0, _ => .error (syntaxError "")
  | turns + 1, c :: rest => do
      let turn ← decodeTurn isBytes isRaw c rest
      return turn.1 ++ (← decode isBytes isRaw turns turn.2)

def decodePythonStringLiteral (token : List Char) :
    Except BuiltinException (List Nat) := do
  let stringPrefix := parseLiteralPrefix token
  let body ← stringLiteralBody token stringPrefix.length
  if stringPrefix.isRaw then return body.map Char.toNat
  decode false false body.length body

def decodePythonBytesLiteral (token : List Char) :
    Except BuiltinException (List UInt8) := do
  let stringPrefix := parseLiteralPrefix token
  let body ← stringLiteralBody token stringPrefix.length
  let units ← decode true stringPrefix.isRaw body.length body
  return units.map UInt8.ofNat

def isBytesLiteral : List Char → Bool
  | [] => false
  | c :: rest =>
      if c = 'b' ∨ c = 'B' then true
      else if c = 'r' ∨ c = 'R' ∨ c = 'u' ∨ c = 'U' then isBytesLiteral rest
      else false

inductive Literal where
  | string (value : List Nat)
  | bytes (value : List UInt8)
deriving DecidableEq

/-- The case `STRING` of `atom`. -/
def atomString (re : RegexLibrary) (source : List Char) (offset : Nat) :
    Except BuiltinException Literal := do
  let token := stringForStringToken re source offset
  if isBytesLiteral token then
    return .bytes (← decodePythonBytesLiteral token)
  return .string (← decodePythonStringLiteral token)

/-! ## Pieces of a literal -/

variable {isBytes : Bool} {re : RegexLibrary} {c e : Char}

/-- A piece of a literal that the scanner passes, and that a decoder reads in
one turn as one unit. -/
structure Stands (isBytes : Bool) (c : Char) (tail : List Char) (unit : Nat) :
    Prop where
  first : c ≠ '\''
  scanned : ∀ rest i, scanStringBody '\'' 1 (c :: (tail ++ rest)) i false =
    scanStringBody '\'' 1 rest (i + (tail.length + 1)) false
  turn : ∀ rest, decodeTurn isBytes false c (tail ++ rest) = .ok ([unit], rest)

theorem stands_plain (h : escapeLetter c = none)
    (hAscii : isBytes = true → c.toNat ≤ 0x7f) :
    Stands isBytes c [] c.toNat := by
  have hNot : c ≠ '\\' ∧ c ≠ '\'' ∧ c ≠ '\n' ∧ c ≠ '\r' := by
    refine ⟨?_, ?_, ?_, ?_⟩ <;> rintro rfl <;> cases h
  refine ⟨hNot.2.1, ?_, ?_⟩
  · simp [scanStringBody, hNot]
  · have hPlain : ¬ (isBytes = true ∧ 0x7f < c.toNat) := fun hHigh =>
      absurd (hAscii hHigh.1) (not_le.mpr hHigh.2)
    simp [decodeTurn, plainUnit, hNot, hPlain, bind, Except.bind, pure,
      Except.pure]

theorem stands_escape (h : escapeLetter c = some e) :
    Stands isBytes '\\' [e] c.toNat := by
  unfold escapeLetter at h
  split at h
  case h_6 => cases h
  all_goals
    cases h
    refine ⟨by decide, ?_, ?_⟩
    · simp [scanStringBody]
    · intro rest
      rfl

theorem digits_getElem : ∀ n < 16, isHexDigit digits[n]! = true ∧
    hexValue digits[n]! = n ∧ digits[n]! ∉ ['\'', '\\', '\n', '\r'] := by
  decide

theorem stands_hex (byte : UInt8) : Stands true '\\'
    ['x', digits[byte.toNat / 16]!, digits[byte.toNat % 16]!]
    byte.toNat := by
  have hByte := byte.toNat_lt
  have hHigh := digits_getElem (byte.toNat / 16) (by omega)
  have hLow := digits_getElem (byte.toNat % 16) (by omega)
  have hValue : byte.toNat / 16 * 16 + byte.toNat % 16 = byte.toNat := by
    omega
  generalize digits[byte.toNat / 16]! = high at hHigh ⊢
  generalize digits[byte.toNat % 16]! = low at hLow ⊢
  simp only [List.mem_cons, not_or] at hHigh hLow
  refine ⟨by decide, ?_, ?_⟩
  · simp [scanStringBody, hHigh, hLow]
  · simp [decodeTurn, namedEscape, hexEscape, hHigh, hLow, hValue]

theorem str_stands (c : Char) : ∃ first tail,
    escaped c [c] = first :: tail ∧ Stands false first tail c.toNat := by
  unfold escaped
  cases h : escapeLetter c with
  | none => exact ⟨c, [], rfl, stands_plain h (by simp)⟩
  | some e => exact ⟨'\\', [e], rfl, stands_escape h⟩

theorem bytes_stands (byte : UInt8) : ∃ first tail,
    bytesReprByte byte = first :: tail ∧
      Stands true first tail byte.toNat := by
  have hByte := byte.toNat_lt
  have hUnit : (Char.ofNat byte.toNat).toNat = byte.toNat := by
    rw [Char.ofNat, dif_pos (Or.inl (by omega))]
    rfl
  unfold bytesReprByte escaped
  dsimp only
  cases h : escapeLetter (Char.ofNat byte.toNat) with
  | some e => exact ⟨'\\', [e], rfl, hUnit ▸ stands_escape h⟩
  | none =>
      dsimp only
      split
      · have hPlain := @stands_plain true _ h (by omega)
        rw [hUnit] at hPlain
        exact ⟨_, [], rfl, hPlain⟩
      · exact ⟨_, _, rfl, stands_hex byte⟩

/-- The pieces together: the scanner stops at the quote behind them, and the
decoder ends. -/
theorem pieces_read {Item : Type} {write : Item → List Char}
    {unit : Item → Nat} (hStands : ∀ item, ∃ c tail, write item = c :: tail ∧
      Stands isBytes c tail (unit item)) (items : List Item) :
    (∀ rest i, scanStringBody '\'' 1 (items.flatMap write ++ '\'' :: rest) i
      false = ⟨.complete, i + (items.flatMap write).length + 1⟩) ∧
    (items.flatMap write).head? ≠ some '\'' ∧
    (items.flatMap write = [] → items = []) ∧
    ∀ turns, (items.flatMap write).length ≤ turns →
      decode isBytes false turns (items.flatMap write) =
        .ok (items.map unit) := by
  induction items with
  | nil =>
      refine ⟨by simp [scanStringBody], by simp, fun _ => rfl,
        fun turns _ => ?_⟩
      cases turns <;> rfl
  | cons item items ih =>
      obtain ⟨c, tail, hWrite, hItem⟩ := hStands item
      obtain ⟨hScan, -, -, hDecode⟩ := ih
      simp only [List.flatMap_cons, hWrite, List.cons_append, List.append_assoc]
      refine ⟨fun rest i => ?_, by simpa using hItem.first, by simp,
        fun turns hTurns => ?_⟩
      · rw [hItem.scanned, hScan]
        simp
        omega
      · cases turns with
        | zero => simp at hTurns
        | succ turns =>
            simp only [List.length_cons, List.length_append] at hTurns
            simp only [decode, hItem.turn, bind, Except.bind,
              hDecode turns (by omega)]
            rfl

/-! ## The token of a literal -/

/-- The search for the prefix of a string takes as much as it can. -/
def Greedy (re : RegexLibrary) : Prop :=
  ∀ s, re.matched stringPrefixPattern s =
    (s.take 2).takeWhile (· ∈ "rRuUbB".toList)

theorem take_ne {body rest : List Char} (hBody : body.head? ≠ some '\'')
    (hRest : body = [] → rest.head? ≠ some '\'') :
    (body ++ '\'' :: rest).take 2 ≠ ['\'', '\''] := by
  cases body with
  | nil => cases rest <;> simp_all
  | cons c body => simp_all

/-- The scanner takes the text at its position as one string, and the parser
reads it as the literal. -/
structure ReadsAs (re : RegexLibrary) (source : List Char) (sc : Scanner)
    (text : List Char) (literal : Literal) : Prop where
  taken : step re source sc = .ok (sc.take .string text.length)
  text : stringForStringToken re source sc.pos = text
  literal : atomString re source sc.pos = .ok literal

section Tokens

variable {sc : Scanner} {before rest : List Char} (hRe : Greedy re)
  (hState : sc.state = .normal) (hPos : sc.pos = before.length)
include hRe hState hPos

/-- What is written with a prefix of one letter at most is one token. -/
theorem token_read {Item : Type} {write : Item → List Char}
    {unit : Item → Nat} {p text : List Char} (hp : p = [] ∨ p = ['b'])
    (hStands : ∀ item, ∃ c tail, write item = c :: tail ∧
      Stands isBytes c tail (unit item)) {items : List Item}
    (hRest : items = [] → rest.head? ≠ some '\'')
    (hText : p ++ '\'' :: (items.flatMap write ++ ['\'']) = text) :
    step re (before ++ (text ++ rest)) sc =
        .ok (sc.take .string text.length) ∧
      stringForStringToken re (before ++ (text ++ rest)) sc.pos = text ∧
      ∃ body, stringLiteralBody text p.length = .ok body ∧
        decode isBytes false body.length body = .ok (items.map unit) := by
  obtain ⟨hScan, hBody, hNil, hDecode⟩ := pieces_read hStands items
  generalize items.flatMap write = body at *
  have hTake := take_ne hBody fun hEmpty => hRest (hNil hEmpty)
  have hAlone := @take_ne body [] hBody (by simp)
  have hView : sourceView (before ++ (text ++ rest)) sc.pos = text ++ rest := by
    rw [sourceView, hPos, List.drop_left]
  have hToken : scanStringLiteral re (text ++ rest) =
      ⟨.complete, text.length⟩ := by
    rw [scanStringLiteral, hRe, ← hText]
    rcases hp with rfl | rfl <;>
      simp [isStringPrefix, isStringPrefixFrom, hTake, hScan] <;> omega
  refine ⟨?_, ?_, body, ?_, hDecode _ le_rfl⟩
  · have hDefault : stepDefault re (before ++ (text ++ rest)) sc =
        sc.take .string text.length := by
      rw [stepDefault, hView, hToken]
    rw [step, hState, ← hDefault, ← hText]
    rcases hp with rfl | rfl <;>
      simp [stepNormal, hPos, openBracketToken, closeBracketToken,
        operatorToken, isNewline, isBlank]
  · have hLength : 0 < text.length := by
      rw [← hText, List.length_append, List.length_cons]
      omega
    rw [stringForStringToken, hView, findStringLiteralLength, hToken,
      if_pos rfl, if_pos hLength, List.take_left]
  · rw [← hText]
    simp [stringLiteralBody, hAlone]

/-- What `repr` writes of a string or of bytes, anywhere in a source, is one
token, and the parser reads it as the same string or bytes. -/
theorem repr_roundtrip :
    (∀ s : List Char, (s = [] → rest.head? ≠ some '\'') →
      ReadsAs re (before ++ (nativeStrRepr s ++ rest)) sc (nativeStrRepr s)
        (.string (s.map Char.toNat))) ∧
    ∀ bytes : List UInt8, (bytes = [] → rest.head? ≠ some '\'') →
      ReadsAs re (before ++ (bytesRepr bytes ++ rest)) sc (bytesRepr bytes)
        (.bytes bytes) := by
  constructor
  · intro s hRest
    obtain ⟨hTaken, hToken, body, hRead, hDecode⟩ := @token_read _ _ sc before
      rest hRe hState hPos _ _ _ [] (nativeStrRepr s) (Or.inl rfl) str_stands
      s hRest rfl
    refine ⟨hTaken, hToken, ?_⟩
    rw [atomString, hToken]
    simp_all [nativeStrRepr, decodePythonStringLiteral, isBytesLiteral,
      parseLiteralPrefix, bind, Except.bind, pure, Except.pure]
  · intro bytes hRest
    obtain ⟨hTaken, hToken, body, hRead, hDecode⟩ := @token_read _ _ sc before
      rest hRe hState hPos _ _ _ ['b'] (bytesRepr bytes) (Or.inr rfl)
      bytes_stands bytes hRest rfl
    refine ⟨hTaken, hToken, ?_⟩
    rw [atomString, hToken]
    simp_all [bytesRepr, decodePythonBytesLiteral, isBytesLiteral,
      parseLiteralPrefix, bind, Except.bind, pure, Except.pure,
      Function.comp_def]

end Tokens

/-- A library that knows the prefixes of strings. -/
def prefixLibrary : RegexLibrary where
  search _ s := some ((s.take 2).takeWhile (· ∈ "rRuUbB".toList)).length
  wordCharacter := 0

theorem prefixLibrary_greedy : Greedy prefixLibrary := fun s =>
  (List.prefix_iff_eq_take.mp
    ((List.takeWhile_prefix _).trans (List.take_prefix 2 s))).symm

theorem repr_roundtrip_sample :
    ReadsAs prefixLibrary "x='it\\'s'\n".toList { pos := 2, state := .normal }
      "'it\\'s'".toList (.string ("it's".toList.map Char.toNat)) ∧
    ReadsAs prefixLibrary "x=b'\\x00'\n".toList
      { pos := 2, state := .normal } "b'\\x00'".toList (.bytes [0]) := by
  have h := @repr_roundtrip _ { pos := 2, state := .normal } "x=".toList
    "\n".toList prefixLibrary_greedy rfl rfl
  exact ⟨h.1 "it's".toList (by simp), h.2 [0] (by simp)⟩

end CloverVM.Compiler.StringLiteral
