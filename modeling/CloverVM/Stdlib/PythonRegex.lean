import CloverVM.Collections.WildcardLanguage
import CloverVM.Stdlib.PythonString

/-!
# Regular expressions in Python's syntax

A reader of the part of Python's `re` syntax that has the form `(?s:…)\z`: a
sequence of characters, escapes, dots, character sets and empty negative
lookaheads, a character possibly repeated by a star.  Other syntax, and syntax
that `re` rejects, is not read.  A character set is read as `re` reads it: a
`]` in front is a member, `a-b` is a range of code points in order, and a dash
that no member follows is itself.
-/

namespace CloverVM.Stdlib.PythonRegex

open scoped Computability

/-- The code points from the first to the second. -/
abbrev Range := CodePoint × CodePoint

inductive Atom where
  | any
  | literal (c : CodePoint)
  | set (negate : Bool) (ranges : List Range)

inductive Piece where
  | one (a : Atom)
  | many (a : Atom)
  | never

/-- The code points in some range of a list. -/
def covered (ranges : List Range) : Set CodePoint :=
  { c | ∃ r ∈ ranges, r.1 ≤ c ∧ c ≤ r.2 }

def Atom.accepts : Atom → Set CodePoint
  | .any => Set.univ
  | .literal c => {c}
  | .set negate ranges =>
      if negate then (covered ranges)ᶜ else covered ranges

/-- The words a piece matches; a dot matches newlines too. -/
def Piece.language : Piece → Language CodePoint
  | .one a => Collections.WildcardLanguage.letter a.accepts
  | .many a => (Collections.WildcardLanguage.letter a.accepts)∗
  | .never => 0

/-- The words that match from the start to the end. -/
def regexLanguage (pieces : List Piece) : Language CodePoint :=
  (pieces.map Piece.language).prod

/-! ## Reading -/

def isAsciiLetterOrDigit (c : CodePoint) : Bool :=
  (ch '0' ≤ c ∧ c ≤ ch '9') ∨ (ch 'A' ≤ c ∧ c ≤ ch 'Z') ∨
    (ch 'a' ≤ c ∧ c ≤ ch 'z')

/-- An escaped code point: other than a letter or a digit it stands for
itself. -/
def takeEscape : Str → Option (CodePoint × Str)
  | [] => none
  | c :: text => if isAsciiLetterOrDigit c then none else some (c, text)

/-- A code point that may be escaped. -/
def takeCode : Str → Option (CodePoint × Str)
  | [] => none
  | c :: text => if c = ch '\\' then takeEscape text else some (c, text)

theorem length_lt_of_takeEscape {text rest : Str} {c : CodePoint}
    (h : takeEscape text = some (c, rest)) : rest.length < text.length := by
  cases text with
  | nil => cases h
  | cons d text =>
      rw [takeEscape] at h
      split at h
      · cases h
      · cases h
        exact Nat.lt_succ_self _

theorem length_lt_of_takeCode {text rest : Str} {c : CodePoint}
    (h : takeCode text = some (c, rest)) : rest.length < text.length := by
  cases text with
  | nil => cases h
  | cons d text =>
      rw [takeCode] at h
      split at h
      · exact Nat.lt_succ_of_lt (length_lt_of_takeEscape h)
      · cases h
        exact Nat.lt_succ_self _

/-- The members of a set up to the closing bracket, which is a member itself
where there is none before it. -/
def parseMembers (started : Bool) (text : Str) : Option (List Range × Str) :=
  if started = true ∧ text.head? = some (ch ']') then some ([], text.tail)
  else
    match h : takeCode text with
    | none => none
    | some (low, rest) =>
        have := length_lt_of_takeCode h
        if rest.head? = some (ch '-') then
          if rest.tail.head? = some (ch ']') then
            some ([(low, low), (ch '-', ch '-')], rest.tail.tail)
          else
            match h' : takeCode rest.tail with
            | none => none
            | some (high, rest') =>
                have := length_lt_of_takeCode h'
                if high < low then none
                else (parseMembers true rest').map fun result =>
                  ((low, high) :: result.1, result.2)
        else (parseMembers true rest).map fun result =>
          ((low, low) :: result.1, result.2)
termination_by text.length
decreasing_by
  · rw [List.length_tail] at this
    omega
  · omega

/-- A set, from the text after the opening bracket on. -/
def parseSet (text : Str) : Option (Atom × Str) :=
  if text.head? = some (ch '^') then
    (parseMembers false text.tail).map fun result =>
      (.set true result.1, result.2)
  else
    (parseMembers false text).map fun result => (.set false result.1, result.2)

/-- The characters that are not literals outside of a set. -/
def specials : Str :=
  [ch '.', ch '^', ch '$', ch '*', ch '+', ch '?', ch '{', ch '[', ch '|',
    ch '(', ch ')']

/-- One character, escape, dot or set. -/
def parseAtom (text : Str) : Option (Atom × Str) :=
  match text with
  | [] => none
  | c :: rest =>
      if c = ch '.' then some (.any, rest)
      else if c = ch '[' then parseSet rest
      else if specials.contains c then none
      else (takeCode (c :: rest)).map fun result =>
        (.literal result.1, result.2)

/-- The pieces up to the closing parenthesis; the fuel is the length of the
text. -/
def parsePieces : Nat → Str → Option (List Piece × Str)
  | 0, _ => none
  | fuel + 1, text =>
      if text.head? = some (ch ')') then some ([], text.tail)
      else if [ch '(', ch '?', ch '!', ch ')'].isPrefixOf text then
        (parsePieces fuel (text.drop 4)).map fun result =>
          (.never :: result.1, result.2)
      else do
        let (atom, rest) ← parseAtom text
        if rest.head? = some (ch '*') then
          (parsePieces fuel rest.tail).map fun result =>
            (.many atom :: result.1, result.2)
        else
          (parsePieces fuel rest).map fun result =>
            (.one atom :: result.1, result.2)

/-- `(?s:…)\z` -/
def parse (text : Str) : Option (List Piece) :=
  if [ch '(', ch '?', ch 's', ch ':'].isPrefixOf text then do
    let (pieces, rest) ← parsePieces text.length (text.drop 4)
    if rest = [ch '\\', ch 'z'] then some pieces else none
  else none

end CloverVM.Stdlib.PythonRegex
