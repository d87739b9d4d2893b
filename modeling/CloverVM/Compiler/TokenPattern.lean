import Mathlib.Computability.RegularExpressions

/-!
# The patterns of the tokenizer

The regular expressions for names, numbers and string prefixes, all anchored
at the start of the text, and the library that searches for them.  What the
library relies on is what its documentation says: a match is a prefix of the
text in the language of the expression, and there is none only when no prefix
is.  Which of several prefixes it takes is left to it, and so is the class of
word characters.
-/

namespace CloverVM.Compiler.TokenPattern

abbrev Pattern := RegularExpression Char

/-- A character of the class. -/
def oneOf (cs : String) : Pattern :=
  (cs.toList.map RegularExpression.char).foldr (· + ·) 0

def opt (p : Pattern) : Pattern := 1 + p

def plus (p : Pattern) : Pattern := p * p.star

def digit : Pattern := oneOf "0123456789"

/-- `d(?:_?d)*`, the digits of a number after its first. -/
def digitsAfter (d : Pattern) : Pattern := (opt (oneOf "_") * d).star

def intNumberPattern : Pattern :=
  oneOf "0" * oneOf "xX" *
      plus (opt (oneOf "_") * oneOf "0123456789abcdefABCDEF") +
    oneOf "0" * oneOf "bB" * plus (opt (oneOf "_") * oneOf "01") +
    oneOf "0" * oneOf "oO" * plus (opt (oneOf "_") * oneOf "01234567") +
    (oneOf "0" * digitsAfter (oneOf "0") +
      oneOf "123456789" * digitsAfter digit)

def decimal : Pattern := digit * digitsAfter digit

def exponent : Pattern := oneOf "eE" * opt (oneOf "+" + oneOf "-") * decimal

def floatNumberPattern : Pattern :=
  (opt decimal * oneOf "." * decimal + decimal * oneOf ".") * opt exponent +
    decimal * exponent

def stringPrefixPattern : Pattern :=
  opt (oneOf "rRuUbB") * opt (oneOf "rRuUbB")

/-- `search` gives the length of the match at the start of a text. -/
structure RegexLibrary where
  search : Pattern → List Char → Option Nat
  wordCharacter : Pattern

namespace RegexLibrary

def namePattern (re : RegexLibrary) : Pattern := plus re.wordCharacter

structure Lawful (re : RegexLibrary) : Prop where
  found : ∀ p s n, re.search p s = some n →
    n ≤ s.length ∧ s.take n ∈ p.matches'
  notFound : ∀ p s, re.search p s = none →
    ∀ n, n ≤ s.length → s.take n ∉ p.matches'

/-- The match at the start of a text, empty when there is none. -/
def matched (re : RegexLibrary) (p : Pattern) (s : List Char) : List Char :=
  s.take ((re.search p s).getD 0)

end RegexLibrary

end CloverVM.Compiler.TokenPattern
