import Mathlib.Data.List.Basic

/-!
# Tokens

The tokens of the source language, and the vector that the tokenizer fills: a
token and its offset in the source for each.
-/

namespace CloverVM.Compiler

inductive Token where
  | endmarker
  -- metaclasses
  | name
  | intNumber
  | floatNumber
  | string
  -- indentation handling
  | newline
  | indent
  | dedent
  -- operators
  | lpar
  | rpar
  | lsqb
  | rsqb
  | colon
  | comma
  | semi
  | plus
  | minus
  | star
  | slash
  | vbar
  | amper
  | less
  | greater
  | equal
  | dot
  | percent
  | lbrace
  | rbrace
  | eqequal
  | notequal
  | lessequal
  | greaterequal
  | tilde
  | circumflex
  | leftshift
  | rightshift
  | doublestar
  | plusequal
  | minequal
  | starequal
  | slashequal
  | percentequal
  | amperequal
  | vbarequal
  | circumflexequal
  | leftshiftequal
  | rightshiftequal
  | doublestarequal
  | doubleslash
  | doubleslashequal
  | at
  | atequal
  | rarrow
  | ellipsis
  | colonequal
  | exclamation
  -- keywords
  | kwFalse
  | kwNone
  | kwTrue
  | kwAnd
  | kwAs
  | kwAssert
  | kwAwait
  | kwAsync
  | kwBreak
  | kwClass
  | kwContinue
  | kwDef
  | kwDel
  | kwElif
  | kwElse
  | kwExcept
  | kwFinally
  | kwFor
  | kwFrom
  | kwGlobal
  | kwIf
  | kwImport
  | kwIn
  | kwIs
  | kwLambda
  | kwNonlocal
  | kwNot
  | kwOr
  | kwPass
  | kwRaise
  | kwReturn
  | kwTry
  | kwWhile
  | kwWith
  | kwYield
  -- other
  | typeIgnore
  | typeComment
  | errortokenInvalidCharacter
  | errortokenUnterminatedString
  | errortokenUnterminatedTripleString
  | errortokenOpenBracketEof
deriving DecidableEq, Repr

/-- `TokenVector`: the tokens with their source offsets. -/
abbrev TokenVector := List (Token × Nat)

/-- `make_keyword_token_map`. -/
def keywordTokenMap : List (String × Token) :=
  [("False", .kwFalse), ("None", .kwNone), ("True", .kwTrue), ("and", .kwAnd),
    ("as", .kwAs), ("assert", .kwAssert), ("await", .kwAwait),
    ("async", .kwAsync), ("break", .kwBreak), ("class", .kwClass),
    ("continue", .kwContinue), ("def", .kwDef), ("del", .kwDel),
    ("elif", .kwElif), ("else", .kwElse), ("except", .kwExcept),
    ("finally", .kwFinally), ("for", .kwFor), ("from", .kwFrom),
    ("global", .kwGlobal), ("if", .kwIf), ("import", .kwImport),
    ("in", .kwIn), ("is", .kwIs), ("lambda", .kwLambda),
    ("nonlocal", .kwNonlocal), ("not", .kwNot), ("or", .kwOr),
    ("pass", .kwPass), ("raise", .kwRaise), ("return", .kwReturn),
    ("try", .kwTry), ("while", .kwWhile), ("with", .kwWith),
    ("yield", .kwYield)]

/-- The token of a word: a keyword, or else a name. -/
def tokenOfWord (word : List Char) : Token :=
  (keywordTokenMap.lookup (String.ofList word)).getD .name

end CloverVM.Compiler
