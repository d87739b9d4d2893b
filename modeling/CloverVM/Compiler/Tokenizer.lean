import CloverVM.Compiler.Token
import CloverVM.Compiler.TokenPattern

/-!
# The tokenizer

The scanner is one loop over the source.  At the start of a line it measures
the indentation and opens or closes blocks; otherwise it takes the token at
its position.  The functions that find a word, a number or a string again from
the offset of its token are those that the scanner uses.

A source is the list of its code points; one file has fewer than `2 ^ 32`.
-/

namespace CloverVM.Compiler.Tokenizer

open CloverVM.Compiler.TokenPattern

/-- The number of values of a `uint32_t`. -/
def uint32Count : Nat := 2 ^ 32

/-- The source code from an offset on. -/
def sourceView (source : List Char) (offset : Nat) : List Char :=
  source.drop offset

/-! ## Strings -/

def isStringPrefixFrom (seenR seenU seenB : Bool) : List Char → Bool
  | [] => true
  | c :: rest =>
      if c = 'r' ∨ c = 'R' then
        if seenR then false else isStringPrefixFrom true seenU seenB rest
      else if c = 'u' ∨ c = 'U' then
        if seenU || seenB then false
        else isStringPrefixFrom seenR true seenB rest
      else if c = 'b' ∨ c = 'B' then
        if seenB || seenU then false
        else isStringPrefixFrom seenR seenU true rest
      else false

/-- `is_string_prefix`. -/
def isStringPrefix (p : List Char) : Bool :=
  if p.isEmpty then true
  else if 2 < p.length then false
  else isStringPrefixFrom false false false p

inductive StringTokenKind where
  | notString
  | complete
  | unterminatedString
  | unterminatedTripleString
deriving DecidableEq, Repr

structure StringTokenScan where
  kind : StringTokenKind
  length : Nat
deriving DecidableEq, Repr

/-- The loop of `scan_string_literal` over the rest of the text, from index
`i` on. -/
def scanStringBody (quote : Char) (quoteLen : Nat) :
    List Char → Nat → Bool → StringTokenScan
  | [], i, _ =>
      if quoteLen = 3 then ⟨.unterminatedTripleString, i⟩
      else ⟨.unterminatedString, i⟩
  | c :: rest, i, escaped =>
      if quoteLen = 1 ∧ (c = '\n' ∨ c = '\r') then ⟨.unterminatedString, i⟩
      else if escaped then scanStringBody quote quoteLen rest (i + 1) false
      else if c = '\\' then scanStringBody quote quoteLen rest (i + 1) true
      else if c = quote then
        if quoteLen = 1 then ⟨.complete, i + 1⟩
        else if rest.take 2 = [quote, quote] then ⟨.complete, i + 3⟩
        else scanStringBody quote quoteLen rest (i + 1) false
      else scanStringBody quote quoteLen rest (i + 1) false

variable (re : RegexLibrary)

def scanStringLiteral (s : List Char) : StringTokenScan :=
  if s.isEmpty then ⟨.notString, 0⟩
  else
    let stringPrefix := re.matched stringPrefixPattern s
    if !isStringPrefix stringPrefix then ⟨.notString, 0⟩
    else
      match s.drop stringPrefix.length with
      | [] => ⟨.notString, 0⟩
      | quote :: rest =>
          if quote ≠ '\'' ∧ quote ≠ '"' then ⟨.notString, 0⟩
          else if rest.take 2 = [quote, quote] then
            scanStringBody quote 3 (rest.drop 2) (stringPrefix.length + 3)
              false
          else scanStringBody quote 1 rest (stringPrefix.length + 1) false

def findStringLiteralLength (s : List Char) : Nat :=
  let scan := scanStringLiteral re s
  if scan.kind = .complete then scan.length else 0

def stringForNameToken (source : List Char) (offset : Nat) : List Char :=
  re.matched re.namePattern (sourceView source offset)

def stringForIntNumberToken (source : List Char) (offset : Nat) : List Char :=
  re.matched intNumberPattern (sourceView source offset)

def stringForFloatNumberToken (source : List Char) (offset : Nat) :
    List Char :=
  re.matched floatNumberPattern (sourceView source offset)

def stringForNumberToken (source : List Char) (offset : Nat) : List Char :=
  let m := stringForFloatNumberToken re source offset
  if m.isEmpty then stringForIntNumberToken re source offset else m

def stringForStringToken (source : List Char) (offset : Nat) : List Char :=
  let s := sourceView source offset
  let literalLen := findStringLiteralLength re s
  if 0 < literalLen then s.take literalLen else []

/-- An operator with or without an equals sign after it, and its length. -/
def orEqual (c2 : Char) (withEqual alone : Token) : Token × Nat :=
  if c2 = '=' then (withEqual, 2) else (alone, 1)

/-- An operator that may also be doubled. -/
def orDoubled (c c2 c3 : Char) (withEqual doubledEqual doubled alone : Token) :
    Token × Nat :=
  if c2 = '=' then (withEqual, 2)
  else if c2 = c then
    if c3 = '=' then (doubledEqual, 3) else (doubled, 2)
  else (alone, 1)

/-- The token of an operator that is no bracket, and its length.  A dot before
a digit is none. -/
def operatorToken (c c2 c3 : Char) : Option (Token × Nat) :=
  match c with
  | ':' => some (orEqual c2 .colonequal .colon)
  | ',' => some (.comma, 1)
  | ';' => some (.semi, 1)
  | '+' => some (orEqual c2 .plusequal .plus)
  | '-' =>
      some (if c2 = '=' then (.minequal, 2)
        else if c2 = '>' then (.rarrow, 2)
        else (.minus, 1))
  | '*' =>
      some (orDoubled '*' c2 c3 .starequal .doublestarequal .doublestar .star)
  | '/' =>
      some (orDoubled '/' c2 c3 .slashequal .doubleslashequal .doubleslash
        .slash)
  | '|' => some (orEqual c2 .vbarequal .vbar)
  | '&' => some (orEqual c2 .amperequal .amper)
  | '<' =>
      some (orDoubled '<' c2 c3 .lessequal .leftshiftequal .leftshift .less)
  | '>' =>
      some (orDoubled '>' c2 c3 .greaterequal .rightshiftequal .rightshift
        .greater)
  | '=' => some (orEqual c2 .eqequal .equal)
  | '.' =>
      if c2 = '.' ∧ c3 = '.' then some (.ellipsis, 3)
      else if '0' ≤ c2 ∧ c2 ≤ '9' then none
      else some (.dot, 1)
  | '%' => some (orEqual c2 .percentequal .percent)
  | '!' => some (orEqual c2 .notequal .exclamation)
  | '~' => some (.tilde, 1)
  | '^' => some (orEqual c2 .circumflexequal .circumflex)
  | '@' => some (orEqual c2 .atequal .at)
  | _ => none

def openBracketToken : Char → Option Token
  | '(' => some .lpar
  | '[' => some .lsqb
  | '{' => some .lbrace
  | _ => none

def closeBracketToken : Char → Option Token
  | ')' => some .rpar
  | ']' => some .rsqb
  | '}' => some .rbrace
  | _ => none

def isNewline (c : Char) : Bool := c = '\n' ∨ c = '\r'

def isBlank (c : Char) : Bool := c = ' ' ∨ c = '\x0c' ∨ c = '\t'

/-! ## The scanner -/

inductive ScannerState where
  | startLine
  | normal
deriving DecidableEq, Repr

/-- The variables of `tokenize`.  The last of `indents` comes first here. -/
structure Scanner where
  tokens : TokenVector := []
  indents : List Nat := [0]
  pos : Nat := 0
  bracketDepth : Nat := 0
  state : ScannerState := .startLine
deriving DecidableEq, Repr

namespace Scanner

def emplaceBack (sc : Scanner) (token : Token) (offset : Nat) : Scanner :=
  { sc with tokens := sc.tokens ++ [(token, offset)] }

/-- A token at the position, which moves past it. -/
def take (sc : Scanner) (token : Token) (length : Nat) : Scanner :=
  { sc.emplaceBack token sc.pos with pos := sc.pos + length }

def indentsBack (sc : Scanner) : Nat := sc.indents.headD 0

/-- The last token is a newline, or there is none. -/
def afterNewline (sc : Scanner) : Bool :=
  match sc.tokens.getLast? with
  | none => false
  | some last => last.1 = .newline

end Scanner

/-- The raised exception, by its type and message. -/
structure SyntaxError where
  type : String
  message : String
deriving DecidableEq, Repr

def tabsize : Nat := 8

/-- The column after the blanks at the start of a line, and their number. -/
def measureIndentation : List Char → Nat → Nat × Nat
  | [], column => (column, 0)
  | c :: rest, column =>
      if c = ' ' then
        let r := measureIndentation rest ((column + 1) % uint32Count)
        (r.1, r.2 + 1)
      else if c = '\t' then
        let r := measureIndentation rest
          ((column / tabsize + 1) * tabsize % uint32Count)
        (r.1, r.2 + 1)
      else if c = '\x0c' then
        let r := measureIndentation rest 0
        (r.1, r.2 + 1)
      else (column, 0)

/-- The loop that closes the blocks deeper than the column. -/
def closeBlocks (column offset : Nat) :
    List Nat → TokenVector → List Nat × TokenVector
  | [], tokens => ([], tokens)
  | indent :: below, tokens =>
      if column < indent then
        closeBlocks column offset below (tokens ++ [(.dedent, offset)])
      else (indent :: below, tokens)

def openBlock (column : Nat) (sc : Scanner) : Scanner :=
  if sc.indentsBack < column then
    { sc.emplaceBack .indent sc.pos with indents := column :: sc.indents }
  else sc

def dedentTo (column : Nat) (sc : Scanner) : Except SyntaxError Scanner :=
  if column < sc.indentsBack then
    if column ∈ sc.indents then
      let r := closeBlocks column sc.pos sc.indents sc.tokens
      .ok { sc with indents := r.1, tokens := r.2 }
    else
      .error ⟨"IndentationError",
        "unindent does not match any outer indentation level " ++
          toString column⟩
  else .ok sc

/-- The case `START_LINE`. -/
def stepStartLine (source : List Char) (sc : Scanner) :
    Except SyntaxError Scanner := do
  let r := measureIndentation (sourceView source sc.pos) 0
  let sc := { sc with pos := sc.pos + r.2 }
  match sourceView source sc.pos with
  | [] => return sc
  | c :: _ =>
      if c = '#' ∨ isNewline c then return { sc with state := .normal }
      else
        let sc ← dedentTo r.1 (openBlock r.1 sc)
        return { sc with state := .normal }

/-- The run of newlines at the start of a text. -/
def newlines (s : List Char) : Nat := (s.takeWhile isNewline).length

def stepNewline (source : List Char) (sc : Scanner) : Scanner :=
  let pos := sc.pos + newlines (sourceView source sc.pos)
  if 0 < sc.bracketDepth then { sc with pos }
  else
    let sc := if sc.afterNewline then sc else sc.emplaceBack .newline sc.pos
    { sc with pos, state := .startLine }

/-- The default case: strings, numbers, words and what is left. -/
def stepDefault (source : List Char) (sc : Scanner) : Scanner :=
  let scan := scanStringLiteral re (sourceView source sc.pos)
  match scan.kind with
  | .complete => sc.take .string scan.length
  | .unterminatedString =>
      sc.take .errortokenUnterminatedString (max scan.length 1)
  | .unterminatedTripleString =>
      sc.take .errortokenUnterminatedTripleString (max scan.length 1)
  | .notString =>
      let float := stringForFloatNumberToken re source sc.pos
      if !float.isEmpty then sc.take .floatNumber float.length
      else
        let int := stringForIntNumberToken re source sc.pos
        if !int.isEmpty then sc.take .intNumber int.length
        else
          let word := stringForNameToken re source sc.pos
          if !word.isEmpty then sc.take (tokenOfWord word) word.length
          else sc.take .errortokenInvalidCharacter 1

/-- The case `NORMAL`. -/
def stepNormal (source : List Char) (sc : Scanner) : Scanner :=
  let c := source.getD sc.pos '\x00'
  let c2 := source.getD (sc.pos + 1) '\x00'
  let c3 := source.getD ((sc.pos + 2) % uint32Count) '\x00'
  match openBracketToken c with
  | some token =>
      { sc.take token 1 with bracketDepth := sc.bracketDepth + 1 }
  | none =>
      match closeBracketToken c with
      | some token =>
          { sc.take token 1 with bracketDepth := sc.bracketDepth - 1 }
      | none =>
          match operatorToken c c2 c3 with
          | some r => sc.take r.1 r.2
          | none =>
              if c = '.' then
                sc.take .floatNumber
                  (stringForFloatNumberToken re source sc.pos).length
              else if isNewline c then stepNewline source sc
              else if isBlank c then { sc with pos := sc.pos + 1 }
              else if c = '#' then
                { sc with
                  pos := sc.pos + 1 +
                    ((sourceView source (sc.pos + 1)).takeWhile
                      fun c => !isNewline c).length }
              else stepDefault re source sc

/-- One round of the loop. -/
def step (source : List Char) (sc : Scanner) : Except SyntaxError Scanner :=
  match sc.state with
  | .startLine => stepStartLine source sc
  | .normal => .ok (stepNormal re source sc)

/-- The loop, for at most so many rounds; none when it has not ended. -/
def loop (source : List Char) :
    Nat → Scanner → Option (Except SyntaxError Scanner)
  | 0, sc => if sc.pos < source.length then none else some (.ok sc)
  | rounds + 1, sc =>
      if sc.pos < source.length then
        match step re source sc with
        | .error e => some (.error e)
        | .ok sc => loop source rounds sc
      else some (.ok sc)

/-- What follows the loop. -/
def finish (source : List Char) (sc : Scanner) : TokenVector :=
  let sc :=
    if 0 < sc.bracketDepth then
      sc.emplaceBack .errortokenOpenBracketEof source.length
    else if sc.afterNewline then sc
    else sc.emplaceBack .newline source.length
  sc.tokens ++
    List.replicate (sc.indents.length - 1) (.dedent, source.length) ++
    [(.endmarker, source.length)]

/-- `tokenize`, with at most so many rounds of its loop. -/
def tokenize (source : List Char) (rounds : Nat) :
    Option (Except SyntaxError TokenVector) :=
  if uint32Count ≤ source.length then
    some (.error ⟨"SyntaxError", "source file too large"⟩)
  else
    (loop re source rounds {}).map fun r => r.map (finish source)

end CloverVM.Compiler.Tokenizer
