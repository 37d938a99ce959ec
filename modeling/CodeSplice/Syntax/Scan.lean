/-
Module: CodeSplice.Syntax.Scan
Purpose: The token that comes next in a text, given the terminals that can come next. Some tokens are
  made only where they can stand: the end of a statement at the end of a line, the text of strings,
  templates and regular expressions, and keywords. Otherwise the longest token at the front of the
  text counts.
Main exports: Cursor, Expectation, Expectation.next?
-/
import CodeSplice.Syntax.Automaton.Alphabet
import CodeSplice.Syntax.Lexeme

namespace CodeSplice.Syntax

open Layout Text

/-! ### Places -/

/-- A place in a text: its position and row, and the text from there on. -/
structure Cursor where
  position : Nat := 0
  row : Nat := 0
  rest : List Char
deriving Repr, Inhabited

namespace Cursor

/-- The place after some more characters. -/
def forward (cursor : Cursor) (length : Nat) : Cursor where
  position := cursor.position + length
  row := cursor.row + (cursor.rest.take length).count '\n'
  rest := cursor.rest.drop length

/-- The token of the next characters. -/
def token (cursor : Cursor) (terminal : Terminal) (length : Nat) : Token where
  terminal
  text := String.ofList (cursor.rest.take length)
  extent := ⟨⟨cursor.position, cursor.position + length⟩, cursor.row, (cursor.forward length).row⟩

end Cursor

/-- A token in sight: the terminal that it is read as, the number of characters in front of it, and its
length. -/
structure Sighting where
  terminal : Terminal
  skip : Nat := 0
  length : Nat
deriving DecidableEq, Repr, Inhabited

/-- The token of a sighting, and the place behind it. -/
def Cursor.take (cursor : Cursor) (sighting : Sighting) : Token × Cursor :=
  let cursor := cursor.forward sighting.skip
  (cursor.token sighting.terminal sighting.length, cursor.forward sighting.length)

/-- The terminals that can come next. -/
structure Expectation where
  alphabet : Alphabet
  terminals : SymbolSet
deriving Repr, Inhabited

namespace Expectation

/-- Whether a terminal can come next. -/
def has (expectation : Expectation) (terminal : Terminal) : Bool :=
  expectation.terminals.holds (expectation.alphabet.terminalCode terminal)

/-- Whether a token of a kind can come next. -/
def hasKind (expectation : Expectation) (kind : TokenKind) : Bool :=
  expectation.terminals.holds kind.ctorIdx

/-- Whether an operator between expressions can come next. -/
def hasOperator (expectation : Expectation) : Bool :=
  expectation.has (.spelled "||".toList)

end Expectation

/-! ### Looking ahead -/

/-- The character at the front; at the end of the text it is NUL. -/
def peek (cs : List Char) : Char :=
  cs.head?.getD '\x00'

/-- The characters that end a line between statements. -/
def breaksLine (c : Char) : Bool :=
  c == '\n' || c == '\u2028' || c == '\u2029'

/-- Where looking for the end of a statement leads to. -/
inductive Ending where
  /-- The statement ends. -/
  | here
  /-- It goes on with the given text; `remarked` says whether comments stand in front of it. -/
  | goesOn (rest : List Char) (remarked : Bool)
deriving Repr, Inhabited

/-- Whether a statement ends before the text at the start of a new line. It does not if the text goes on
with an operator; an opening brace ends it unless a body can come next, and another opening bracket
only where no operator can come next. -/
def endsBefore (expectation : Expectation) (remarked : Bool) (cs : List Char) : Ending :=
  let goesOn := Ending.goesOn cs remarked
  match cs with
  | '\x7b' :: _ => if expectation.hasKind .signatureEnd then goesOn else .here
  | '(' :: _ | '[' :: _ => if expectation.hasOperator then goesOn else .here
  | '+' :: rest => if peek rest == '+' then .here else .goesOn rest remarked
  | '-' :: rest => if peek rest == '-' then .here else .goesOn rest remarked
  | '!' :: rest => if peek rest == '=' then .goesOn rest remarked else .here
  | 'i' :: 'n' :: rest =>
    let suffix := "stanceof".toList
    let behind := if suffix.isPrefixOf rest then rest.drop suffix.length else rest
    if !(peek rest).isAlpha then .goesOn rest remarked
    else if suffix.isPrefixOf rest && !(peek behind).isAlpha then .goesOn behind remarked
    else .here
  | c :: _ => if "\x60,.;*%><=?^|&/:".toList.contains c then goesOn else .here
  | [] => .here

/-- Whether a statement ends before a text that follows a line feed, behind white space and comments. -/
def endsOnLine (expectation : Expectation) (fuel : Nat) (remarked : Bool) (cs : List Char) : Ending :=
  match fuel with
  | 0 => .here
  | fuel + 1 =>
    match cs.dropWhile isPlainGap with
    | '/' :: '/' :: rest =>
      endsOnLine expectation fuel true (rest.dropWhile fun c => !breaksLine c && c != '\x00')
    | '/' :: '*' :: rest =>
      match blockCommentLength (rest.takeWhile (· != '\x00')) with
      | some length => endsOnLine expectation fuel true (rest.drop length)
      | none => .here
    | '/' :: rest => .goesOn rest remarked
    | '\x00' :: _ => .here
    | rest => endsBefore expectation remarked rest

/-- Whether a statement ends before the given text without a semicolon: it ends before a closing brace,
at the end of the text, and at the end of a line. -/
def ending (expectation : Expectation) : List Char → Ending
  | [] => .here
  | '\x00' :: _ => .here
  | '\x7d' :: cs =>
    if peek (cs.dropWhile isPlainGap) == ':' && !expectation.hasOperator then .goesOn [] false
    else .here
  | '\n' :: cs => endsOnLine expectation (cs.length + 1) false cs
  | c :: cs => if isPlainGap c then ending expectation cs else .goesOn (c :: cs) false

/-- The question mark of a conditional expression. It is told from the marks of optional parameters and
of optional access by what stands behind it. -/
def choiceMark? (cs : List Char) : Option Sighting :=
  let skip := (cs.takeWhile isPlainGap).length
  match cs.drop skip with
  | '?' :: rest =>
    let sighting : Sighting := { terminal := .kind .choiceMark, skip, length := 1 }
    match rest.dropWhile isPlainGap with
    | '.' :: d :: _ => if peek rest != '?' && d.isDigit then some sighting else none
    | behind => if peek rest == '?' || ":),.".toList.contains (peek behind) then none else some sighting
  | _ => none

/-- A line that begins as an HTML comment does. -/
def markup? (cs : List Char) : Option Sighting :=
  let skip := (cs.takeWhile fun c => isPlainGap c || c == '\u2028' || c == '\u2029').length
  let rest := cs.drop skip
  if "<!--".toList.isPrefixOf rest || "-->".toList.isPrefixOf rest then
    some
      { terminal := .kind .markup
        skip
        length := (rest.takeWhile fun c => !breaksLine c && c != '\x00').length }
  else none

/-- The text of a regular expression, unless a comment that begins in it reaches farther. -/
def regexBody? (cs : List Char) : Option Sighting :=
  let length := regexBodyLength 0 cs
  let skip := (cs.takeWhile isGap).length
  let remark := commentLength (cs.drop skip)
  if remark != 0 && length < skip + remark && (length == 0 || skip ≤ length) then
    some { terminal := .kind .comment, skip, length := remark }
  else if length != 0 then some { terminal := .kind .regexBody, length }
  else none

namespace Expectation

variable (expectation : Expectation)

/-! ### Tokens that stand only where they are expected -/

/-- The end of a statement; failing that, the question mark of a conditional expression that goes on
where the statement could have ended. -/
def lineEnd? (cs : List Char) : Option Sighting :=
  match ending expectation cs with
  | .here => some { terminal := .kind .lineEnd, length := 0 }
  | .goesOn rest remarked =>
    if !remarked && peek rest == '?' && expectation.hasKind .choiceMark then
      (choiceMark? rest).map fun sighting =>
        { sighting with skip := sighting.skip + (cs.length - rest.length) }
    else none

/-- A token that is looked for before all others. -/
def special? (cs : List Char) : Option Sighting :=
  if expectation.hasKind .templateText then
    match templateTextLength cs with
    | some (length + 1) => some { terminal := .kind .templateText, length := length + 1 }
    | _ => none
  else if expectation.hasKind .lineEnd || expectation.hasKind .signatureEnd then
    expectation.lineEnd? cs
  else if expectation.hasKind .choiceMark then choiceMark? cs
  else if expectation.hasOperator || expectation.hasKind .escape ||
      expectation.hasKind .regexBody then none
  else markup? cs

/-- A token that begins directly at the front, white space included. -/
def immediate? (cs : List Char) : Option Sighting :=
  let sighting (kind : TokenKind) (lengthOf : List Char → Nat) : Option Sighting :=
    if expectation.hasKind kind && lengthOf cs != 0 then
      some { terminal := .kind kind, length := lengthOf cs }
    else none
  sighting .doubleText (textLength '"')
    <|> sighting .singleText (textLength '\'')
    <|> sighting .escape escapeLength

/-! ### The longest token -/

/-- The longer of two tokens in sight, the first one if they are of the same length. -/
def longer (first second : Sighting) : Sighting :=
  if first.length < second.length then second else first

/-- How a word is read: as a keyword if that keyword can come next, otherwise as a name. -/
def wordTerminal (text : List Char) : Terminal :=
  if expectation.has (.spelled text) then .spelled text else .kind .word

/-- The tokens at the front of a text, which does not begin with white space. -/
def candidates (cs : List Char) : List Sighting :=
  let marks := expectation.alphabet.marks.filterMap fun (text, code) =>
    if expectation.terminals.holds code && text.isPrefixOf cs then
      some { terminal := .spelled text, length := text.length }
    else none
  let sighting (kind : TokenKind) (lengthOf : List Char → Nat) : List Sighting :=
    if expectation.hasKind kind then [{ terminal := .kind kind, length := lengthOf cs }] else []
  let words :=
    if expectation.terminals.inter expectation.alphabet.words != 0 then
      let length := wordLength cs
      [{ terminal := expectation.wordTerminal (cs.take length), length }]
    else []
  marks ++ sighting .number numberLength ++ sighting .privateName privateNameLength
    ++ sighting .interpreter interpreterLength ++ words

/-- The longest token behind the white space at the front. Where the flags of a regular expression can
stand they win over other tokens of the same length. -/
def longest? (cs : List Char) : Option Sighting :=
  let skip := (cs.takeWhile isGap).length
  let rest := cs.drop skip
  let remark : Sighting := { terminal := .kind .comment, length := commentLength rest }
  let best := (expectation.candidates rest).foldl longer remark
  let flags := if expectation.hasKind .regexFlags then flagsLength cs else 0
  if flags != 0 && best.length ≤ flags then some { terminal := .kind .regexFlags, length := flags }
  else if best.length != 0 then some { best with skip }
  else if rest.isEmpty then some { terminal := .kind .endOfText, skip, length := 0 }
  else none

/-- The token that comes next. -/
def next? (cs : List Char) : Option Sighting :=
  expectation.special? cs
    <|> expectation.immediate? cs
    <|> (if expectation.hasKind .regexBody then regexBody? cs else none)
    <|> (if expectation.hasKind .regexEnd && peek cs == '/' then
          some { terminal := .kind .regexEnd, length := 1 }
        else expectation.longest? cs)

end Expectation

end CodeSplice.Syntax
