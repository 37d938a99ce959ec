/-
Module: CodeSplice.Syntax.Token
Purpose: The tokens of TypeScript source. What a stretch of text is read as depends on where it
  stands: a slash may divide or open a regular expression, a word may be a name or a keyword. So a
  token holds the terminal that it was read as beside its text.
Main exports: Extent, TokenKind, Terminal, Token
-/
import CodeSplice.Layout.Measure

namespace CodeSplice.Syntax

open Layout

/-- Where a piece of source stands: its span, and the rows (counted from zero) of its first and last
character. -/
structure Extent where
  span : Span
  row : Nat
  endRow : Nat
deriving DecidableEq, Repr, Inhabited

namespace Extent

/-- The position of the first character. -/
def start (extent : Extent) : Nat := extent.span.start

/-- The position behind the last character. -/
def stop (extent : Extent) : Nat := extent.span.stop

/-- Whether the piece stands on a single row. -/
def oneRow (extent : Extent) : Bool := extent.row == extent.endRow

/-- From the start of one piece to the end of another. -/
def cover (first last : Extent) : Extent :=
  ⟨⟨first.start, last.stop⟩, first.row, last.endRow⟩

end Extent

/-- The kinds of tokens that are not told apart by their spelling. -/
inductive TokenKind where
  | word
  | number
  | privateName
  /-- The text between the slashes of a regular expression. -/
  | regexBody
  /-- The slash that closes a regular expression. -/
  | regexEnd
  | regexFlags
  /-- Plain text in a string between double quotes. -/
  | doubleText
  /-- Plain text in a string between single quotes. -/
  | singleText
  /-- Plain text in a template. -/
  | templateText
  | escape
  /-- The question mark of a conditional expression. -/
  | choiceMark
  /-- The end of a statement that no semicolon marks; it has no text. -/
  | lineEnd
  /-- The end of a signature without a body. No text is read as it, but where it could stand a brace
  does not end a line. -/
  | signatureEnd
  | comment
  /-- A line that begins as an HTML comment does. -/
  | markup
  /-- The interpreter line at the top of a script. -/
  | interpreter
  | endOfText
deriving DecidableEq, Repr, Inhabited

/-- What a grammar reads a token as: one spelling, or any text of a kind. -/
inductive Terminal where
  | spelled (text : List Char)
  | kind (kind : TokenKind)
deriving DecidableEq, Repr, Inhabited

/-- A token: the terminal that it was read as, its text and its place. -/
structure Token where
  terminal : Terminal
  text : String
  extent : Extent
deriving DecidableEq, Repr, Inhabited

namespace Token

/-- Whether a token is of the given kind. -/
def is (token : Token) (kind : TokenKind) : Bool :=
  token.terminal == .kind kind

/-- Whether a token may stand between any two others. -/
def floats (token : Token) : Bool :=
  token.is .comment || token.is .markup

end Token

end CodeSplice.Syntax
