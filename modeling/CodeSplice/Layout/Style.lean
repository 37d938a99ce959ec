/-
Module: CodeSplice.Layout.Style
Purpose: The settings of canonical output: the indentation, the quotes around module specifiers and
  the width from which an import is broken into one binding per line.
Main exports: Quote, Quote.forText, Style
-/
import CodeSplice.Layout.Indent

namespace CodeSplice.Layout

/-- The quote character preferred around module specifiers. -/
inductive Quote where
  | single
  | double
deriving DecidableEq, Repr, Inhabited

namespace Quote

/-- The character itself. -/
def char : Quote → Char
  | single => '\''
  | double => '"'

/-- The other quote. -/
def other : Quote → Quote
  | single => double
  | double => single

/-- The character to put around `text`: the preferred one, unless `text` contains it. -/
def forText (quote : Quote) (text : String) : Char :=
  if text.toList.contains quote.char then quote.other.char else quote.char

end Quote

/-- How a document is rendered. -/
structure Style where
  indent : Indent := .two
  quote : Quote := .single
  printWidth : Nat := 100
deriving DecidableEq, Repr, Inhabited

end CodeSplice.Layout
