/-
Module: CodeSplice.Toml.Cursor
Purpose: A place in a text: what is still to be read, and how many bytes have been read.
Main exports: Toml.Cursor, Toml.Cursor.drop, Toml.Cursor.spanTo
-/
import CodeSplice.Fault
import CodeSplice.Text.Search
import CodeSplice.Text.Space

namespace CodeSplice.Toml

/-- A place in a text. -/
structure Cursor where
  rest : List Char
  offset : Nat := 0
deriving DecidableEq, Repr, Inhabited

namespace Cursor

/-- Go on by a number of characters. -/
def drop (cursor : Cursor) (count : Nat) : Cursor where
  rest := cursor.rest.drop count
  offset := cursor.offset + Text.byteLength (cursor.rest.take count)

/-- Go on to where `rest`, the end of what is still to be read, begins. -/
def goTo (cursor : Cursor) (rest : List Char) : Cursor :=
  cursor.drop (cursor.rest.length - rest.length)

/-- The span from one place to another. -/
def spanTo (start stop : Cursor) : ByteSpan :=
  ⟨start.offset, stop.offset - start.offset⟩

/-- Go behind a text that is expected here. -/
def skip? (cursor : Cursor) (text : String) : Option Cursor :=
  if text.toList.isPrefixOf cursor.rest then some (cursor.drop text.length) else none

/-- Go behind spaces and tabs. -/
def skipBlanks (cursor : Cursor) : Cursor :=
  cursor.goTo (cursor.rest.dropWhile Text.isBlank)

/-- Go behind the end of a line. -/
def skipBreak? (cursor : Cursor) : Option Cursor :=
  (cursor.skip? "\n").or (cursor.skip? "\x0d\n")

end Cursor

end CodeSplice.Toml
