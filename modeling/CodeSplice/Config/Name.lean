/-
Module: CodeSplice.Config.Name
Purpose: The names that a class, a method or a binding can have. A name is made of letters and digits of
  ASCII, underscores and dollar signs, does not start with a digit, and is not a reserved word.
Main exports: isIdentifier, reservedWords, NameFault, nameFault?
-/

namespace CodeSplice

/-- Whether a character may stand at the start of an identifier. -/
def isIdentifierStart (c : Char) : Bool :=
  c.isAlpha || c == '_' || c == '$'

/-- Whether a text is an identifier. Only letters and digits of ASCII count. -/
def isIdentifier (name : String) : Bool :=
  match name.toList with
  | [] => false
  | c :: cs => isIdentifierStart c && cs.all fun c => isIdentifierStart c || c.isDigit

/-- The words that cannot be names. -/
def reservedWords : List String :=
  ["await", "break", "case", "catch", "class", "const", "continue", "debugger", "default", "delete",
    "do", "else", "enum", "export", "extends", "false", "finally", "for", "function", "if",
    "implements", "import", "in", "instanceof", "interface", "let", "new", "null", "package",
    "private", "protected", "public", "return", "static", "super", "switch", "this", "throw", "true",
    "try", "typeof", "var", "void", "while", "with", "yield"]

/-- What can be wrong with a name. -/
inductive NameFault where
  | empty
  | malformed
  | reserved
deriving DecidableEq, Repr, Inhabited

namespace NameFault

/-- What to do about a name. -/
def advice : NameFault → String
  | empty => "identifier is empty"
  | malformed => "use only letters, digits, `_` and `$`, not starting with a digit"
  | reserved => "reserved words cannot be used as names"

end NameFault

/-- What is wrong with a name, if anything is. -/
def nameFault? (name : String) : Option NameFault :=
  if name.isEmpty then some .empty
  else if !isIdentifier name then some .malformed
  else if reservedWords.contains name then some .reserved
  else none

/-- Nothing is wrong with exactly those identifiers that are not reserved. -/
theorem nameFault?_eq_none_iff (name : String) :
    nameFault? name = none ↔ isIdentifier name = true ∧ name ∉ reservedWords := by
  unfold nameFault?
  split
  · rename_i h
    have : name = "" := by simpa using h
    simp [this, isIdentifier]
  · split
    · simp_all
    · split <;> simp_all

end CodeSplice
