/-
Module: CodeSplice.Syntax.Grammar.Words
Purpose: The parts of TypeScript productions that are no phrases of their own: names, the ends of
  statements, and what can be assigned to.
Main exports: word, name, lineEnd, semicolon, expressions, assignable
-/
import CodeSplice.Syntax.Grammar.Basic

namespace CodeSplice.Syntax.TypeScript

open Body Phrase

/-- A word that is no keyword where it stands. -/
def word : Body := TokenKind.word

/-- The end of a statement at the end of a line, before a closing brace or at the end of the text. -/
def lineEnd : Body := TokenKind.lineEnd

/-- The end of a statement. -/
def semicolon : Body :=
  any [lineEnd, ";"]

/-- The words that are keywords in some places and names in all others. -/
def contextualWord : Body :=
  any
    ["declare", "namespace", "type", "public", "private", "protected", "override", "readonly",
      "module", "any", "number", "boolean", "string", "symbol", "export", "object", "new", "get",
      "set", "async", "static", "let"]

/-- A name. -/
def name : Body :=
  any [word, contextualWord]

/-- A name that stands for a value. -/
def valueName : Body :=
  any ["undefined", word]

/-- The name of a property behind a point. -/
def propertyWord : Body :=
  any [TokenKind.privateName, word]

/-- One expression, or several between commas. -/
def expressions : Body :=
  any [expression, sequence]

/-- What can be assigned to. -/
def assignable : Body :=
  any [member, subscript, valueName, contextualWord, destructuring, nonNull]

end CodeSplice.Syntax.TypeScript
