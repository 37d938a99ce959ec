/-
Module: CodeSplice.Syntax.Parse
Purpose: The trees of TypeScript source texts.
Main exports: typeScriptAutomaton, parse?
-/
import CodeSplice.Syntax.Grammar.TypeScript
import CodeSplice.Syntax.Search

namespace CodeSplice.Syntax

/-- The grammar of TypeScript, prepared for reading. -/
def typeScriptAutomaton : Automaton :=
  .ofGrammar typeScript

/-- The tree of a source text. A text without a tree has a syntax error. -/
def parse? (source : List Char) : Option Tree :=
  typeScriptAutomaton.read? source

end CodeSplice.Syntax
