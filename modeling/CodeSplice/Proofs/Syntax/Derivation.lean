/-
Module: CodeSplice.Proofs.Syntax.Derivation
Purpose: What a tree owes to the grammar. The symbols of the parts of a phrase lead from slot to slot,
  up to one where the phrase can end; comments between the parts do not count, and none stands in front
  of the first one or behind the last.
Main exports: Tree.symbol, Automaton.Runs, Automaton.Makes, Tree.Derived
-/
import CodeSplice.Syntax.Automaton.State
import CodeSplice.Syntax.Tree

namespace CodeSplice.Syntax

/-- The symbol that a tree is. -/
def Tree.symbol : Tree → Symbol
  | leaf token => .terminal token.terminal
  | node phrase _ _ _ => .phrase phrase

/-- Trees that are alike are of the same symbol. -/
theorem Tree.symbol_eq_of_alike {first second : Tree} (h : first.alike second = true) :
    first.symbol = second.symbol := by
  unfold alike at h
  cases first <;> cases second <;> simp_all [symbol]

/-- The symbols of a sequence of trees. Those that may stand anywhere do not count. -/
def symbolsOf (trees : List Tree) : List Symbol :=
  (trees.filter fun tree => !tree.floats).map Tree.symbol

theorem symbolsOf_cons (tree : Tree) (trees : List Tree) :
    symbolsOf (tree :: trees) =
      if tree.floats then symbolsOf trees else tree.symbol :: symbolsOf trees := by
  cases h : tree.floats <;> simp [symbolsOf, h]

theorem symbolsOf_append (first second : List Tree) :
    symbolsOf (first ++ second) = symbolsOf first ++ symbolsOf second := by
  simp [symbolsOf]

/-- Trees that may stand anywhere have no symbols that count. -/
theorem symbolsOf_eq_nil {trees : List Tree} (h : ∀ tree ∈ trees, tree.floats = true) :
    symbolsOf trees = [] := by
  simp only [symbolsOf, List.map_eq_nil_iff, List.filter_eq_nil_iff]
  intro tree htree
  simp [h tree htree]

namespace Automaton

variable (automaton : Automaton)

/-- The symbols from the beginning of a phrase lead to a slot. -/
inductive Runs : List Symbol → Nat → Prop where
  /-- In front of a text. -/
  | start : Runs [] 0
  | begins {symbol : Symbol} {entry : Nat × List Nat} {slot : Nat}
      (mem : entry ∈ automaton.starters.getD (automaton.outline.alphabet.code symbol) [])
      (slot_mem : slot ∈ entry.2) : Runs [symbol] slot
  | goesOn {symbols : List Symbol} {slot : Nat} {symbol : Symbol} {arc : Arc}
      (runs : Runs symbols slot) (mem : arc ∈ (automaton.slot slot).next)
      (code_eq : arc.code = automaton.outline.alphabet.code symbol) :
      Runs (symbols ++ [symbol]) arc.slot

/-- The symbols make a phrase. -/
def Makes (symbols : List Symbol) (phrase : Phrase) : Prop :=
  ∃ slot, automaton.Runs symbols slot ∧ (automaton.slot slot).final = true ∧
    (automaton.slot slot).phrase = phrase

end Automaton

/-- Every phrase in a tree is made by its parts. -/
inductive Tree.Derived (automaton : Automaton) : Tree → Prop where
  | leaf {token : Token} (inText : token.is .endOfText = false) : Derived automaton (.leaf token)
  | node {phrase : Phrase} {extent : Extent} {weight : Int} {parts : List Tree} {first last : Tree}
      (derived : ∀ part ∈ parts, Derived automaton part)
      (head : parts.head? = some first) (counts : first.floats = false)
      (tail : parts.getLast? = some last) (counts' : last.floats = false)
      (makes : automaton.Makes (symbolsOf parts) phrase) :
      Derived automaton (.node phrase extent weight parts)

end CodeSplice.Syntax
