/-
Module: CodeSplice.Proofs.Syntax.Moves
Purpose: Reading on with one reading, token by token: where a mark, a keyword or a name is awaited and
  settles what has been read, the text in front of it is read with it. Whether it is awaited can be
  computed from the symbols read so far.
Main exports: Automaton.Moves, Automaton.Builds.mark, Automaton.Builds.keyword, Automaton.Builds.name
-/
import CodeSplice.Proofs.Syntax.Sight
import CodeSplice.Proofs.Syntax.Single

namespace CodeSplice.Syntax

/-- The tree of a keyword or mark. -/
def Tree.mark (text : String) (extent : Extent) : Tree :=
  .leaf ⟨.spelled text.toList, text, extent⟩

/-- The tree of a name. -/
def Tree.name (text : String) (extent : Extent) : Tree :=
  .leaf ⟨.kind .word, text, extent⟩

/-- The character is a mark by itself, wherever it stands in front of a token. -/
def IsMark (c : Char) : Prop :=
  BeginsOther c ∧ isWordPart c = false ∧ c ≠ '\\'

instance (c : Char) : Decidable (IsMark c) :=
  inferInstanceAs (Decidable (_ ∧ _ ∧ _))

namespace Automaton

variable (automaton : Automaton)

/-- Behind the symbols the terminal is awaited, and the phrases are completed in front of it. -/
def Moves (symbols : List Symbol) (terminal : Terminal) (reductions : List Reduction) : Prop :=
  (automaton.expectation symbols).awaits terminal = true ∧
    automaton.settle? 8 terminal symbols = some reductions

instance (symbols : List Symbol) (terminal : Terminal) (reductions : List Reduction) :
    Decidable (automaton.Moves symbols terminal reductions) :=
  inferInstanceAs (Decidable (_ ∧ _))

variable {automaton} {source rest : List Char} {trees : List Tree} {reductions : List Reduction}

namespace Builds

theorem mark (gap : List Char) (text : String) {c : Char}
    (h : automaton.Builds source trees (gap ++ c :: rest))
    (moves : automaton.Moves (trees.map Tree.symbol) (.spelled text.toList) reductions)
    (htext : text.toList = [c]) (hgap : IsMargin gap) (hc : IsMark c) :
    ∃ extent, automaton.Builds source
      (.mark text extent :: reductions.foldl Reduction.join trees) rest := by
  rw [htext] at moves
  have hnext := Expectation.next?_mark moves.1 hgap hc.1 hc.2.1 hc.2.2 rest
  rw [List.append_cons] at h hnext
  obtain ⟨extent, -, -, hbuilds⟩ := h.take _ _ hnext (List.cons_ne_nil _ _) (isTaken_spelled _) moves.2
  rw [← htext, String.ofList_toList] at hbuilds
  exact ⟨extent, hbuilds⟩

theorem keyword (gap : List Char) (text : String)
    (h : automaton.Builds source trees (gap ++ text.toList ++ rest))
    (moves : automaton.Moves (trees.map Tree.symbol) (.spelled text.toList) reductions)
    (hgap : IsMargin gap) (hname : IsName text.toList) (hlength : text.toList.length ≠ 1)
    (hrest : EndsName rest) :
    ∃ extent, automaton.Builds source
      (.mark text extent :: reductions.foldl Reduction.join trees) rest := by
  have hnext := Expectation.next?_keyword moves.1 hlength hgap hname hrest
  obtain ⟨extent, -, -, hbuilds⟩ := h.take _ _ hnext hname.1 (isTaken_spelled _) moves.2
  rw [String.ofList_toList] at hbuilds
  exact ⟨extent, hbuilds⟩

theorem name (gap : List Char) (text : String)
    (h : automaton.Builds source trees (gap ++ text.toList ++ rest))
    (moves : automaton.Moves (trees.map Tree.symbol) (.kind .word) reductions)
    (hgap : IsMargin gap) (hname : IsName text.toList) (hother : text.toList ∉ contextual)
    (hrest : EndsName rest) :
    ∃ extent, automaton.Builds source
      (.name text extent :: reductions.foldl Reduction.join trees) rest := by
  have hnext := Expectation.next?_name moves.1 hgap hname hother hrest
  obtain ⟨extent, -, -, hbuilds⟩ := h.take _ _ hnext hname.1 (by decide) moves.2
  rw [String.ofList_toList] at hbuilds
  exact ⟨extent, hbuilds⟩

end Builds

end Automaton

end CodeSplice.Syntax
