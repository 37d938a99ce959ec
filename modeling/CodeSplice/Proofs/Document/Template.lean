/-
Module: CodeSplice.Proofs.Document.Template
Purpose: The template literals of a document. They stand between back quotes: the mark is read as nothing
  else, and the phrases of template literals begin and end with it. The outermost ones come one behind
  the other in their text. So they are literals of the kind that blocks keep, and each block that is read
  from a document keeps those that lie in it.
Main exports: QuotesTemplates, Tree.Derived.quoted, Tree.Placed.outermost_inOrder, quoted_of_parse?,
  Source.solid_literals, Source.literals_standIn_block
-/
import CodeSplice.Document.Reading
import CodeSplice.Proofs.Layout.Literals
import CodeSplice.Proofs.Syntax.Front
import CodeSplice.Proofs.Syntax.Name
import CodeSplice.Proofs.Syntax.Order
import CodeSplice.Proofs.Syntax.Run

namespace CodeSplice.Syntax

/-! ### Back quotes -/

/-- The back quote that template literals stand between. -/
def backQuote : List Char := ['\x60']

/-- Template literals begin and end with back quotes. -/
structure QuotesTemplates (automaton : Automaton) : Prop where
  goal : (automaton.slot 0).phrase ≠ .template
  begins : automaton.BeginsOnly .template
    (automaton.outline.alphabet.terminalCode (.spelled backQuote))
  ends : automaton.EndsIn [.template]
    (· = automaton.outline.alphabet.terminalCode (.spelled backQuote))
  owns : automaton.outline.alphabet.Owns backQuote

instance (grammar : Grammar) : Decidable (QuotesTemplates (.ofGrammar grammar)) :=
  decidable_of_iff (_ ∧ _ ∧ _ ∧ _)
    ⟨fun h => ⟨h.1, h.2.1, h.2.2.1, h.2.2.2⟩, fun h => ⟨h.goal, h.begins, h.ends, h.owns⟩⟩

theorem quotesTemplates_typeScript : QuotesTemplates typeScriptAutomaton := by
  unfold typeScriptAutomaton
  decide +kernel

namespace Tree

variable {automaton : Automaton} {text : List Char} {tree : Tree}

/-- A tree whose symbol is a mark is spelled like it. -/
theorem Placed.spelled (h : tree.Placed text) {spelling : List Char}
    (hsymbol : tree.symbol = .terminal (.spelled spelling)) :
    Text.slice text tree.extent.start tree.extent.stop = spelling ∧
      tree.extent.stop = tree.extent.start + spelling.length := by
  cases h with
  | @leaf token placed =>
    have hterminal : token.terminal = .spelled spelling := Symbol.terminal.inj hsymbol
    obtain ⟨htext, hstop⟩ := placed.spelled spelling hterminal
    exact ⟨placed.text_eq.symm.trans htext, hstop⟩
  | node => cases hsymbol
  | empty => cases hsymbol

theorem Placed.backQuote (h : tree.Placed text)
    (hsymbol : tree.symbol = .terminal (.spelled Syntax.backQuote)) :
    text[tree.extent.start]? = some '\x60' ∧ tree.extent.stop = tree.extent.start + 1 := by
  obtain ⟨htext, hstop⟩ := h.spelled hsymbol
  refine ⟨?_, hstop⟩
  have hhead := congrArg List.head? htext
  rw [Text.slice, hstop, Nat.add_sub_cancel_left, List.head?_take] at hhead
  rwa [List.head?_drop] at hhead

/-- A template literal begins and ends with a back quote. -/
theorem Derived.quoted (keeps : automaton.KeepsPhrases) (facts : QuotesTemplates automaton)
    (h : tree.Derived automaton) (placed : tree.Placed text)
    (hphrase : tree.isPhrase .template = true) :
    tree.extent.start < tree.extent.stop ∧ text[tree.extent.start]? = some '\x60' ∧
      text[tree.extent.stop - 1]? = some '\x60' := by
  cases h with
  | leaf => cases hphrase
  | @node phrase extent weight parts first last derived head counts tail counts' makes =>
    obtain rfl : phrase = .template := by simpa [isPhrase] using hphrase
    have hfirst : first.symbol = .terminal (.spelled Syntax.backQuote) := by
      obtain ⟨rest, rfl⟩ := List.head?_eq_some_iff.1 head
      rw [symbolsOf_cons, if_neg (by simp [counts])] at makes
      exact facts.owns.eq_of_code (makes.first keeps facts.goal facts.begins)
    have hlast : last.symbol = .terminal (.spelled Syntax.backQuote) := by
      obtain ⟨front, rfl⟩ := List.getLast?_eq_some_iff.1 tail
      rw [symbolsOf_append, show symbolsOf [last] = [last.symbol] by simp [symbolsOf, counts']] at makes
      exact facts.owns.eq_of_code (makes.last keeps facts.ends (List.mem_singleton_self _))
    have hwithin := placed.within (List.mem_of_head? head)
    cases placed with
    | empty => cases head
    | node inText inOrder head' start_eq tail' stop_eq =>
      obtain rfl := Option.some.inj (head'.symm.trans head)
      obtain rfl := Option.some.inj (tail'.symm.trans tail)
      obtain ⟨hopen, hstop⟩ := (inText _ (List.mem_of_head? head)).backQuote hfirst
      obtain ⟨hclose, hstop'⟩ := (inText _ (List.mem_of_getLast? tail)).backQuote hlast
      simp only [extent_node] at hwithin ⊢
      refine ⟨by omega, by rwa [start_eq], ?_⟩
      rwa [stop_eq, hstop', Nat.add_sub_cancel]

/-! ### Outermost phrases -/

/-- The outermost phrases of a kind come one behind the other. -/
theorem Placed.outermost_inOrder (h : tree.Placed text) (phrase : Phrase) :
    InOrder ((tree.outermost phrase).map extent) := by
  induction tree using byParts with
  | leaf token => exact .nil
  | node kind extent weight parts ih =>
    rw [outermost_node]
    split
    · exact List.pairwise_singleton _ _
    · exact .flatMap (fun part hpart inner hinner => (h.part hpart).outermost_within hinner)
        (fun part hpart => ih part hpart (h.part hpart)) h.parts_inOrder

/-- An outermost phrase is one of its kind, and stands in the text as the tree does. -/
theorem outermost_spec {phrase : Phrase} {inner : Tree} (hinner : inner ∈ tree.outermost phrase) :
    inner.isPhrase phrase = true ∧ (tree.Placed text → inner.Placed text) ∧
      (tree.Derived automaton → inner.Derived automaton) := by
  induction tree using byParts with
  | leaf token => simp at hinner
  | node kind extent weight parts ih =>
    rw [outermost_node] at hinner
    split at hinner
    · rename_i hkind
      obtain rfl := List.mem_singleton.1 hinner
      exact ⟨hkind, id, id⟩
    · obtain ⟨part, hpart, hinner⟩ := List.mem_flatMap.1 hinner
      obtain ⟨hkind, hplaced, hderived⟩ := ih part hpart hinner
      exact ⟨hkind, fun h => hplaced (h.part hpart), fun h => hderived (h.parts part hpart)⟩

end Tree

/-- The outermost template literals of a source text stand between back quotes. -/
theorem quoted_of_parse? {text : List Char} {tree inner : Tree} (h : parse? text = some tree)
    (hinner : inner ∈ tree.outermost .template) :
    inner.extent.start < inner.extent.stop ∧ text[inner.extent.start]? = some '\x60' ∧
      text[inner.extent.stop - 1]? = some '\x60' := by
  have hderived := derived_of_parse? h
  have hplaced := placed_of_parse? h
  have hphrase := isPhrase_of_parse? h
  cases tree with
  | leaf => cases hphrase
  | node phrase extent weight parts =>
    obtain rfl : phrase = .sourceFile := by simpa [Tree.isPhrase] using hphrase
    rw [Tree.outermost_node, if_neg (by decide)] at hinner
    obtain ⟨part, hpart, hinner⟩ := List.mem_flatMap.1 hinner
    obtain ⟨hkind, hplaced', hderived'⟩ := Tree.outermost_spec hinner
    exact (hderived' (hderived part hpart)).quoted marksPhrases_typeScript.keepsPhrases
      quotesTemplates_typeScript (hplaced' (hplaced.part hpart)) hkind

end CodeSplice.Syntax

namespace CodeSplice

open Layout Syntax

namespace Source

variable {text : List Char} {tree : Tree}

/-- The template literals of a source come one behind the other. -/
theorem literals_inOrder (h : parse? text = some tree) :
    (ofTree text tree).literals.Pairwise fun literal next => literal.stop ≤ next.start := by
  have hinOrder := (placed_of_parse? h).outermost_inOrder .template
  rw [InOrder, List.pairwise_map] at hinOrder
  exact List.pairwise_map.2 hinOrder

/-- The template literals of a source are solid. -/
theorem solid_literals (h : parse? text = some tree) :
    ∀ literal ∈ (ofTree text tree).literals, literal.Solid text := by
  intro literal hliteral
  obtain ⟨inner, hinner, rfl⟩ := List.mem_map.1 hliteral
  obtain ⟨hlt, hopen, hclose⟩ := quoted_of_parse? h hinner
  exact .of_quoted hlt hopen hclose

/-- A block that is read from a source keeps the template literals that lie in it. -/
theorem literals_standIn_block (h : parse? text = some tree) (range : Span) (w : Writer) :
    StandIn (((ofTree text tree).literals.filter (range.liesIn ·)).map
        fun literal => withoutReturns (Text.slice text literal.start literal.stop))
      (((ofTree text tree).block range).render w).text.toList := by
  rw [Block.toList_text_render]
  refine StandIn.append ?_ _
  have hspares := spares_ofRange (solid_literals h) range (ofTree text tree).unit w
  refine hspares.standIn (fun literal hliteral => ⟨hliteral, ?_⟩) ((literals_inOrder h).filter _)
  obtain ⟨hmem, hwithin⟩ := List.mem_filter.1 hliteral
  exact ⟨solid_literals h literal hmem, by simpa [Span.liesIn] using hwithin⟩

end Source

end CodeSplice
