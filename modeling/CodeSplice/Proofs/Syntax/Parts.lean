/-
Module: CodeSplice.Proofs.Syntax.Parts
Purpose: Which parts phrases have, and how many of them. The slots of a phrase are passed in order, so a
  symbol that fills only one of them, or only slots at which the phrase ends, stands in it at most once. In
  the grammar of TypeScript an import has at most one clause and a clause at most one list of names, and
  bodies end with a brace, which an unmarked end of the line may follow.
Main exports: Automaton.Fills, Automaton.Once, Automaton.Closes, OrdersParts,
  Tree.Derived.filter_children, Tree.Derived.closed
-/
import CodeSplice.Proofs.Syntax.Front
import CodeSplice.Proofs.Syntax.Name
import CodeSplice.Proofs.Syntax.Spread

namespace CodeSplice.Syntax

/-- A phrase can end in a slot, be it at the unmarked end of a line. -/
def Slot.CanEnd (slot : Slot) : Prop :=
  slot.final = true ∨ ∃ arc ∈ slot.next, arc.code = lineEndCode

instance (slot : Slot) : Decidable slot.CanEnd :=
  inferInstanceAs (Decidable (_ ∨ _))

namespace Automaton

variable {automaton : Automaton}

/-! ### Slots that a symbol fills -/

/-- The symbol of the given code fills a slot of the phrase. -/
structure Fills (automaton : Automaton) (phrase : Phrase) (code number : Nat) : Prop where
  phrase_eq : (automaton.slot number).phrase = phrase
  filled : (∃ entry ∈ automaton.starters.getD code [], number ∈ entry.2) ∨
    ∃ before, ∃ arc ∈ (automaton.slot before).next, arc.slot = number ∧ arc.code = code

/-- A phrase goes from slots to slots of greater number. -/
def GoesForward (automaton : Automaton) : Prop :=
  ∀ number, ∀ arc ∈ (automaton.slot number).next, number < arc.slot

/-- The symbol of the given code stands in a phrase at most once: the phrase does not go on behind it, or
no other slot that it fills comes later. -/
def Once (automaton : Automaton) (phrase : Phrase) (code : Nat) : Prop :=
  ∀ number, automaton.Fills phrase code number → (automaton.slot number).next = [] ∨
    ∀ other, automaton.Fills phrase code other → other ≤ number

/-- The symbol of the given code stands in no phrase that only groups others. -/
def Ungrouped (automaton : Automaton) (code : Nat) : Prop :=
  ∀ phrase number, automaton.Fills phrase code number → Tree.groups phrase = false

/-- The slots that the symbol of the given code fills. -/
def filledBy (automaton : Automaton) (code : Nat) : List Nat :=
  (automaton.starters.getD code []).flatMap (·.2) ++
    (List.range automaton.outline.size).flatMap fun number =>
      ((automaton.slot number).next.filter (·.code == code)).map (·.slot)

/-- The given phrases end with the symbol of the given code, which unmarked ends of lines may follow. -/
structure Closes (automaton : Automaton) (phrases : List Phrase) (code : Nat) : Prop where
  behind : ∀ number, ∀ arc ∈ (automaton.slot number).next,
    (automaton.slot number).phrase ∈ phrases → (automaton.slot arc.slot).CanEnd →
      arc.code = code ∨ arc.code = lineEndCode
  front : ∀ other, ∀ slot ∈ automaton.fronts other, slot.phrase ∈ phrases → slot.CanEnd →
    other = code

section

variable {grammar : Grammar}

theorem mem_filledBy {phrase : Phrase} {code number : Nat} :
    (ofGrammar grammar).Fills phrase code number ↔
      number ∈ (ofGrammar grammar).filledBy code ∧
        ((ofGrammar grammar).slot number).phrase = phrase := by
  simp only [filledBy, List.mem_append, List.mem_flatMap, List.mem_map, List.mem_filter,
    List.mem_range, beq_iff_eq]
  constructor
  · rintro ⟨hphrase, hentry | ⟨before, arc, harc, hslot, hcode⟩⟩
    · exact ⟨.inl hentry, hphrase⟩
    · exact ⟨.inr ⟨before, lt_size_of_mem_next harc, arc, ⟨harc, hcode⟩, hslot⟩, hphrase⟩
  · rintro ⟨hentry | ⟨before, -, arc, ⟨harc, hcode⟩, hslot⟩, hphrase⟩
    · exact ⟨hphrase, .inl hentry⟩
    · exact ⟨hphrase, .inr ⟨before, arc, harc, hslot, hcode⟩⟩

instance : Decidable (ofGrammar grammar).GoesForward :=
  decidable_of_iff
    (∀ number ∈ List.range (ofGrammar grammar).outline.size,
      ∀ arc ∈ ((ofGrammar grammar).slot number).next, number < arc.slot)
    ⟨fun h number arc harc => h number (List.mem_range.2 (lt_size_of_mem_next harc)) arc harc,
      fun h number _ => h number⟩

instance (phrase : Phrase) (code : Nat) : Decidable ((ofGrammar grammar).Once phrase code) :=
  decidable_of_iff
    (∀ number ∈ (ofGrammar grammar).filledBy code,
      ((ofGrammar grammar).slot number).phrase = phrase →
        ((ofGrammar grammar).slot number).next = [] ∨
          ∀ other ∈ (ofGrammar grammar).filledBy code,
            ((ofGrammar grammar).slot other).phrase = phrase → other ≤ number)
    ⟨fun h number hnumber => by
        obtain ⟨hmem, hphrase⟩ := mem_filledBy.1 hnumber
        refine (h number hmem hphrase).imp_right fun hlast other hother => ?_
        exact hlast other (mem_filledBy.1 hother).1 (mem_filledBy.1 hother).2,
      fun h number hmem hphrase =>
        (h number (mem_filledBy.2 ⟨hmem, hphrase⟩)).imp_right fun hlast other hmem hphrase =>
          hlast other (mem_filledBy.2 ⟨hmem, hphrase⟩)⟩

instance (code : Nat) : Decidable ((ofGrammar grammar).Ungrouped code) :=
  decidable_of_iff
    (∀ number ∈ (ofGrammar grammar).filledBy code,
      Tree.groups ((ofGrammar grammar).slot number).phrase = false)
    ⟨fun h phrase number hnumber => by
        obtain ⟨hmem, rfl⟩ := mem_filledBy.1 hnumber
        exact h number hmem,
      fun h number hmem => h _ number (mem_filledBy.2 ⟨hmem, rfl⟩)⟩

instance (phrases : List Phrase) (code : Nat) : Decidable ((ofGrammar grammar).Closes phrases code) :=
  decidable_of_iff
    ((∀ number ∈ List.range (ofGrammar grammar).outline.size,
      ((ofGrammar grammar).slot number).phrase ∈ phrases →
        ∀ arc ∈ ((ofGrammar grammar).slot number).next,
          ((ofGrammar grammar).slot arc.slot).CanEnd →
            arc.code = code ∨ arc.code = lineEndCode) ∧
      ∀ other ∈ List.range
          ((ofGrammar grammar).outline.codeOf (ofGrammar grammar).outline.phrases),
        ∀ slot ∈ (ofGrammar grammar).fronts other, slot.phrase ∈ phrases →
          slot.CanEnd → other = code)
    ⟨fun h => ⟨fun number arc harc hphrase =>
          h.1 number (List.mem_range.2 (lt_size_of_mem_next harc)) hphrase arc harc,
        fun other slot hslot => h.2 other (List.mem_range.2 (lt_of_mem_fronts hslot)) slot hslot⟩,
      fun h => ⟨fun number _ hphrase arc harc => h.behind number arc harc hphrase,
        fun other _ => h.front other⟩⟩

end

/-! ### Runs -/

/-- Each symbol of a run fills a slot of its phrase, unless the run is that of a text. -/
theorem Runs.fills (keeps : automaton.KeepsPhrases) {symbols : List Symbol} {slot : Nat}
    (h : automaton.Runs symbols slot) {symbol : Symbol} (hsymbol : symbol ∈ symbols) :
    ∃ number, automaton.Fills (automaton.slot slot).phrase
      (automaton.outline.alphabet.code symbol) number := by
  induction h with
  | start => simp at hsymbol
  | @begins other entry slot mem slot_mem =>
    obtain rfl := List.mem_singleton.1 hsymbol
    exact ⟨slot, rfl, .inl ⟨entry, mem, slot_mem⟩⟩
  | @goesOn symbols slot last arc runs mem code_eq ih =>
    rw [keeps slot arc mem]
    rcases List.mem_append.1 hsymbol with hsymbol | hsymbol
    · exact ih hsymbol
    · obtain rfl := List.mem_singleton.1 hsymbol
      exact ⟨arc.slot, keeps slot arc mem, .inr ⟨slot, arc, mem, rfl, code_eq⟩⟩

/-- How often a symbol stands among others. -/
def countOf (automaton : Automaton) (code : Nat) (symbols : List Symbol) : Nat :=
  symbols.countP fun symbol => automaton.outline.alphabet.code symbol == code

/-- Where a symbol that stands in a phrase at most once has been read, it does not come again. -/
theorem Runs.countOf (keeps : automaton.KeepsPhrases) (forward : automaton.GoesForward)
    {phrase : Phrase} {code : Nat} (once : automaton.Once phrase code) {symbols : List Symbol}
    {slot : Nat} (h : automaton.Runs symbols slot) (hphrase : (automaton.slot slot).phrase = phrase) :
    automaton.countOf code symbols = 0 ∨
      automaton.countOf code symbols = 1 ∧ ((automaton.slot slot).next = [] ∨
        ∀ other, automaton.Fills phrase code other → other ≤ slot) := by
  induction h with
  | start => exact .inl rfl
  | @begins symbol entry slot mem slot_mem =>
    by_cases hcode : automaton.outline.alphabet.code symbol = code
    · refine .inr ⟨by simp [Automaton.countOf, hcode],
        once slot ⟨hphrase, .inl ⟨entry, ?_, slot_mem⟩⟩⟩
      rwa [hcode] at mem
    · exact .inl (by simp [Automaton.countOf, hcode])
  | @goesOn symbols slot symbol arc runs mem code_eq ih =>
    have hslot := forward slot arc mem
    have hfills : automaton.outline.alphabet.code symbol = code →
        automaton.Fills phrase code arc.slot :=
      fun hcode => ⟨hphrase, .inr ⟨slot, arc, mem, rfl, code_eq.trans hcode⟩⟩
    simp only [Automaton.countOf, List.countP_append, List.countP_singleton, beq_iff_eq] at ih ⊢
    rcases ih ((keeps slot arc mem).symm.trans hphrase) with hnone | ⟨hone, hlast⟩
    · split
      · rename_i hcode
        exact .inr ⟨by rw [hnone], once arc.slot (hfills hcode)⟩
      · exact .inl (by rw [hnone])
    · -- The phrase has gone on, so no slot that the symbol fills comes later.
      have hbefore := hlast.resolve_left (List.ne_nil_of_mem mem)
      split
      · rename_i hcode
        have := hbefore arc.slot (hfills hcode)
        omega
      · exact .inr ⟨by rw [hone], .inr fun other hother => by have := hbefore other hother; omega⟩

/-- Where a phrase can end, the symbol that closes it has been read, and nothing but unmarked ends of lines
behind it. -/
theorem Runs.closing (keeps : automaton.KeepsPhrases) {phrases : List Phrase} {code : Nat}
    (closes : automaton.Closes phrases code) (goal : (automaton.slot 0).phrase ∉ phrases)
    {symbols : List Symbol} {slot : Nat} (h : automaton.Runs symbols slot)
    (hphrase : (automaton.slot slot).phrase ∈ phrases)
    (hend : (automaton.slot slot).CanEnd) :
    ∃ front close ends, symbols = front ++ close :: ends ∧
      automaton.outline.alphabet.code close = code ∧
      ∀ symbol ∈ ends, automaton.outline.alphabet.code symbol = lineEndCode := by
  induction h with
  | start => exact absurd hphrase goal
  | @begins symbol entry slot mem slot_mem =>
    have hfront : automaton.slot slot ∈
        automaton.fronts (automaton.outline.alphabet.code symbol) :=
      List.mem_flatMap.2 ⟨entry, mem, List.mem_map_of_mem slot_mem⟩
    exact ⟨[], symbol, [], rfl, closes.front _ _ hfront hphrase hend, by simp⟩
  | @goesOn symbols slot symbol arc runs mem code_eq ih =>
    rw [keeps slot arc mem] at hphrase
    rcases closes.behind slot arc mem hphrase hend with hcode | hcode
    · exact ⟨symbols, symbol, [], rfl, code_eq.symm.trans hcode, by simp⟩
    · obtain ⟨front, close, ends, rfl, hclose, hends⟩ := ih hphrase (.inr ⟨arc, mem, hcode⟩)
      refine ⟨front, close, ends ++ [symbol], by simp, hclose, fun other hother => ?_⟩
      rcases List.mem_append.1 hother with hother | hother
      · exact hends other hother
      · rw [List.mem_singleton.1 hother]
        exact code_eq.symm.trans hcode

end Automaton

/-! ### Parts that stand in a phrase once -/

/-- A phrase of one kind has at most one child of another kind. -/
structure HasOne (automaton : Automaton) (outer inner : Phrase) : Prop where
  once : automaton.Once outer (automaton.outline.alphabet.phraseCode inner)
  ungrouped : automaton.Ungrouped (automaton.outline.alphabet.phraseCode inner)
  whole : Tree.groups inner = false

instance (grammar : Grammar) (outer inner : Phrase) :
    Decidable (HasOne (.ofGrammar grammar) outer inner) :=
  decidable_of_iff (_ ∧ _ ∧ _)
    ⟨fun h => ⟨h.1, h.2.1, h.2.2⟩, fun h => ⟨h.once, h.ungrouped, h.whole⟩⟩

/-- The brace that bodies end with. -/
def closingBrace : List Char := ['\x7d']

/-- How the parts of imports and of bodies stand in them: an import has one clause, a clause one list of
names, and bodies end with a brace. -/
structure OrdersParts (automaton : Automaton) : Prop where
  forward : automaton.GoesForward
  clause : HasOne automaton .importStatement .importClause
  names : HasOne automaton .importClause .namedImports
  goal : (automaton.slot 0).phrase ∉ [Phrase.block, .classBody]
  closes : automaton.Closes [.block, .classBody]
    (automaton.outline.alphabet.terminalCode (.spelled closingBrace))
  owns : automaton.outline.alphabet.Owns closingBrace

instance (grammar : Grammar) : Decidable (OrdersParts (.ofGrammar grammar)) :=
  decidable_of_iff (_ ∧ _ ∧ _ ∧ _ ∧ _ ∧ _)
    ⟨fun h => ⟨h.1, h.2.1, h.2.2.1, h.2.2.2.1, h.2.2.2.2.1, h.2.2.2.2.2⟩,
      fun h => ⟨h.forward, h.clause, h.names, h.goal, h.closes, h.owns⟩⟩

theorem ordersParts_typeScript : OrdersParts typeScriptAutomaton := by
  unfold typeScriptAutomaton
  decide +kernel

namespace Tree

variable {automaton : Automaton} {tree : Tree}

theorem code_symbol_of_isPhrase {phrase : Phrase} (h : tree.isPhrase phrase = true) :
    automaton.outline.alphabet.code tree.symbol = automaton.outline.alphabet.phraseCode phrase := by
  cases tree with
  | leaf => simp [isPhrase] at h
  | node kind =>
    simp only [isPhrase, beq_iff_eq] at h
    simp only [symbol, h]
    rfl

theorem floats_of_isPhrase {phrase : Phrase} (h : tree.isPhrase phrase = true) :
    tree.floats = false := by
  cases tree with
  | leaf => simp [isPhrase] at h
  | node => rfl

/-- Spreading a tree brings out no phrase that stands in none that only groups. -/
theorem Derived.filter_spread (keeps : automaton.KeepsPhrases) {phrase : Phrase}
    (ungrouped : automaton.Ungrouped (automaton.outline.alphabet.phraseCode phrase))
    (whole : groups phrase = false) (h : tree.Derived automaton) :
    tree.spread.filter (·.isPhrase phrase) = [tree].filter (·.isPhrase phrase) := by
  induction h with
  | @leaf token =>
    rw [spread_leaf]
    split <;> rfl
  | @node kind extent weight parts first last derived head counts tail counts' makes ih =>
    rw [spread_node]
    split
    · rename_i hgroups
      have hkind : (kind == phrase) = false := by
        apply beq_false_of_ne
        rintro rfl
        simp [whole] at hgroups
      have hnone : ∀ part ∈ parts, part.isPhrase phrase = false := by
        intro part hpart
        refine Bool.eq_false_iff.2 fun hphrase => ?_
        obtain ⟨slot, hruns, -, rfl⟩ := makes
        have hmem : part.symbol ∈ symbolsOf parts :=
          List.mem_map_of_mem (List.mem_filter.2 ⟨hpart, by simp [floats_of_isPhrase hphrase]⟩)
        obtain ⟨number, hfills⟩ := hruns.fills keeps hmem
        rw [code_symbol_of_isPhrase hphrase] at hfills
        rw [ungrouped _ _ hfills] at hgroups
        contradiction
      rw [List.filter_flatMap, List.flatMap_eq_nil_iff.2 fun part hpart => by
        rw [ih part hpart]
        simp [hnone part hpart]]
      simp [isPhrase, hkind]
    · rfl

/-- A phrase has at most one child of a kind that stands in it at most once. -/
theorem Derived.filter_children (keeps : automaton.KeepsPhrases) (forward : automaton.GoesForward)
    {outer inner : Phrase} (one : HasOne automaton outer inner) (h : tree.Derived automaton)
    (hphrase : tree.isPhrase outer = true) :
    (tree.children.filter (·.isPhrase inner)).length ≤ 1 := by
  cases h with
  | leaf => simp [isPhrase] at hphrase
  | @node kind extent weight parts first last derived head counts tail counts' makes =>
    obtain rfl : kind = outer := by simpa [isPhrase] using hphrase
    obtain ⟨slot, hruns, -, hslot⟩ := makes
    have hcount : automaton.countOf (automaton.outline.alphabet.phraseCode inner)
        (symbolsOf parts) ≤ 1 := by
      rcases hruns.countOf keeps forward one.once hslot with hnone | ⟨hone, -⟩ <;> omega
    have hchildren : (Tree.node kind extent weight parts).children.filter (·.isPhrase inner) =
        parts.filter (·.isPhrase inner) := by
      rw [children_eq, parts_node, List.filter_flatMap]
      rw [List.flatMap_congr fun part hpart =>
        (derived part hpart).filter_spread keeps one.ungrouped one.whole]
      rw [← List.filter_flatMap, List.flatMap_singleton']
    have hle : (parts.filter (·.isPhrase inner)).length ≤
        automaton.countOf (automaton.outline.alphabet.phraseCode inner) (symbolsOf parts) := by
      rw [← List.countP_eq_length_filter, Automaton.countOf, symbolsOf, List.countP_map,
        List.countP_filter]
      refine List.countP_mono_left fun part _ hpart => ?_
      simp [code_symbol_of_isPhrase hpart, floats_of_isPhrase hpart]
    rw [hchildren]
    omega

/-- Trees whose symbols begin with some, then have one more, are split by it. -/
theorem exists_split_of_symbolsOf {trees : List Tree} {front ends : List Symbol} {symbol : Symbol}
    (h : symbolsOf trees = front ++ symbol :: ends) :
    ∃ before part behind, trees = before ++ part :: behind ∧ part.symbol = symbol ∧
      symbolsOf behind = ends := by
  obtain ⟨first, rest, hfilter, -, hrest⟩ := List.map_eq_append_iff.1 h
  obtain ⟨part, others, rfl, hpart, hothers⟩ := List.map_eq_cons_iff.1 hrest
  obtain ⟨before, behind, rfl, -, hbehind⟩ := List.filter_eq_append_iff.1 hfilter
  obtain ⟨between, behind, rfl, -, -, hbehind⟩ := List.filter_eq_cons_iff.1 hbehind
  exact ⟨before ++ between, part, behind, by simp, hpart, by rw [symbolsOf, hbehind, hothers]⟩

/-- A body ends with a brace; behind it may stand what floats, and the unmarked end of the line. -/
theorem Derived.closed (keeps : automaton.KeepsPhrases) (facts : OrdersParts automaton)
    (h : tree.Derived automaton) {phrase : Phrase} (hphrase : tree.isPhrase phrase = true)
    (hbody : phrase ∈ [Phrase.block, .classBody]) :
    ∃ front close rest, tree.children = front ++ .leaf close :: rest ∧
      close.terminal = .spelled closingBrace ∧ ∀ other ∈ rest, other.isSpelled "\x7d" = false := by
  cases h with
  | leaf => simp [isPhrase] at hphrase
  | @node kind extent weight parts first last derived head counts tail counts' makes =>
    obtain rfl : kind = phrase := by simpa [isPhrase] using hphrase
    obtain ⟨slot, hruns, hfinal, hslot⟩ := makes
    rw [← hslot] at hbody
    obtain ⟨front, symbol, ends, hsymbols, hcode, hends⟩ :=
      hruns.closing keeps facts.closes facts.goal hbody (.inl hfinal)
    obtain ⟨before, part, behind, rfl, rfl, rfl⟩ := exists_split_of_symbolsOf hsymbols
    have hsymbol := facts.owns.eq_of_code hcode
    cases part with
    | node => simp [symbol] at hsymbol
    | leaf close =>
      have hterminal : close.terminal = .spelled closingBrace := Symbol.terminal.inj hsymbol
      refine ⟨before.flatMap Tree.spread, close, behind.flatMap Tree.spread, ?_, hterminal, ?_⟩
      · rw [children_eq, parts_node, List.flatMap_append, List.flatMap_cons, spread_leaf,
          if_neg (by simp [Token.is, hterminal])]
        rfl
      · intro other hother
        obtain ⟨part, hpart, hother⟩ := List.mem_flatMap.1 hother
        have hpartCode : part.floats = false →
            automaton.outline.alphabet.code part.symbol = lineEndCode := fun hfloats =>
          hends _ (List.mem_map_of_mem (List.mem_filter.2 ⟨hpart, by simp [hfloats]⟩))
        have hle := facts.owns.le
        have hlt := facts.owns.lt
        have hlineEnd := TokenKind.ctorIdx_lt_count .lineEnd
        cases part with
        | node kind =>
          -- The code of a phrase is greater than that of any terminal.
          have := hpartCode rfl
          simp only [symbol, Alphabet.code, Alphabet.phraseCode, lineEndCode] at this
          omega
        | leaf token =>
          obtain rfl : other = .leaf token := by
            rw [spread_leaf] at hother
            split at hother
            · simp at hother
            · exact List.mem_singleton.1 hother
          refine Bool.eq_false_iff.2 fun hspelled => ?_
          have hbrace : token.terminal = .spelled closingBrace := by
            simpa [isSpelled, closingBrace] using hspelled
          have hfloats : (Tree.leaf token).floats = false := by
            simp [floats, Token.floats, Token.is, hbrace]
          have := hpartCode hfloats
          simp only [symbol, hbrace, Alphabet.code, lineEndCode] at this
          omega

end Tree

end CodeSplice.Syntax
