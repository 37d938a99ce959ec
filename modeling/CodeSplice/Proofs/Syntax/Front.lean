/-
Module: CodeSplice.Proofs.Syntax.Front
Purpose: What phrases begin and end with. The slots of a phrase lead to slots of the same phrase, so the
  first symbol tells which phrases it can begin. In the grammar of TypeScript only one phrase begins
  with the unmarked end of a line, and none consists of nothing else; so every other phrase begins with
  a token that has a text and is no comment, and a block with its brace. Strings, objects and the lists
  of imported names end with a mark.
Main exports: Automaton.Runs.front, Automaton.EndsIn, Automaton.Makes.first, Automaton.Makes.last,
  MarksPhrases, Tree.Derived.exists_code, Tree.Derived.front, Tree.Derived.block, Tree.Derived.back
-/
import CodeSplice.Proofs.Syntax.Derivation
import CodeSplice.Proofs.Syntax.Placement
import CodeSplice.Proofs.Syntax.State
import CodeSplice.Syntax.Parse

namespace CodeSplice.Syntax

/-- The code of the unmarked end of a line. -/
def lineEndCode : Nat := TokenKind.lineEnd.ctorIdx

namespace Automaton

variable {automaton : Automaton}

/-- Slots lead to slots of the same phrase. -/
def KeepsPhrases (automaton : Automaton) : Prop :=
  ∀ number, ∀ arc ∈ (automaton.slot number).next,
    (automaton.slot arc.slot).phrase = (automaton.slot number).phrase

/-- The slots of phrases that begin with the symbol of the given code. -/
def fronts (automaton : Automaton) (code : Nat) : List Slot :=
  (automaton.starters.getD code []).flatMap fun entry => entry.2.map automaton.slot

/-- A phrase of the given kind begins with nothing but the symbol of the given code. -/
def BeginsOnly (automaton : Automaton) (phrase : Phrase) (code : Nat) : Prop :=
  ∀ other, other ≠ code → ∀ slot ∈ automaton.fronts other, slot.phrase ≠ phrase

/-- The code of a terminal, or of one of the given phrases; not that of the unmarked end of a line. -/
def Marked (automaton : Automaton) (phrases : List Phrase) (code : Nat) : Prop :=
  code ≠ lineEndCode ∧ (code ≤ automaton.outline.alphabet.size ∨
    ∃ phrase ∈ phrases, code = automaton.outline.alphabet.phraseCode phrase)

instance (automaton : Automaton) (phrases : List Phrase) (code : Nat) :
    Decidable (automaton.Marked phrases code) :=
  inferInstanceAs (Decidable (_ ∧ _))

/-- The given phrases end with symbols whose codes have a property. -/
structure EndsIn (automaton : Automaton) (phrases : List Phrase) (p : Nat → Prop) : Prop where
  behind : ∀ number, ∀ arc ∈ (automaton.slot number).next,
    (automaton.slot number).phrase ∈ phrases → (automaton.slot arc.slot).final = true → p arc.code
  front : ∀ code, ∀ slot ∈ automaton.fronts code, slot.phrase ∈ phrases → slot.final = true → p code

/-- The given phrases end with marks, or with one another. -/
structure EndsMarked (automaton : Automaton) (phrases : List Phrase) : Prop where
  behind : ∀ number, ∀ arc ∈ (automaton.slot number).next,
    (automaton.slot number).phrase ∈ phrases → (automaton.slot arc.slot).final = true →
      automaton.Marked phrases arc.code
  front : ∀ code, ∀ slot ∈ automaton.fronts code, slot.phrase ∈ phrases → slot.final = true →
    automaton.Marked phrases code

section

variable {grammar : Grammar}

theorem lt_size_of_mem_next {number : Nat} {arc : Arc}
    (h : arc ∈ ((ofGrammar grammar).slot number).next) :
    number < (ofGrammar grammar).outline.size := by
  refine Nat.lt_of_not_le fun hle => ?_
  simp only [slot, Outline.slot, ofGrammar, Outline.ofGrammar, Table.getD, Table.get?_ofList] at h hle
  rw [List.getElem?_eq_none hle] at h
  simp [default, instInhabitedSlot.default] at h

theorem lt_of_mem_fronts {code : Nat} {slot : Slot} (h : slot ∈ (ofGrammar grammar).fronts code) :
    code < (ofGrammar grammar).outline.codeOf (ofGrammar grammar).outline.phrases := by
  refine Nat.lt_of_not_le fun hle => ?_
  obtain ⟨entry, hentry, -⟩ := List.mem_flatMap.1 h
  simp only [ofGrammar, Table.ofFn, Table.getD, Table.get?_ofList] at hentry hle
  rw [List.getElem?_eq_none (by simpa using hle)] at hentry
  simp at hentry

instance : Decidable (ofGrammar grammar).KeepsPhrases :=
  decidable_of_iff
    (∀ number ∈ List.range (ofGrammar grammar).outline.size,
      ∀ arc ∈ ((ofGrammar grammar).slot number).next,
        ((ofGrammar grammar).slot arc.slot).phrase = ((ofGrammar grammar).slot number).phrase)
    ⟨fun h number arc harc => h number (List.mem_range.2 (lt_size_of_mem_next harc)) arc harc,
      fun h number _ => h number⟩

instance (phrases : List Phrase) (p : Nat → Prop) [DecidablePred p] :
    Decidable ((ofGrammar grammar).EndsIn phrases p) :=
  decidable_of_iff
    ((∀ number ∈ List.range (ofGrammar grammar).outline.size,
      ((ofGrammar grammar).slot number).phrase ∈ phrases →
        ∀ arc ∈ ((ofGrammar grammar).slot number).next,
          ((ofGrammar grammar).slot arc.slot).final = true → p arc.code) ∧
      ∀ code ∈ List.range
          ((ofGrammar grammar).outline.codeOf (ofGrammar grammar).outline.phrases),
        ∀ slot ∈ (ofGrammar grammar).fronts code, slot.phrase ∈ phrases → slot.final = true →
          p code)
    ⟨fun h => ⟨fun number arc harc hphrase =>
          h.1 number (List.mem_range.2 (lt_size_of_mem_next harc)) hphrase arc harc,
        fun code slot hslot => h.2 code (List.mem_range.2 (lt_of_mem_fronts hslot)) slot hslot⟩,
      fun h => ⟨fun number _ hphrase arc harc => h.behind number arc harc hphrase,
        fun code _ => h.front code⟩⟩

instance (phrases : List Phrase) : Decidable ((ofGrammar grammar).EndsMarked phrases) :=
  decidable_of_iff ((ofGrammar grammar).EndsIn phrases ((ofGrammar grammar).Marked phrases))
    ⟨fun h => ⟨h.behind, h.front⟩, fun h => ⟨h.behind, h.front⟩⟩

instance (phrase : Phrase) (code : Nat) : Decidable ((ofGrammar grammar).BeginsOnly phrase code) :=
  decidable_of_iff
    (∀ other ∈ List.range
        ((ofGrammar grammar).outline.codeOf (ofGrammar grammar).outline.phrases),
      other ≠ code → ∀ slot ∈ (ofGrammar grammar).fronts other, slot.phrase ≠ phrase)
    ⟨fun h other hother slot hslot =>
        h other (List.mem_range.2 (lt_of_mem_fronts hslot)) hother slot hslot,
      fun h other _ => h other⟩

end

/-- Whether a symbol of the given code can be the first one of a text of the given kind, or of a
phrase. -/
def Fronts (automaton : Automaton) (code : Nat) (phrase : Phrase) : Prop :=
  ((automaton.slot 0).phrase = phrase ∧ ∃ arc ∈ (automaton.slot 0).next, arc.code = code) ∨
    ∃ slot ∈ automaton.fronts code, slot.phrase = phrase

theorem slot_eq_zero_of_runs {slot : Nat} (h : automaton.Runs [] slot) : slot = 0 := by
  generalize hsymbols : ([] : List Symbol) = symbols at h
  cases h with
  | start => rfl
  | begins => simp at hsymbols
  | goesOn => simp at hsymbols

/-- Symbols that lead to a slot of a phrase begin with one that can be its first. -/
theorem Runs.front (keeps : automaton.KeepsPhrases) {symbol : Symbol} {symbols : List Symbol}
    {slot : Nat} (h : automaton.Runs (symbol :: symbols) slot) :
    automaton.Fronts (automaton.outline.alphabet.code symbol) (automaton.slot slot).phrase := by
  generalize hall : symbol :: symbols = all at h
  induction h generalizing symbols with
  | start => simp at hall
  | begins mem slot_mem =>
    obtain ⟨rfl, -⟩ := List.cons.inj hall
    exact .inr ⟨_, List.mem_flatMap.2 ⟨_, mem, List.mem_map_of_mem slot_mem⟩, rfl⟩
  | @goesOn before slot last arc runs mem code_eq ih =>
    cases before with
    | nil =>
      obtain ⟨rfl, -⟩ := List.cons.inj hall
      rw [slot_eq_zero_of_runs runs] at mem
      exact .inl ⟨(keeps 0 arc mem).symm, arc, mem, code_eq⟩
    | cons first before =>
      obtain ⟨rfl, -⟩ := List.cons.inj hall
      rw [keeps slot arc mem]
      exact ih rfl

/-- The first of the symbols that make a phrase is the only one that it can begin with. -/
theorem Makes.first (keeps : automaton.KeepsPhrases) {symbol : Symbol} {symbols : List Symbol}
    {phrase : Phrase} (h : automaton.Makes (symbol :: symbols) phrase) {code : Nat}
    (goal : (automaton.slot 0).phrase ≠ phrase) (begins : automaton.BeginsOnly phrase code) :
    automaton.outline.alphabet.code symbol = code := by
  obtain ⟨slot, hruns, -, rfl⟩ := h
  rcases hruns.front keeps with ⟨hgoal, -⟩ | ⟨front, hfront, hphrase⟩
  · exact absurd hgoal goal
  · apply Classical.byContradiction
    intro hother
    exact begins _ hother front hfront hphrase

/-- The last of the symbols that make a phrase is one that it can end with. -/
theorem Makes.last (keeps : automaton.KeepsPhrases) {symbol : Symbol} {symbols : List Symbol}
    {phrase : Phrase} (h : automaton.Makes (symbols ++ [symbol]) phrase) {phrases : List Phrase}
    {p : Nat → Prop} (ends : automaton.EndsIn phrases p) (hphrases : phrase ∈ phrases) :
    p (automaton.outline.alphabet.code symbol) := by
  obtain ⟨slot, hruns, hfinal, rfl⟩ := h
  generalize hall : symbols ++ [symbol] = all at hruns
  cases hruns with
  | start => simp at hall
  | @begins other entry slot mem slot_mem =>
    obtain ⟨-, hsymbol⟩ := List.append_inj' (hall.trans (List.nil_append [other]).symm) rfl
    obtain rfl := List.singleton_inj.1 hsymbol
    have hslot : automaton.slot slot ∈ automaton.fronts (automaton.outline.alphabet.code symbol) :=
      List.mem_flatMap.2 ⟨entry, mem, List.mem_map_of_mem slot_mem⟩
    exact ends.front _ _ hslot hphrases hfinal
  | @goesOn before slot last arc runs mem code_eq =>
    obtain ⟨-, hsymbol⟩ := List.append_inj' hall rfl
    obtain rfl := List.singleton_inj.1 hsymbol
    rw [keeps slot arc mem] at hphrases
    rw [← code_eq]
    exact ends.behind slot arc mem hphrases hfinal

end Automaton

/-! ### Marks -/

/-- The symbol that a punctuation mark is. -/
def Symbol.mark (text : String) : Symbol := .terminal (.spelled text.toList)

/-- Phrases of imports that end with a mark. -/
def endsMarked : List Phrase := [.string, .object, .importAttributes, .namedImports]

/-- How the unmarked end of a line and braces stand in phrases. Only `moreSignatures` begins with that
end or with itself, and something else follows the end there; no text begins with either. A block begins
with a brace. -/
structure MarksPhrases (automaton : Automaton) : Prop where
  keepsPhrases : automaton.KeepsPhrases
  closed : (automaton.slot 0).final = false
  text : ∀ arc ∈ (automaton.slot 0).next, arc.code ≠ lineEndCode ∧
    arc.code ≠ automaton.outline.alphabet.phraseCode .moreSignatures
  lineEnd : ∀ slot ∈ automaton.fronts lineEndCode, slot.phrase = .moreSignatures ∧
    slot.final = false ∧ ∀ arc ∈ slot.next, arc.code ≠ lineEndCode
  more : ∀ slot ∈ automaton.fronts (automaton.outline.alphabet.phraseCode .moreSignatures),
    slot.phrase = .moreSignatures
  goal : (automaton.slot 0).phrase ≠ .block
  block : automaton.BeginsOnly .block (automaton.outline.alphabet.code (.mark "\x7b"))
  brace : automaton.Marked [] (automaton.outline.alphabet.code (.mark "\x7b"))
  ends : automaton.EndsMarked endsMarked

instance (grammar : Grammar) : Decidable (MarksPhrases (.ofGrammar grammar)) :=
  decidable_of_iff (_ ∧ _ ∧ _ ∧ _ ∧ _ ∧ _ ∧ _ ∧ _ ∧ _)
    ⟨fun h => ⟨h.1, h.2.1, h.2.2.1, h.2.2.2.1, h.2.2.2.2.1, h.2.2.2.2.2.1, h.2.2.2.2.2.2.1,
        h.2.2.2.2.2.2.2.1, h.2.2.2.2.2.2.2.2⟩,
      fun h => ⟨h.keepsPhrases, h.closed, h.text, h.lineEnd, h.more, h.goal, h.block, h.brace,
        h.ends⟩⟩

theorem marksPhrases_typeScript : MarksPhrases typeScriptAutomaton := by
  unfold typeScriptAutomaton
  decide +kernel

namespace MarksPhrases

variable {automaton : Automaton}

/-- Only `moreSignatures` begins with the unmarked end of a line, or with itself. -/
theorem eq_of_fronts (facts : MarksPhrases automaton) {code : Nat} {phrase : Phrase}
    (h : automaton.Fronts code phrase)
    (hcode : code = lineEndCode ∨
      code = automaton.outline.alphabet.phraseCode .moreSignatures) :
    phrase = .moreSignatures := by
  rcases h with ⟨-, arc, harc, rfl⟩ | ⟨slot, hslot, rfl⟩
  · have := facts.text arc harc
    rcases hcode with hcode | hcode
    · exact absurd hcode this.1
    · exact absurd hcode this.2
  · rcases hcode with rfl | rfl
    · exact (facts.lineEnd _ hslot).1
    · exact facts.more _ hslot

/-- Where nothing but unmarked ends of lines has been read, no phrase can end and no other such end can
come next. -/
theorem not_final (facts : MarksPhrases automaton) {symbols : List Symbol} {slot : Nat}
    (h : automaton.Runs symbols slot)
    (hsymbols : ∀ symbol ∈ symbols, automaton.outline.alphabet.code symbol = lineEndCode) :
    (automaton.slot slot).final = false ∧
      ∀ arc ∈ (automaton.slot slot).next, arc.code ≠ lineEndCode := by
  induction h with
  | start => exact ⟨facts.closed, fun arc harc => (facts.text arc harc).1⟩
  | @begins symbol entry slot mem slot_mem =>
    rw [hsymbols symbol (by simp)] at mem
    exact (facts.lineEnd _ (List.mem_flatMap.2 ⟨entry, mem, List.mem_map_of_mem slot_mem⟩)).2
  | @goesOn symbols slot symbol arc runs mem code_eq ih =>
    have hcode := (ih fun other hother => hsymbols other (by simp [hother])).2 arc mem
    exact absurd (code_eq.trans (hsymbols symbol (by simp))) hcode

/-- A phrase does not consist of unmarked ends of lines alone. -/
theorem exists_of_makes (facts : MarksPhrases automaton) {symbols : List Symbol}
    {phrase : Phrase} (h : automaton.Makes symbols phrase) :
    ∃ symbol ∈ symbols, automaton.outline.alphabet.code symbol ≠ lineEndCode := by
  obtain ⟨slot, hruns, hfinal, -⟩ := h
  refine Classical.byContradiction fun hnone => ?_
  have hall : ∀ symbol ∈ symbols, automaton.outline.alphabet.code symbol = lineEndCode := by
    intro symbol hsymbol
    exact Classical.byContradiction fun hcode => hnone ⟨symbol, hsymbol, hcode⟩
  rw [(facts.not_final hruns hall).1] at hfinal
  contradiction

end MarksPhrases

/-! ### Trees -/

variable {automaton : Automaton}

namespace Tree

theorem code_symbol_of_isKind {tree : Tree} (h : tree.isKind .lineEnd = true) :
    automaton.outline.alphabet.code tree.symbol = lineEndCode := by
  cases tree with
  | leaf token =>
    simp only [isKind, Token.is, beq_iff_eq] at h
    simp only [symbol, h]
    rfl
  | node => simp [isKind] at h

/-- A token that counts is no comment. -/
theorem is_comment_of_floats {token : Token} (h : (leaf token).floats = false) :
    token.is .comment = false := by
  simp only [floats, Token.floats, Bool.or_eq_false_iff] at h
  exact h.1

variable {tree : Tree}

theorem Derived.parts (h : tree.Derived automaton) :
    ∀ part ∈ tree.parts, part.Derived automaton := by
  cases h with
  | leaf => simp [Tree.parts]
  | node derived => simpa using derived

namespace Derived

/-- A phrase holds a token that is no comment. -/
theorem exists_code (facts : MarksPhrases automaton) (h : tree.Derived automaton) (hcounts : tree.floats = false)
    (hline : tree.isKind .lineEnd = false) :
    ∃ token ∈ tree.tokens, token.is .comment = false := by
  induction h with
  | @leaf token =>
    refine ⟨token, ?_, is_comment_of_floats hcounts⟩
    rw [tokens_leaf, if_neg (by simpa [isKind] using hline)]
    exact List.mem_singleton_self token
  | @node phrase extent weight parts first last derived head counts tail counts' makes ih =>
    obtain ⟨symbol, hsymbol, hcode⟩ := facts.exists_of_makes makes
    obtain ⟨part, hpart, rfl⟩ := List.mem_map.1 hsymbol
    obtain ⟨hpart, hfloats⟩ := List.mem_filter.1 hpart
    have hpartLine : part.isKind .lineEnd = false := by
      refine Bool.eq_false_iff.2 fun hkind => hcode (code_symbol_of_isKind hkind)
    obtain ⟨token, htoken, hcomment⟩ := ih part hpart (by simpa using hfloats) hpartLine
    refine ⟨token, ?_, hcomment⟩
    rw [tokens_node]
    exact List.mem_flatMap.2 ⟨part, hpart, htoken⟩

/-- The first part of a phrase other than `moreSignatures` has a text and is not of that kind. -/
theorem firstPart (facts : MarksPhrases automaton) {phrase : Phrase} {extent : Extent} {weight : Int}
    {parts : List Tree} (h : (Tree.node phrase extent weight parts).Derived automaton)
    (hphrase : phrase ≠ .moreSignatures) :
    ∃ first rest, parts = first :: rest ∧ first.floats = false ∧ first.isKind .lineEnd = false ∧
      first.isPhrase .moreSignatures = false := by
  cases h with
  | @node _ _ _ _ first last derived head counts tail counts' makes =>
    obtain ⟨rest, rfl⟩ := List.head?_eq_some_iff.1 head
    obtain ⟨slot, hruns, -, hslot⟩ := makes
    rw [symbolsOf_cons, if_neg (by simp [counts])] at hruns
    have hfronts := hruns.front facts.keepsPhrases
    have hnot : ∀ {code : Nat}, (code = lineEndCode ∨
          code = automaton.outline.alphabet.phraseCode .moreSignatures) →
        automaton.outline.alphabet.code first.symbol ≠ code := by
      rintro code hcode rfl
      exact hphrase (hslot.symm.trans (facts.eq_of_fronts hfronts hcode))
    refine ⟨first, rest, rfl, counts, ?_, ?_⟩
    · exact Bool.eq_false_iff.2 fun hkind => hnot (.inl rfl) (code_symbol_of_isKind hkind)
    · refine Bool.eq_false_iff.2 fun hkind => hnot (.inr rfl) ?_
      cases first with
      | leaf => simp [isPhrase] at hkind
      | node phrase =>
        simp only [isPhrase, beq_iff_eq] at hkind
        simp only [symbol, hkind]
        rfl

/-- A phrase other than `moreSignatures` begins with a token that is no comment and has characters. -/
theorem front (facts : MarksPhrases automaton) {text : List Char} (h : tree.Derived automaton) (placed : tree.Placed text)
    (hcounts : tree.floats = false) (hline : tree.isKind .lineEnd = false)
    (hphrase : tree.isPhrase .moreSignatures = false) :
    ∃ token rest, tree.tokens = token :: rest ∧ token.is .comment = false ∧
      token.extent.start = tree.extent.start ∧ token.extent.start < token.extent.stop := by
  induction h with
  | @leaf token inText =>
    have hkind : token.is .lineEnd = false := by simpa [isKind] using hline
    refine ⟨token, [], ?_, is_comment_of_floats hcounts, rfl, ?_⟩
    · rw [tokens_leaf, if_neg (by simp [hkind])]
    · cases placed with
      | leaf placed => exact placed.solid hkind inText
  | @node phrase extent weight parts first last derived head counts tail counts' makes ih =>
    have hnode : (Tree.node phrase extent weight parts).Derived automaton :=
      .node derived head counts tail counts' makes
    obtain ⟨part, rest, rfl, hpart, hpartLine, hpartPhrase⟩ :=
      hnode.firstPart facts (by simpa [isPhrase] using hphrase)
    obtain ⟨token, others, htokens, hcomment, hstart, hlt⟩ :=
      ih part (by simp) (placed.part (by simp)) hpart hpartLine hpartPhrase
    refine ⟨token, others ++ rest.flatMap tokens, ?_, hcomment, ?_, hlt⟩
    · rw [tokens_node, List.flatMap_cons, htokens, List.cons_append]
    · rw [hstart]
      cases placed with
      | node _ _ head start_eq =>
        obtain rfl := Option.some_inj.1 head
        exact start_eq.symm

/-- What a phrase other than `moreSignatures` is spread to begins with something that is no comment. -/
theorem spread_head (facts : MarksPhrases automaton) (h : tree.Derived automaton)
    (hcounts : tree.floats = false) (hline : tree.isKind .lineEnd = false)
    (hphrase : tree.isPhrase .moreSignatures = false) :
    ∃ first rest, tree.spread = first :: rest ∧ first.floats = false := by
  induction h with
  | @leaf token inText =>
    refine ⟨_, [], ?_, hcounts⟩
    rw [spread_leaf, if_neg (by simpa [isKind] using hline)]
  | @node phrase extent weight parts first last derived head counts tail counts' makes ih =>
    rw [spread_node]
    split
    · have hnode : (Tree.node phrase extent weight parts).Derived automaton :=
        .node derived head counts tail counts' makes
      obtain ⟨part, rest, rfl, hpart, hpartLine, hpartPhrase⟩ :=
        hnode.firstPart facts (by simpa [isPhrase] using hphrase)
      obtain ⟨child, others, hspread, hchild⟩ := ih part (by simp) hpart hpartLine hpartPhrase
      exact ⟨child, others ++ rest.flatMap Tree.spread, by rw [List.flatMap_cons, hspread]; rfl,
        hchild⟩
    · exact ⟨_, [], rfl, rfl⟩

/-- The first child of a phrase other than `moreSignatures` is no comment. -/
theorem children_head (facts : MarksPhrases automaton) (h : tree.Derived automaton)
    {phrase : Phrase} (hkind : tree.isPhrase phrase = true) (hphrase : phrase ≠ .moreSignatures) :
    ∃ first rest, tree.children = first :: rest ∧ first.floats = false := by
  cases tree with
  | leaf => simp [isPhrase] at hkind
  | node kind extent weight parts =>
    obtain rfl : kind = phrase := by simpa [isPhrase] using hkind
    obtain ⟨part, rest, rfl, hpart, hpartLine, hpartPhrase⟩ := h.firstPart facts hphrase
    obtain ⟨child, others, hspread, hchild⟩ :=
      (h.parts part (by simp [Tree.parts])).spread_head facts hpart hpartLine hpartPhrase
    exact ⟨child, others ++ rest.flatMap Tree.spread,
      by rw [children_eq, parts_node, List.flatMap_cons, hspread]; rfl, hchild⟩

/-- A tree whose symbol has a marked code is a token that has a text, or one of the phrases. -/
theorem eq_leaf_of_marked (h : tree.Derived automaton) (hcounts : tree.floats = false)
    {phrases : List Phrase}
    (hcode : automaton.Marked phrases (automaton.outline.alphabet.code tree.symbol)) :
    (∃ token, tree = .leaf token ∧ token.is .comment = false ∧ token.is .lineEnd = false ∧
      token.is .endOfText = false) ∨ ∃ phrase ∈ phrases, tree.isPhrase phrase = true := by
  cases h with
  | @leaf token inText =>
    refine .inl ⟨token, rfl, is_comment_of_floats hcounts, ?_, inText⟩
    refine Bool.eq_false_iff.2 fun hkind => hcode.1 (code_symbol_of_isKind ?_)
    simpa [isKind] using hkind
  | @node kind =>
    right
    rcases hcode.2 with hle | ⟨phrase, hphrase, heq⟩
    · simp only [symbol, Alphabet.code, Alphabet.phraseCode] at hle
      omega
    · refine ⟨phrase, hphrase, ?_⟩
      simp only [symbol, Alphabet.code, Alphabet.phraseCode] at heq
      have hindex : kind.ctorIdx = phrase.ctorIdx := by omega
      rw [isPhrase, beq_iff_eq, ← Phrase.ofNat_ctorIdx kind, hindex, Phrase.ofNat_ctorIdx]

/-- The first child of a block is a token that is no comment and has characters. -/
theorem block (facts : MarksPhrases automaton) {text : List Char} (h : tree.Derived automaton)
    (placed : tree.Placed text) (hphrase : tree.isPhrase .block = true) :
    ∃ brace rest, tree.children = .leaf brace :: rest ∧ brace.is .comment = false ∧
      brace.extent.start = tree.extent.start ∧ brace.extent.start < brace.extent.stop := by
  cases h with
  | leaf => simp [isPhrase] at hphrase
  | @node phrase extent weight parts first last derived head counts tail counts' makes =>
    obtain ⟨rest, rfl⟩ := List.head?_eq_some_iff.1 head
    obtain rfl : phrase = .block := by simpa [isPhrase] using hphrase
    rw [symbolsOf_cons, if_neg (by simp [counts])] at makes
    have hcode := makes.first facts.keepsPhrases facts.goal facts.block
    have hmarked := facts.brace
    rw [← hcode] at hmarked
    obtain ⟨brace, rfl, hcomment, hline, hinText⟩ :=
      (eq_leaf_of_marked (derived first (by simp)) counts hmarked).resolve_right (by simp)
    refine ⟨brace, rest.flatMap Tree.spread, ?_, hcomment, ?_, ?_⟩
    · rw [children_eq, parts_node, List.flatMap_cons, spread_leaf, if_neg (by simp [hline])]
      rfl
    · cases placed with
      | node _ _ head start_eq =>
        obtain rfl := Option.some_inj.1 head
        exact start_eq.symm
    · have hbrace : (Tree.leaf brace).Placed text := placed.part (by simp)
      cases hbrace with
      | leaf hplaced => exact hplaced.solid hline hinText

/-- The last token of a phrase that ends with a mark is no comment. -/
theorem back (facts : MarksPhrases automaton) (h : tree.Derived automaton) {phrase : Phrase}
    (hphrase : tree.isPhrase phrase = true) (hends : phrase ∈ endsMarked) :
    ∃ front last, tree.tokens = front ++ [last] ∧ last.is .comment = false := by
  induction h generalizing phrase with
  | leaf => simp [isPhrase] at hphrase
  | @node kind extent weight parts first last derived head counts tail counts' makes ih =>
    obtain ⟨front, rfl⟩ := List.getLast?_eq_some_iff.1 tail
    obtain rfl : kind = phrase := by simpa [isPhrase] using hphrase
    have hlast : symbolsOf [last] = [last.symbol] := by simp [symbolsOf, counts']
    rw [symbolsOf_append, hlast] at makes
    have hmarked := makes.last facts.keepsPhrases ⟨facts.ends.behind, facts.ends.front⟩ hends
    rcases eq_leaf_of_marked (derived last (by simp)) counts' hmarked with
      ⟨token, rfl, hcomment, hline, -⟩ | ⟨inner, hinner, hkind⟩
    · refine ⟨front.flatMap tokens, token, ?_, hcomment⟩
      rw [tokens_node, List.flatMap_append, List.flatMap_singleton, tokens_leaf,
        if_neg (by simp [hline])]
    · obtain ⟨others, token, htokens, hcomment⟩ := ih last (by simp) hkind hinner
      refine ⟨front.flatMap tokens ++ others, token, ?_, hcomment⟩
      rw [tokens_node, List.flatMap_append, List.flatMap_singleton, htokens, List.append_assoc]

theorem spread (h : tree.Derived automaton) :
    ∀ piece ∈ tree.spread, piece.Derived automaton ∧ piece.isKind .lineEnd = false := by
  induction h with
  | @leaf token inText =>
    rw [spread_leaf]
    split
    · simp
    · rename_i hkind
      intro piece hpiece
      obtain rfl := List.mem_singleton.1 hpiece
      exact ⟨.leaf inText, by simpa [isKind] using hkind⟩
  | @node phrase extent weight parts first last derived head counts tail counts' makes ih =>
    rw [spread_node]
    split
    · intro piece hpiece
      obtain ⟨part, hpart, hpiece⟩ := List.mem_flatMap.1 hpiece
      exact ih part hpart piece hpiece
    · intro piece hpiece
      obtain rfl := List.mem_singleton.1 hpiece
      exact ⟨.node derived head counts tail counts' makes, rfl⟩

end Derived

/-- The children of a tree are made by their parts, if the parts of the tree are. -/
theorem derived_child (h : ∀ part ∈ tree.parts, part.Derived automaton) {child : Tree}
    (hchild : child ∈ tree.children) :
    child.Derived automaton ∧ child.isKind .lineEnd = false := by
  rw [children_eq] at hchild
  obtain ⟨part, hpart, hchild⟩ := List.mem_flatMap.1 hchild
  exact (h part hpart).spread child hchild

end Tree

end CodeSplice.Syntax
