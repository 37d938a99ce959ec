/-
Module: CodeSplice.Syntax.Automaton.Lookahead
Purpose: What can come next. From the slots of a grammar follow the symbols that the texts of a phrase
  can begin with, the terminals that can follow a slot inside its phrase, and the terminals that can
  follow a phrase where another phrase begins with it.
Main exports: Outline, Outline.begins, Outline.after, Opening, Automaton, Automaton.ofGrammar
-/
import CodeSplice.Syntax.Automaton.Slot
import CodeSplice.Syntax.Automaton.Table

namespace CodeSplice.Syntax

/-- Repeat a step until it changes nothing, at most `fuel` times. -/
def settle {α : Type} [BEq α] (step : α → α) : Nat → α → α
  | 0, value => value
  | fuel + 1, value =>
    let next := step value
    if next == value then value else settle step fuel next

/-! ### The slots of a grammar -/

/-- The slots of a grammar. Slots are numbered from zero; the slot zero stands in front of a text, and no
symbol fills it. Phrases are numbered in their own order. -/
structure Outline where
  alphabet : Alphabet
  slots : Table Slot
  /-- The number of slots. -/
  size : Nat
  /-- The number of phrases. -/
  phrases : Nat
  /-- For every phrase, the arcs that it can begin with. -/
  starts : Table (List Arc)
deriving Repr, Inhabited

namespace Outline

/-- The productions with the numbers of their first slots, numbered from `start`. -/
def number : Nat → List Production → List (Nat × Production)
  | _, [] => []
  | start, production :: productions =>
    (start, production) :: number (start + production.body.size) productions

/-- The slot in front of a text, given the arcs that the text can begin with. -/
def beginning (goal : Phrase) (next : List Arc) : Slot :=
  { phrase := goal
    precedence := default
    grouping := .none
    weight := 0
    next
    final := false }

/-- The slots of a grammar. -/
def ofGrammar (grammar : Grammar) : Outline :=
  let alphabet := .ofGrammar grammar
  let numbered := number 1 grammar.productions
  let phrases := grammar.productions.foldl (fun bound production =>
    max bound (production.phrase.ctorIdx + 1)) 0
  let starts := .collect phrases (numbered.flatMap fun (start, production) =>
    (production.first alphabet start).map fun arc => (production.phrase.ctorIdx, arc))
  let slots := beginning grammar.goal (starts.getD grammar.goal.ctorIdx []) ::
    numbered.flatMap fun (start, production) => production.slots alphabet start
  { alphabet
    slots := .ofList slots
    size := slots.length
    phrases
    starts }

variable (outline : Outline)

/-- The slot of the given number. -/
def slot (number : Nat) : Slot :=
  outline.slots.getD number default

/-- The code of a phrase, given its number. -/
def codeOf (phrase : Nat) : Nat :=
  outline.alphabet.size + 1 + phrase

/-- The number of the phrase that fills the slot of an arc, unless a terminal fills it. -/
def phraseOf? (arc : Arc) : Option Nat :=
  outline.alphabet.phraseOf? arc.code

/-- For every phrase, the symbols that it directly begins with: their set, and the numbers of those that
are phrases. Only arcs that pass the test count. -/
def direct (test : Arc → Bool) : List (SymbolSet × List Nat) :=
  (List.range outline.phrases).map fun phrase =>
    let arcs := (outline.starts.getD phrase []).filter test
    (SymbolSet.unions (fun arc : Arc => .one arc.code) arcs,
      (arcs.filterMap outline.phraseOf?).eraseDups)

/-- For every phrase, the symbols that it begins with directly or through others. -/
def closure (direct : List (SymbolSet × List Nat)) : Table SymbolSet :=
  let step (sets : List SymbolSet) : List SymbolSet :=
    let table := Table.ofList sets
    direct.map fun (own, inner) => own.union (SymbolSet.unions (table.getD · 0) inner)
  .ofList (settle step direct.length (direct.map (·.1)))

/-- For every phrase, the symbols that its texts can begin with. -/
def begins : Table SymbolSet :=
  closure (outline.direct fun _ => true)

/-- For every phrase, the symbols that can be all of it. -/
def wholes : Table SymbolSet :=
  closure (outline.direct (·.final))

/-- The set of a phrase, the phrase itself included. -/
def reach (sets : Table SymbolSet) (phrase : Nat) : SymbolSet :=
  (sets.getD phrase 0).union (.one (outline.codeOf phrase))

/-- The set of the symbol of an arc: itself, and the set of the phrase if it is one. -/
def reachOf (sets : Table SymbolSet) (arc : Arc) : SymbolSet :=
  match outline.phraseOf? arc with
  | some phrase => outline.reach sets phrase
  | none => .one arc.code

/-- For every slot, the terminals that can follow it inside its phrase, given the symbols that the texts
of phrases can begin with. -/
def after (begins : Table SymbolSet) (number : Nat) : SymbolSet :=
  (SymbolSet.unions (outline.reachOf begins) (outline.slot number).next).inter
    outline.alphabet.terminals

/-- The arcs that phrases begin with, phrase by phrase. -/
def starters : List (Nat × Arc) :=
  (List.range outline.phrases).flatMap fun phrase =>
    (outline.starts.getD phrase []).map fun arc => (phrase, arc)

/-- The phrases that phrases begin with: the outer phrase, the phrases that can be all of the inner one,
and the terminals that can follow the inner one in the outer one. -/
def inner (begins wholes : Table SymbolSet) : List (Nat × SymbolSet × SymbolSet) :=
  outline.starters.filterMap fun (phrase, arc) =>
    (outline.phraseOf? arc).map fun inner =>
      (phrase, outline.reach wholes inner, outline.after begins arc.slot)

end Outline

/-! ### One phrase at the beginning of another -/

/-- How one phrase begins with another. -/
structure Opening where
  /-- The terminals that can follow the inner phrase inside the outer one. -/
  ahead : SymbolSet
  /-- Whether the inner phrase can be all of the outer one, so that what follows the outer phrase
  follows the inner one too. -/
  whole : Bool
deriving DecidableEq, Repr, Inhabited

/-- The terminals that follow the inner phrase where `follow` follows the outer one. -/
def Opening.follow (opening : Opening) (follow : SymbolSet) : SymbolSet :=
  if opening.whole then opening.ahead.union follow else opening.ahead

/-- Put together the sets of one phrase that stand next to each other. -/
def gather : List (Nat × SymbolSet) → List (Nat × SymbolSet)
  | [] => []
  | (phrase, set) :: rest =>
    match gather rest with
    | (other, more) :: others =>
      if other == phrase then (phrase, set.union more) :: others
      else (phrase, set) :: (other, more) :: others
    | [] => [(phrase, set)]

/-- Put together the slots of one phrase that stand next to each other. -/
def groupStarters : List (Nat × Nat) → List (Nat × List Nat)
  | [] => []
  | (phrase, slot) :: rest =>
    match groupStarters rest with
    | (other, slots) :: others =>
      if other == phrase then (phrase, slot :: slots) :: others
      else (phrase, [slot]) :: (other, slots) :: others
    | [] => [(phrase, [slot])]

/-- A grammar, prepared for reading. -/
structure Automaton where
  grammar : Grammar
  outline : Outline
  /-- For every phrase, the symbols that its texts can begin with. -/
  begins : Table SymbolSet
  /-- For every slot, the terminals that can follow it inside its phrase. -/
  after : Table SymbolSet
  /-- For every phrase, how it begins with each phrase that it begins with. -/
  openings : Table (Thunk (Table Opening))
  /-- For every symbol, the slots of it that phrases begin with, phrase by phrase. -/
  starters : Table (List (Nat × List Nat))

namespace Automaton

/-- Prepare a grammar for reading. -/
def ofGrammar (grammar : Grammar) : Automaton :=
  let outline := Outline.ofGrammar grammar
  let begins := outline.begins
  let wholes := outline.wholes
  let inner := outline.inner begins wholes
  let starters := Table.collect (outline.codeOf outline.phrases)
    (outline.starters.map fun (phrase, arc) => (arc.code, phrase, arc.slot))
  let contexts := Table.ofFn outline.phrases fun phrase =>
    gather (inner.filterMap fun (outer, whole, after) =>
      if whole.holds (outline.codeOf phrase) then some (outer, after) else none)
  let opening (outer phrase : Nat) : Opening :=
    { ahead := SymbolSet.unions (·.2) ((contexts.getD phrase []).filter fun context =>
        (outline.reach begins outer).holds (outline.codeOf context.1))
      whole := (outline.reach wholes outer).holds (outline.codeOf phrase) }
  { grammar
    outline
    begins
    after := .ofFn outline.size (outline.after begins)
    openings := .ofFn outline.phrases fun outer =>
      .mk fun _ => .ofFn outline.phrases (opening outer)
    starters := .ofFn (outline.codeOf outline.phrases) fun code =>
      groupStarters (starters.getD code []) }

end Automaton

end CodeSplice.Syntax
