/-
Module: CodeSplice.Syntax.Automaton.State
Purpose: What is known at a place of a text. A state is a list of the phrases that are being read, each
  with the slot that has just been filled, the number of its parts so far, and what can follow it. From
  the state and the terminal that comes next follows whether to go on, to complete a phrase, or both:
  precedence decides where it can, and elsewhere every reading is kept.
Main exports: State, Automaton.start, Automaton.goto, Automaton.expected, Verdict, Automaton.verdict
-/
import CodeSplice.Syntax.Automaton.Lookahead
import CodeSplice.Syntax.Grammar.Ranking

namespace CodeSplice.Syntax

/-- A phrase that is being read. -/
structure Pending where
  /-- The slot that has just been filled. -/
  slot : Nat
  /-- How many parts of the phrase have been read. -/
  count : Nat
  /-- The terminals that can follow the phrase. -/
  follow : SymbolSet
deriving DecidableEq, Repr, Inhabited

/-- The phrases that are being read at a place. -/
abbrev State := List Pending

/-- A phrase that is complete: its kind, the number of its parts, and its weight. -/
structure Reduction where
  phrase : Phrase
  count : Nat
  weight : Int
deriving DecidableEq, Repr, Inhabited

/-- What to do when a terminal comes next: the phrases that it completes, and whether it can be taken
as a part of a phrase. If more than one thing can be done, each gives a reading of its own. -/
structure Verdict where
  reductions : List Reduction
  shifts : Bool
deriving DecidableEq, Repr, Inhabited

/-- A phrase that can be completed, with what its precedence is compared by. -/
structure Completion where
  reduction : Reduction
  precedence : Precedence
  grouping : Grouping
deriving DecidableEq, Repr, Inhabited

/-- The phrases chosen for completion so far. -/
structure Chosen where
  reductions : List Reduction := []
  standing : Standing := ⟨.number 0, []⟩
  groupings : List Grouping := []
deriving DecidableEq, Repr, Inhabited

namespace Chosen

/-- Add a completion to those chosen. -/
def add (chosen : Chosen) (completion : Completion) : Chosen :=
  { reductions :=
      if chosen.reductions.contains completion.reduction then chosen.reductions
      else chosen.reductions ++ [completion.reduction]
    standing := ⟨completion.precedence, completion.reduction.phrase :: chosen.standing.phrases⟩
    groupings := completion.grouping :: chosen.groupings }

/-- Weigh a completion against those chosen: it replaces them if its precedence is higher, joins them
if neither is higher, and is left out otherwise. -/
def weigh (grammar : Grammar) (chosen : Chosen) (completion : Completion) : Chosen :=
  if chosen.reductions.isEmpty then chosen.add completion
  else
    match grammar.compare ⟨completion.precedence, [completion.reduction.phrase]⟩ chosen.standing with
    | .gt => Chosen.add {} completion
    | .eq => chosen.add completion
    | .lt => chosen

end Chosen

namespace Automaton

variable (automaton : Automaton)

/-- The slot of the given number. -/
def slot (number : Nat) : Slot :=
  automaton.outline.slot number

/-- The terminals that can stand behind a slot, given what can follow its phrase; `final` says whether
the phrase can end there. -/
def behind (number : Nat) (final : Bool) (follow : SymbolSet) : SymbolSet :=
  let after := automaton.after.getD number 0
  if final then after.union follow else after

/-- The terminals that can come next. -/
def expected (state : State) : SymbolSet :=
  SymbolSet.unions
    (fun pending : Pending =>
      automaton.behind pending.slot (automaton.slot pending.slot).final pending.follow)
    state

/-- The state at the beginning of a text. -/
def start : State := [⟨0, 0, 0⟩]

/-- The phrases that can come next, by number, with the terminals that can follow them. -/
def opened (state : State) : List (Nat × SymbolSet) :=
  state.flatMap fun pending => (automaton.slot pending.slot).next.filterMap fun arc =>
    (automaton.outline.phraseOf? arc).map fun phrase =>
      (phrase, automaton.behind arc.slot arc.final pending.follow)

/-- The terminals that can follow a phrase where the given phrases can come next. -/
def followOf (opened : List (Nat × SymbolSet)) (phrase : Nat) : SymbolSet :=
  SymbolSet.unions
    (fun (outer, follow) =>
      if (automaton.outline.reach automaton.begins outer).holds
          (automaton.outline.codeOf phrase) then
        match (automaton.openings.get? outer).bind (·.get.get? phrase) with
        | some opening => opening.follow follow
        | none => 0
      else 0)
    opened

/-- Put a pending phrase in its place. Two for the same slot and count become one. -/
def insertPending (pending : Pending) : State → State
  | [] => [pending]
  | other :: others =>
    if other.slot == pending.slot && other.count == pending.count then
      { other with follow := other.follow.union pending.follow } :: others
    else if pending.count < other.count ||
        (pending.count == other.count && pending.slot < other.slot) then
      pending :: other :: others
    else other :: insertPending pending others

/-- The phrases that go on with a symbol, given its code. -/
def advanced (state : State) (code : Nat) : State :=
  state.foldl
    (fun found pending => (automaton.slot pending.slot).next.foldl
      (fun found arc =>
        if arc.code == code then
          insertPending ⟨arc.slot, pending.count + 1, pending.follow⟩ found
        else found)
      found)
    []

/-- The phrases that begin with a symbol, given its code. -/
def begun (state : State) (code : Nat) : State :=
  let opened := automaton.opened state
  let reached := SymbolSet.unions
    (fun entry : Nat × SymbolSet => automaton.outline.reach automaton.begins entry.1) opened
  (automaton.starters.getD code []).flatMap fun (phrase, slots) =>
    if reached.holds (automaton.outline.codeOf phrase) then
      let follow := automaton.followOf opened phrase
      slots.map fun slot => ⟨slot, 1, follow⟩
    else []

/-- The state behind a symbol. It holds no phrase if the symbol cannot come next. -/
def goto (state : State) (symbol : Symbol) : State :=
  let code := automaton.outline.alphabet.code symbol
  automaton.begun state code ++ automaton.advanced state code

/-! ### Choosing what to do -/

/-- Whether one completion is considered before another: shorter phrases come first, then the order
of the phrases decides. -/
def precedes (first second : Completion) : Bool :=
  first.reduction.count < second.reduction.count ||
    (first.reduction.count == second.reduction.count &&
      first.reduction.phrase.ctorIdx < second.reduction.phrase.ctorIdx)

/-- Put a completion in front of the first one that it precedes. -/
def insertCompletion (completion : Completion) : List Completion → List Completion
  | [] => [completion]
  | other :: others =>
    if precedes completion other then completion :: other :: others
    else other :: insertCompletion completion others

/-- The phrases that can be completed where the terminal of the given code follows, in the order in
which they are considered. -/
def completions (state : State) (code : Nat) : List Completion :=
  state.foldl
    (fun found pending =>
      let slot := automaton.slot pending.slot
      if slot.final && pending.follow.holds code then
        insertCompletion
          { reduction := ⟨slot.phrase, pending.count, slot.weight⟩
            precedence := slot.precedence
            grouping := slot.grouping } found
      else found)
    []

/-- The standings of the phrases that go on with the terminal of the given code. -/
def continuing (state : State) (code : Nat) : List Standing :=
  state.filterMap fun pending =>
    if (automaton.after.getD pending.slot 0).holds code then
      let slot := automaton.slot pending.slot
      some ⟨slot.precedence, [slot.phrase]⟩
    else none

/-- Choose between completing phrases and going on. Precedence decides if the phrases that go on are
all at least, or all at most, of the precedence of those that are complete; if all are equal,
grouping decides if it is the same for all that are complete. -/
def decide (chosen : Chosen) (continuing : List Standing) : Verdict :=
  let orders := continuing.map fun standing => automaton.grammar.compare standing chosen.standing
  let higher := orders.contains .gt
  let lower := orders.contains .lt
  let groupedBy (grouping : Grouping) := chosen.groupings.all (· == grouping)
  if higher && !lower then ⟨[], true⟩
  else if lower && !higher then ⟨chosen.reductions, false⟩
  else if !higher && !lower && groupedBy .left then ⟨chosen.reductions, false⟩
  else if !higher && !lower && groupedBy .right then ⟨[], true⟩
  else ⟨chosen.reductions, true⟩

/-- What to do in a state when a terminal comes next. -/
def verdict (state : State) (terminal : Terminal) : Verdict :=
  let code := automaton.outline.alphabet.terminalCode terminal
  let chosen := (automaton.completions state code).foldl (Chosen.weigh automaton.grammar) {}
  match chosen.reductions, automaton.continuing state code with
  | reductions, [] => ⟨reductions, false⟩
  | [], _ => ⟨[], true⟩
  | _, continuing => automaton.decide chosen continuing

end Automaton

end CodeSplice.Syntax
