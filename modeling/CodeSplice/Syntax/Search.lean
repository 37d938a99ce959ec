/-
Module: CodeSplice.Syntax.Search
Purpose: How a text is read with a grammar that allows several readings at a time. The readings go
  through the text side by side: each takes the token that it expects, completes phrases and splits
  where more than one thing can be done. Readings that come to the same state at the same place are
  merged; of the others the weightiest are kept. A text has a tree if one reading reaches its end.
Main exports: Search, Automaton.read?
-/
import CodeSplice.Syntax.Stack

namespace CodeSplice.Syntax

/-- The readings of a text so far. -/
structure Search where
  /-- The stacks of the readings; a reading that could not go on has none. -/
  heads : List (Option Stack)
  /-- The number of the next level. -/
  fresh : Nat
  /-- The tree of the best reading that has reached the end of the text. -/
  result : Option Tree := none
deriving Inhabited

namespace Search

/-- The number of readings beyond which no new one is begun. -/
def maxHeads : Nat := 10

/-- The number of readings that are kept when all have come to the same place. -/
def keptHeads : Nat := 6

/-- The stack of a reading. -/
def head? (search : Search) (index : Nat) : Option Stack :=
  search.heads[index]?.getD none

/-- Give a reading another stack, or stop it. -/
def setHead (search : Search) (index : Nat) (head : Option Stack) : Search :=
  { search with heads := search.heads.set index head }

/-- Put a token on top of a reading. -/
def push (search : Search) (index : Nat) (stack : Stack) (token : Token) (state : State)
    (cursor : Cursor) : Search :=
  { search.setHead index (some (stack.push search.fresh (.leaf token) state cursor)) with
    fresh := search.fresh + 1 }

/-- Merge a stack into the first reading that agrees with it, apart from the reading `skip`. The
readings are numbered from `index`. -/
def mergeInto (stack : Stack) (skip index : Nat) :
    List (Option Stack) → Option (List (Option Stack))
  | [] => none
  | none :: heads => (mergeInto stack skip (index + 1) heads).map (none :: ·)
  | some other :: heads =>
    if index != skip && other.agrees stack then some (some (other.addLinksOf stack) :: heads)
    else (mergeInto stack skip (index + 1) heads).map (some other :: ·)

/-- Add a reading that has come from the reading `index`. -/
def addHead (search : Search) (index : Nat) (stack : Stack) : Search :=
  { search with
    heads := (mergeInto stack index 0 search.heads).getD (search.heads ++ [some stack]) }

end Search

open Stack

/-! ### Completing phrases -/

/-- The parts of a phrase, and the comments behind it, which are no parts of it. -/
def splitFloating (parts : List Part) : List Part × List Part :=
  let floating := (parts.reverse.takeWhile (·.1.floats)).reverse
  (parts.take (parts.length - floating.length), floating)

/-- A phrase with the place behind it, and the comments behind that. -/
structure Completed where
  tree : Tree
  cursor : Cursor
  floating : List Part
deriving Inhabited

namespace Completed

/-- The phrase that a list of parts makes. -/
def ofParts (reduction : Reduction) (start : Cursor) (parts : List Part) : Completed :=
  let (inner, floating) := splitFloating parts
  { tree := .ofParts reduction.phrase reduction.weight (inner.map (·.1))
    cursor := (inner.getLast?.map (·.2)).getD start
    floating }

/-- The better of two ways to complete a phrase. -/
def better (first second : Completed) : Completed :=
  if first.tree.prefersSecond second.tree then second else first

end Completed

namespace Automaton

variable (automaton : Automaton)

/-- Put a completed phrase on the stack that it was taken off. -/
def replace (reduction : Reduction) (index : Nat) (search : Search) (landing : Landing) : Search :=
  let (stack, readings) := landing
  let state := automaton.goto stack.state (.phrase reduction.phrase)
  match readings.map (Completed.ofParts reduction stack.cursor) with
  | [] => search
  | first :: others =>
    if Search.maxHeads < search.heads.length || state.isEmpty then search
    else
      let best := others.foldl Completed.better first
      let (top, fresh) := best.floating.foldl
        (fun (below, fresh) (tree, cursor) => (below.push fresh tree state cursor, fresh + 1))
        (stack.push search.fresh best.tree state best.cursor, search.fresh + 1)
      { search with fresh }.addHead index top

/-- Complete a phrase in the reading `index`. The results are readings of their own; the answer says
which of them is the first. -/
def complete (search : Search) (index : Nat) (reduction : Reduction) : Search × Option Nat :=
  match search.head? index with
  | none => (search, none)
  | some stack =>
    let landings := stack.pop search.fresh reduction.count
    let next := landings.foldl (automaton.replace reduction index) search
    (next, if search.heads.length < next.heads.length then some search.heads.length else none)

/-- Complete several phrases in the reading `index`. The answer says which of the readings that come
from the last one is the first. -/
def completeAll (index : Nat) (search : Search) (last : Option Nat) :
    List Reduction → Search × Option Nat
  | [] => (search, last)
  | reduction :: reductions =>
    let (search, first) := automaton.complete search index reduction
    completeAll index search (first.or last) reductions

/-! ### Taking tokens -/

/-- Note that a reading has reached the end of the text. -/
def finish (search : Search) (index : Nat) (stack : Stack) : Search :=
  let tree := Tree.ofParts automaton.grammar.goal 0 (stack.firstReading [])
  let best :=
    match search.result with
    | none => tree
    | some other => if other.prefersSecond tree then tree else other
  { search.setHead index none with result := some best }

/-- The name that a keyword is where the keyword cannot stand. -/
def asName? (token : Token) : Option Token :=
  match token.terminal with
  | .spelled text =>
    if Alphabet.isWord text then some { token with terminal := .kind .word } else none
  | .kind _ => none

/-- Let the reading `index` take a token, after the phrases that the token completes. A keyword that
cannot come next is taken as a name. -/
def take (fuel : Nat) (index : Nat) (token : Token) (cursor : Cursor) (search : Search) : Search :=
  match fuel, search.head? index with
  | fuel + 1, some stack =>
    if token.floats then search.push index stack token stack.state cursor
    else
      let verdict := automaton.verdict stack.state token.terminal
      let (search, last) := automaton.completeAll index search none verdict.reductions
      if verdict.shifts then
        if token.is .endOfText then automaton.finish search index stack
        else
          search.push index stack token (automaton.goto stack.state (.terminal token.terminal)) cursor
      else
        match last with
        | some last =>
          let moved := search.setHead index (search.head? last)
          take fuel index token cursor { moved with heads := moved.heads.eraseIdx last }
        | none =>
          match asName? token with
          | some name => take fuel index name cursor search
          | none => search.setHead index none
  | _, _ => search.setHead index none

/-- Let the reading `index` take the token that it expects. -/
def advance (fuel : Nat) (index : Nat) (search : Search) : Search :=
  match search.head? index with
  | none => search
  | some stack =>
    match (Expectation.mk automaton.outline.alphabet (automaton.expected stack.state)).next? stack.cursor.rest with
    | none => search.setHead index none
    | some sighting =>
      let (token, cursor) := stack.cursor.take sighting
      automaton.take fuel index token cursor search

/-- Let the reading `index` take tokens until it stops or has come beyond the place `reached`; readings
other than the first need only come to it. -/
def catchUp (fuel : Nat) (bound : Nat) (index reached : Nat) (search : Search) : Search × Nat :=
  match fuel with
  | 0 => (search, reached)
  | fuel + 1 =>
    let search := automaton.advance bound index search
    match search.head? index with
    | none => (search, reached)
    | some stack =>
      let position := stack.cursor.position
      if reached < position || (index != 0 && reached == position) then (search, position)
      else catchUp fuel bound index reached search

/-- Let every reading from `index` on go forward. -/
def catchUpAll (fuel : Nat) (bound : Nat) (index reached : Nat) (search : Search) : Search × Nat :=
  match fuel with
  | 0 => (search, reached)
  | fuel + 1 =>
    if index < search.heads.length then
      let (search, reached) := automaton.catchUp bound bound index reached search
      catchUpAll fuel bound (index + 1) reached search
    else (search, reached)

/-! ### The whole text -/

/-- Put a reading in its place among others, the weightier ones first. Readings that agree are
merged. -/
def rank (stack : Stack) : List Stack → List Stack
  | [] => [stack]
  | other :: others =>
    if other.agrees stack then other.addLinksOf stack :: others
    else if other.weight < stack.weight then stack :: rank other others
    else other :: rank stack others

/-- The readings that are kept. -/
def keep (heads : List (Option Stack)) : List (Option Stack) :=
  (((heads.filterMap id).foldl (fun ranked stack => rank stack ranked) []).take
    Search.keptHeads).map some

/-- Go on until all readings have stopped. -/
def run (fuel : Nat) (bound reached : Nat) (search : Search) : Option Tree :=
  match fuel with
  | 0 => search.result
  | fuel + 1 =>
    if search.heads.isEmpty then search.result
    else
      let (search, reached) := automaton.catchUpAll bound bound 0 reached search
      run fuel bound reached { search with heads := keep search.heads }

/-- The tree of a text. A text without a tree is not of the grammar. -/
def read? (text : List Char) : Option Tree :=
  let bound := 64 * (2 + text.length)
  automaton.run bound bound 0 { heads := [some (.bottom text)], fresh := 1 }

end Automaton

end CodeSplice.Syntax
