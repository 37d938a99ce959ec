/-
Module: CodeSplice.Syntax.Stack
Purpose: Stacks that hold several readings of a text at once. Each level has a state; a link leads from
  it to the level below and holds the tree read in between. Readings that agree on the state and the
  place share their level and keep their links side by side.
Main exports: Stack, Stack.push, Stack.addLinksOf, Stack.pop
-/
import CodeSplice.Syntax.Automaton.State
import CodeSplice.Syntax.Scan
import CodeSplice.Syntax.Tree

namespace CodeSplice.Syntax

/-- A stack of readings. `number` tells levels apart that were made separately. -/
inductive Stack where
  | level (number : Nat) (state : State) (cursor : Cursor) (weight : Int)
      (links : List (Tree × Stack))
deriving Inhabited

/-- A tree and the stack below it. -/
abbrev Link := Tree × Stack

namespace Stack

/-- The number of the topmost level. -/
def number : Stack → Nat
  | level number _ _ _ _ => number

/-- The state at the top. -/
def state : Stack → State
  | level _ state _ _ _ => state

/-- How far the text has been read. -/
def cursor : Stack → Cursor
  | level _ _ cursor _ _ => cursor

/-- The weight of the weightiest reading in the stack. -/
def weight : Stack → Int
  | level _ _ _ weight _ => weight

/-- The trees at the top, each with the stack below it. -/
def links : Stack → List Link
  | level _ _ _ _ links => links

/-- The stack in front of a text. -/
def bottom (text : List Char) : Stack :=
  level 0 Automaton.start { rest := text } 0 []

/-- Put a tree on a stack. -/
def push (number : Nat) (below : Stack) (tree : Tree) (state : State) (cursor : Cursor) : Stack :=
  level number state cursor (below.weight + tree.weight) [(tree, below)]

/-- Whether two stacks agree on their state and place. -/
def agrees (first second : Stack) : Bool :=
  first.cursor.position == second.cursor.position && first.state == second.state

/-- The number of links that a level keeps at most. -/
def maxLinks : Nat := 8

/-- Replace the first link that an update applies to. -/
def updateFirst (update : Link → Option Link) : List Link → Option (List Link)
  | [] => none
  | link :: links =>
    match update link with
    | some link => some (link :: links)
    | none => (updateFirst update links).map (link :: ·)

/-- A stack with other links at the top, of which one has the given weight. -/
def withLinks (stack : Stack) (weight : Int) (links : List Link) : Stack :=
  level stack.number stack.state stack.cursor (max stack.weight weight) links

mutual

/-- Add a link at the top of a stack. A link like one that is there already joins it: over the same
level the weightier tree is kept, over levels that agree the links below are joined. -/
def addLink (stack : Stack) : Link → Stack
  | (tree, below) =>
    let join : Link → Option Link := fun (other, under) =>
      if !other.alike tree then none
      else if under.number == below.number then
        some (if other.weight < tree.weight then tree else other, under)
      else if under.agrees below then some (other, addLinksOf under below)
      else none
    let weight := below.weight + tree.weight
    if below.number == stack.number then stack
    else
      match updateFirst join stack.links with
      | some links => stack.withLinks weight links
      | none =>
        if maxLinks ≤ stack.links.length then stack
        else stack.withLinks weight (stack.links ++ [(tree, below)])

/-- Add the links at the top of one stack to another. -/
def addLinksOf (stack : Stack) : Stack → Stack
  | level _ _ _ _ links => addLinks stack links

/-- Add several links at the top of a stack. -/
def addLinks (stack : Stack) : List (Tree × Stack) → Stack
  | [] => stack
  | link :: links => addLinks (addLink stack link) links

end

/-! ### Taking trees off -/

/-- A tree with the place behind it. -/
abbrev Part := Tree × Cursor

/-- A way down a stack: the parts taken so far, in source order, and how many more to take. -/
structure Path where
  stack : Stack
  parts : List Part
  left : Nat
deriving Inhabited

/-- The ways to take one more tree. Tokens that may stand anywhere do not count. -/
def Path.descend (path : Path) : List Path :=
  path.stack.links.map fun (tree, below) =>
    { stack := below
      parts := (tree, path.stack.cursor) :: path.parts
      left := if tree.floats then path.left else path.left - 1 }

/-- The number of ways that are followed at most at one time. -/
def maxPaths : Nat := 64

/-- A stack that is left when parts have been taken off, with the parts of each way to it. -/
abbrev Landing := Stack × List (List Part)

/-- Note where a path ends. -/
def land (path : Path) : List Landing → List Landing
  | [] => [(path.stack, [path.parts])]
  | (stack, readings) :: landings =>
    if stack.number == path.stack.number then (stack, readings ++ [path.parts]) :: landings
    else (stack, readings) :: land path landings

/-- Follow paths down until each has taken its parts. -/
def descend (fuel : Nat) (paths : List Path) (landings : List Landing) : List Landing :=
  match fuel with
  | 0 => landings
  | fuel + 1 =>
    let (done, going) := paths.partition fun path => path.left == 0
    let landings := done.foldl (fun landings path => land path landings) landings
    if going.isEmpty then landings
    else
      let ways := going.map Path.descend
      let first := ways.filterMap List.head?
      let others := (ways.flatMap List.tail).take (maxPaths - first.length)
      descend fuel (first ++ others) landings

/-- Take a number of parts off a stack, in every way. -/
def pop (fuel count : Nat) (stack : Stack) : List Landing :=
  descend fuel [⟨stack, [], count⟩] []

/-- The trees of the first reading in a stack, in front of others. -/
def firstReading (stack : Stack) (others : List Tree) : List Tree :=
  match stack with
  | level _ _ _ _ [] => others
  | level _ _ _ _ ((tree, below) :: _) => firstReading below (tree :: others)

end Stack

end CodeSplice.Syntax
