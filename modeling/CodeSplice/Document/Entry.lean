/-
Module: CodeSplice.Document.Entry
Purpose: The children of a container (a file, a class body, a constructor body) with what stands
  around them: the comments above a child, the blank line in front of it and the comment behind it.
Main exports: Comment, Entry, Entry.leadingBlank, renderEntries
-/
import CodeSplice.Layout.Block

namespace CodeSplice

open Layout

/-- A comment on lines of its own. -/
structure Comment where
  /-- Whether a blank line separates the comment from what precedes it. -/
  blankBefore : Bool
  text : Block
deriving DecidableEq, Repr, Inhabited

/-- A child of a container. -/
structure Entry (α : Type) where
  /-- The comments above the child. -/
  comments : List Comment := []
  /-- Whether a blank line separates the child from what precedes it. -/
  blankBefore : Bool := false
  node : α
  /-- The comment on the line where the child ends. -/
  trailing : Option String := none
deriving DecidableEq, Repr, Inhabited

namespace Entry

variable {α : Type}

/-- Whether a blank line separates an entry, with its comments, from what precedes it. -/
def leadingBlank (entry : Entry α) : Bool :=
  match entry.comments with
  | [] => entry.blankBefore
  | comment :: _ => comment.blankBefore

/-- Set whether a blank line separates an entry, with its comments, from what precedes it. -/
def setLeadingBlank (entry : Entry α) (blank : Bool) : Entry α :=
  match entry.comments with
  | [] => { entry with blankBefore := blank }
  | comment :: comments =>
    { entry with comments := { comment with blankBefore := blank } :: comments }

@[simp] theorem leadingBlank_setLeadingBlank (entry : Entry α) (blank : Bool) :
    (entry.setLeadingBlank blank).leadingBlank = blank := by
  unfold setLeadingBlank leadingBlank
  cases entry.comments <;> simp

end Entry

/-! ### Rendering a container

A blank line is never written at the top of a container, and never twice in a row. -/

/-- Write a blank line if something stands above it and it is wanted. -/
def separate (w : Writer) (below wanted : Bool) : Writer :=
  if below && wanted then w.blank else w

/-- Render comments. `below` tells whether something stands above them, `forced` whether a blank line
has to come before the first. -/
def renderComments (w : Writer) (below forced : Bool) : List Comment → Writer
  | [] => w
  | comment :: comments =>
    renderComments (comment.text.render (separate w below (comment.blankBefore || forced)))
      true false comments

/-- Append a comment to the line written last. -/
def appendComment (w : Writer) : Option String → Writer
  | none => w
  | some comment => w.extendLast (" " ++ comment)

section

variable {α : Type}

/-- Render one entry with its comments. -/
def renderEntry (node : α → Writer → Writer) (w : Writer) (below forced : Bool) (entry : Entry α) :
    Writer :=
  let commented := !entry.comments.isEmpty
  let w := renderComments w below forced entry.comments
  let w := separate w (below || commented) (entry.blankBefore || (forced && !commented))
  appendComment (node entry.node w) entry.trailing

/-- Render entries that follow the node `previous`, if there is one. `apart` says which neighbours
always have a blank line in between. -/
def renderAfter (apart : α → α → Bool) (node : α → Writer → Writer) (w : Writer)
    (previous : Option α) : List (Entry α) → Writer
  | [] => w
  | entry :: entries =>
    let forced := (previous.map fun p => apart p entry.node).getD false
    renderAfter apart node (renderEntry node w previous.isSome forced entry) (some entry.node)
      entries

/-- Render the entries of a container and the comments behind the last one. -/
def renderEntries (apart : α → α → Bool) (node : α → Writer → Writer) (entries : List (Entry α))
    (dangling : List Comment) (w : Writer) : Writer :=
  renderComments (renderAfter apart node w none entries) (!entries.isEmpty) false dangling

end

end CodeSplice
