/-
Module: CodeSplice.Document.Attach
Purpose: How the comments of a container find their place. The children of a container come as
  pieces in source order; a comment goes behind the child that ends on its row, behind the opening
  brace on the row of that brace, and otherwise in front of the child that follows it. Decorators
  are joined to the child that they precede, and a semicolon or comma to the child that it follows.
Main exports: Piece, Attached, attach
-/
import CodeSplice.Document.Entry
import CodeSplice.Syntax.Tree

namespace CodeSplice

open Layout Syntax

/-- A piece of a container, in source order. -/
inductive Piece where
  | remark (token : Token)
  | decorator (extent : Extent)
  | separator (extent : Extent)
  | child (tree : Tree) (extent : Extent)
deriving Repr, Inhabited

/-- The pieces that a child of a container makes. The comments at the end of a child stand behind it;
brackets make no pieces. -/
def Piece.ofTree (tree : Tree) : List Piece :=
  match tree with
  | .leaf token =>
    if token.is .comment || token.is .interpreter then [.remark token]
    else if token.is .markup then [.child tree token.extent]
    else if tree.isSpelled ";" || tree.isSpelled "," then [.separator token.extent]
    else []
  | .node .decorator extent _ _ => [.decorator extent]
  | .node .. => .child tree tree.codeExtent :: tree.trailing.map .remark

/-- What has been attached so far. -/
structure Attached (α : Type) where
  /-- The entries, the last one first. -/
  reversed : List (Entry α) := []
  /-- The comments that wait for the next child. -/
  comments : List Comment := []
  /-- The comment on the row of the opening brace. -/
  opening : Option String := none
  /-- The row on which the last piece ended. -/
  lastRow : Option Nat := none
  /-- The row on which the last child ended, if no comment has come in between. -/
  childRow : Option Nat := none
  /-- The first decorator of the next child. -/
  decorated : Option Extent := none
deriving Repr, Inhabited

namespace Attached

variable {α : Type}

/-- The entries in source order. -/
def entries (attached : Attached α) : List (Entry α) :=
  attached.reversed.reverse

/-- Whether a row is empty between the last piece and the given row. -/
def gap (attached : Attached α) (row : Nat) : Bool :=
  attached.lastRow.any fun last => decide (last + 1 < row)

/-- The text of a comment without the white space around it. -/
def trimmed (remark : Token) : String :=
  String.ofList (Text.trim remark.text.toList)

/-- Let a comment wait for the next child. -/
def wait (attached : Attached α) (block : Extent → Block) (remark : Token) : Attached α :=
  { attached with
    comments := attached.comments ++ [⟨attached.gap remark.extent.row, block remark.extent⟩]
    childRow := none }

/-- Place a comment. `openRow` is the row of the container's opening brace. -/
def remark (attached : Attached α) (block : Extent → Block) (openRow : Option Nat)
    (remark : Token) : Attached α :=
  let row := remark.extent.row
  let alone := remark.extent.oneRow && attached.comments.isEmpty && attached.decorated.isNone
  let placed :=
    match attached.reversed with
    | last :: others =>
      if alone && attached.childRow == some row && last.trailing.isNone then
        { attached with reversed := { last with trailing := some (trimmed remark) } :: others }
      else attached.wait block remark
    | [] =>
      if alone && attached.opening.isNone && openRow == some row then
        { attached with opening := some (trimmed remark) }
      else attached.wait block remark
  { placed with lastRow := some remark.extent.endRow }

/-- Note a decorator. Only the first one matters. -/
def decorator (attached : Attached α) (extent : Extent) : Attached α :=
  { attached with decorated := attached.decorated.or (some extent) }

/-- Add a child that ends where `extent` ends. -/
def child (attached : Attached α) (convert : Tree → Extent → α) (tree : Tree) (extent : Extent) :
    Attached α :=
  let extent := ((attached.decorated.map (·.cover extent)).getD extent)
  { attached with
    reversed :=
      { comments := attached.comments
        blankBefore := attached.gap extent.row
        node := convert tree extent } :: attached.reversed
    comments := []
    decorated := none
    lastRow := some extent.endRow
    childRow := some extent.endRow }

/-- Attach the pieces of a container one after another. -/
def run (block : Extent → Block) (convert : Tree → Extent → α) (openRow : Option Nat)
    (attached : Attached α) : List Piece → Attached α
  | [] => attached
  | .remark r :: pieces => run block convert openRow (attached.remark block openRow r) pieces
  | .decorator extent :: pieces => run block convert openRow (attached.decorator extent) pieces
  | .separator _ :: pieces => run block convert openRow attached pieces
  | .child tree extent :: .separator stop :: pieces =>
    run block convert openRow (attached.child convert tree (extent.cover stop)) pieces
  | .child tree extent :: pieces =>
    run block convert openRow (attached.child convert tree extent) pieces

end Attached

/-- Attach the comments of a container to its children. `block` reads a comment, `convert` a child,
and `openRow` is the row of the opening brace, if there is one. -/
def attach {α : Type} (block : Extent → Block) (convert : Tree → Extent → α) (openRow : Option Nat)
    (children : List Tree) : Attached α :=
  .run block convert openRow { lastRow := openRow } (children.flatMap Piece.ofTree)

end CodeSplice
