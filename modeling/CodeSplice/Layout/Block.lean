/-
Module: CodeSplice.Layout.Block
Purpose: Dedented fragments of source text. A block keeps the text of a construct that needs no
  further structure as lines whose indentation is measured in nesting levels, so that it can be
  rendered at any depth and with any indentation. Lines that start inside a template literal are
  kept as they are.
Main exports: Block, Block.Line, Block.render, Block.renderOpen, Block.squeeze
-/
import CodeSplice.Layout.Writer

namespace CodeSplice.Layout

open Text

namespace Block

/-- One line of a block. -/
inductive Line where
  /-- Text that stands `depth` levels and `offset` more columns to the right of the block's left
  edge. The offset is what does not make up a whole level: the alignment of a comment's stars, a
  continuation line. -/
  | code (depth offset : Nat) (text : String)
  /-- The rest of a template literal's line, with all its white space. -/
  | literal (text : String)
  /-- An empty line. -/
  | blank
deriving DecidableEq, Repr, Inhabited

/-- Render one line at the writer's level. -/
def Line.render (line : Line) (w : Writer) : Writer :=
  match line with
  | .code depth offset text => w.line (spaces (depth * w.indent.width + offset) ++ text)
  | .literal text => (w.raw text).blank
  | .blank => w.blank

/-- Drop the blank lines at the end and keep one of each run of blank lines. -/
def collapse : List Line → List Line
  | [] => []
  | .blank :: lines =>
    match collapse lines with
    | [] => []
    | .blank :: rest => .blank :: rest
    | rest => .blank :: rest
  | line :: lines => line :: collapse lines

/-- Drop the blank lines at both ends and keep one of each run of blank lines. -/
def squeeze (lines : List Line) : List Line :=
  collapse (lines.dropWhile (· == .blank))

end Block

/-- A dedented fragment of text. -/
structure Block where
  lines : List Block.Line := []
deriving DecidableEq, Repr, Inhabited

namespace Block

/-- The block without lines. -/
def empty : Block := {}

/-- Whether a block has no lines. -/
def isEmpty (block : Block) : Bool :=
  block.lines.isEmpty

/-- The text of the first line of code. -/
def firstLine (block : Block) : Option String :=
  block.lines.findSome? fun
    | .code _ _ text => some text
    | _ => none

/-- Render a block at the writer's level. -/
def render (block : Block) (w : Writer) : Writer :=
  block.lines.foldl (fun w line => line.render w) w

/-- Render a block and append `suffix` to its last line. An empty block leaves the suffix on a line
of its own, without the space that would have separated them. -/
def renderOpen (block : Block) (suffix : String) (w : Writer) : Writer :=
  if block.isEmpty then w.line (String.ofList (trimStart suffix.toList))
  else (block.render w).extendLast suffix

/-- A line leaves the writer's level alone. -/
@[simp] theorem level_lineRender (line : Line) (w : Writer) :
    (line.render w).level = w.level := by
  cases line <;> rfl

/-- A block leaves the writer's level alone. -/
@[simp] theorem level_render (block : Block) (w : Writer) :
    (block.render w).level = w.level := by
  unfold render
  induction block.lines generalizing w with
  | nil => rfl
  | cons line lines ih => simp [ih]

end Block

end CodeSplice.Layout
