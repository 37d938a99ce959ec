/-
Module: CodeSplice.Layout.Writer
Purpose: A writer of indented text. It holds the text written so far and the nesting level of the
  next line. Programs of writer steps (`Step`) nest: the body of an enclosed block is written one
  level deeper than its header and its closing line.
Main exports: Writer, Writer.line, Writer.extendLast, Step, Writer.run
-/
import CodeSplice.Layout.Indent

namespace CodeSplice.Layout

open Text

/-- Text under construction. -/
structure Writer where
  indent : Indent
  level : Nat := 0
  text : String := ""
deriving DecidableEq, Repr, Inhabited

namespace Writer

/-- The white space in front of the next line. -/
def margin (w : Writer) : String :=
  spaces (w.level * w.indent.width)

/-- Append text as it is. -/
def raw (w : Writer) (s : String) : Writer :=
  { w with text := w.text ++ s }

/-- Write one line at the current level. The margin is written even if the line is empty. -/
def line (w : Writer) (s : String) : Writer :=
  w.raw (w.margin ++ s ++ "\n")

/-- Write an empty line, without a margin. -/
def blank (w : Writer) : Writer :=
  w.raw "\n"

/-- Go one level deeper. -/
def deeper (w : Writer) : Writer :=
  { w with level := w.level + 1 }

/-- Go one level back; level zero stays. -/
def shallower (w : Writer) : Writer :=
  { w with level := w.level - 1 }

/-- Append to the line written last. If that line is already closed, its end moves behind the
suffix. -/
def extendLast (w : Writer) (suffix : String) : Writer :=
  if w.text.toList.getLast? = some '\n' then
    { w with text := String.ofList w.text.toList.dropLast ++ suffix ++ "\n" }
  else
    w.raw suffix

/-- Write a header, a body one level deeper, and a closing line. -/
def enclosed (w : Writer) (header close : String) (body : Writer → Writer) : Writer :=
  (body (w.line header).deeper).shallower.line close

/-- Write a part only if a condition holds. -/
def onlyIf (w : Writer) (condition : Bool) (part : Writer → Writer) : Writer :=
  if condition then part w else w

/-- Write several lines at the current level. -/
def lines (w : Writer) (ss : List String) : Writer :=
  ss.foldl line w

end Writer

/-- A step of a writer program. -/
inductive Step where
  | line (s : String)
  | blank
  | raw (s : String)
  | deeper
  | shallower
  | extendLast (suffix : String)
  | enclosed (header close : String) (body : List Step)
  | onlyIf (condition : Bool) (body : List Step)
deriving Repr, Inhabited

mutual

/-- Perform one step. -/
def Writer.perform (w : Writer) : Step → Writer
  | .line s => w.line s
  | .blank => w.blank
  | .raw s => w.raw s
  | .deeper => w.deeper
  | .shallower => w.shallower
  | .extendLast suffix => w.extendLast suffix
  | .enclosed header close body => (Writer.run (w.line header).deeper body).shallower.line close
  | .onlyIf condition body => if condition then Writer.run w body else w

/-- Perform a program: its steps in order. -/
def Writer.run (w : Writer) : List Step → Writer
  | [] => w
  | step :: steps => Writer.run (w.perform step) steps

end

namespace Writer

@[simp] theorem level_raw (w : Writer) (s : String) : (w.raw s).level = w.level := rfl

@[simp] theorem level_line (w : Writer) (s : String) : (w.line s).level = w.level := rfl

@[simp] theorem level_blank (w : Writer) : w.blank.level = w.level := rfl

@[simp] theorem level_deeper (w : Writer) : w.deeper.level = w.level + 1 := rfl

@[simp] theorem level_shallower (w : Writer) : w.shallower.level = w.level - 1 := rfl

@[simp] theorem level_extendLast (w : Writer) (s : String) : (w.extendLast s).level = w.level := by
  unfold extendLast
  split <;> rfl

end Writer

end CodeSplice.Layout
