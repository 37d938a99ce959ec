/-
Module: CodeSplice.Layout.Measure
Purpose: How a block is read from source text. The indentation of each line is measured in columns,
  taken relative to the least indented line, and divided by the indentation unit that the source
  itself uses. Template literals, given as spans, are protected: a line that starts inside one is
  kept verbatim, and a line that ends inside one keeps its trailing white space.
Main exports: Span, unitOf, Block.ofRange, Block.ofText
-/
import CodeSplice.Layout.Block
import CodeSplice.Text.Lines

namespace CodeSplice.Layout

open Text

/-- A stretch of source text, in character positions; `stop` is the first position behind it. -/
structure Span where
  start : Nat
  stop : Nat
deriving DecidableEq, Repr, Inhabited

/-- Whether a position lies between two characters of the span. -/
def Span.interior (span : Span) (position : Nat) : Bool :=
  decide (span.start < position) && decide (position < span.stop)

/-- Whether a position lies inside one of the spans. -/
def inside (spans : List Span) (position : Nat) : Bool :=
  spans.any (·.interior position)

/-- The columns that blanks take up; a tab counts two. -/
def columns : List Char → Nat
  | [] => 0
  | c :: cs => (if c == '\t' then 2 else 1) + columns cs

/-- The blanks in front of a line. -/
def lead (line : List Char) : List Char :=
  line.takeWhile isBlank

/-- A line without the blanks in front of it. -/
def body (line : List Char) : List Char :=
  line.dropWhile isBlank

/-! ### The indentation unit of a text -/

/-- Whether a line counts for the indentation unit: it is not blank, does not continue a starred
comment and does not start inside a template literal. -/
def counted (literals : List Span) (line : Nat × List Char) : Bool :=
  !inside literals line.1 && !(trimEnd (body line.2)).isEmpty && (body line.2).head? != some '*'

/-- The increases from each number to the next. -/
def increases : List Nat → List Nat
  | a :: b :: rest => if a < b then (b - a) :: increases (b :: rest) else increases (b :: rest)
  | _ => []

/-- Whether `a` is the better unit: it occurs more often among the steps, or as often and is
smaller. -/
def preferred (steps : List Nat) (a b : Nat) : Bool :=
  decide (steps.count b < steps.count a) || (steps.count a == steps.count b && decide (a < b))

/-- The most frequent step, the smallest of them on a tie; two if there is no step. -/
def commonStep (steps : List Nat) : Nat :=
  match steps with
  | [] => 2
  | first :: rest => rest.foldl (fun best s => if preferred steps s best then s else best) first

/-- The indentation unit of a text, in columns: its most common increase of indentation from one
counted line to the next. -/
def unitOf (source : List Char) (literals : List Span) : Nat :=
  commonStep <| increases <|
    ((splitLinesFrom 0 source).filter (counted literals)).map fun line => columns (lead line.2)

/-! ### Lines measured in columns -/

/-- A line with its indentation in columns. -/
inductive MeasuredLine where
  /-- The indentation is unknown for a first line that was cut out of the middle of a line. -/
  | code (indent : Option Nat) (text : List Char)
  | literal (text : List Char)
  | blank
deriving DecidableEq, Repr, Inhabited

/-- Measure one line that starts at `start`. `base` is what stands in front of it in the source, in
columns, if that is known. -/
def measureLine (literals : List Span) (base : Option Nat) (startsInside : Bool)
    (start : Nat) (line : List Char) : MeasuredLine :=
  let line := dropReturn line
  if startsInside then .literal line
  else
    let text := if inside literals (start + line.length) then body line else trimEnd (body line)
    if text.isEmpty then .blank
    else .code (base.map (· + columns (lead line))) text

/-- What stands in front of a position on its line. -/
def before (source : List Char) (position : Nat) : List Char :=
  ((source.take position).reverse.takeWhile (· != '\n')).reverse

/-- The columns in front of a position, if nothing but blanks stands there. -/
def columnsBefore (source : List Char) (position : Nat) : Option Nat :=
  let lead := before source position
  if lead.all isBlank then some (columns lead) else none

/-- Measure the lines of `source` within `range`. -/
def measure (source : List Char) (range : Span) (literals : List Span) : List MeasuredLine :=
  match splitLinesFrom range.start (slice source range.start range.stop) with
  | [] => []
  | (start, first) :: rest =>
    measureLine literals (columnsBefore source range.start) false start first ::
      rest.map fun (start, line) => measureLine literals (some 0) (inside literals start) start line

/-- The known indentation of a line of code. -/
def MeasuredLine.indent? : MeasuredLine → Option Nat
  | .code indent _ => indent
  | _ => none

/-- The least known indentation of the lines; zero if none is known. -/
def commonIndent (lines : List MeasuredLine) : Nat :=
  ((lines.filterMap (·.indent?)).min?).getD 0

/-- Express an indentation relative to `common` in levels of `unit` columns. -/
def MeasuredLine.place (common unit : Nat) : MeasuredLine → Block.Line
  | .code indent text =>
    let relative := (indent.map (· - common)).getD 0
    .code (relative / unit) (relative % unit) (String.ofList text)
  | .literal text => .literal (String.ofList text)
  | .blank => .blank

/-- The block that `range` of `source` holds. `unit` is the indentation unit of the source. -/
def Block.ofRange (source : List Char) (range : Span) (literals : List Span) (unit : Nat) : Block :=
  let measured := measure source range literals
  ⟨squeeze (measured.map (·.place (commonIndent measured) (max 1 unit)))⟩

/-- The block of a text that stands for itself. Its indentation unit is found in the text, so the
text may be written at any depth. -/
def Block.ofText (text : String) : Block :=
  let source := text.toList
  .ofRange source ⟨0, source.length⟩ [] (unitOf source [])

end CodeSplice.Layout
