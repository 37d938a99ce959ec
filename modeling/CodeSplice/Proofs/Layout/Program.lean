/-
Module: CodeSplice.Proofs.Layout.Program
Purpose: Writer programs that say only which lines there are and which of them are enclosed. Such a
  program writes a block: the lines it has, each at the level that the program reaches there. Levels
  begin at that of the program, never fall below it, and rise by one at a time.
Main exports: Step.isStructured, Step.lines, Step.linesOf, Writer.run_eq_paste, Steady,
  steady_linesOf
-/
import CodeSplice.Proofs.Layout.Tidy

namespace CodeSplice.Layout

open Text

namespace Step

mutual

/-- Whether a step writes lines at the level of the program or encloses such steps. -/
def isStructured : Step → Bool
  | .line _ | .blank => true
  | .enclosed _ _ body | .onlyIf _ body => areStructured body
  | .raw _ | .deeper | .shallower | .extendLast _ => false

@[inherit_doc isStructured]
def areStructured : List Step → Bool
  | [] => true
  | step :: steps => isStructured step && areStructured steps

end

mutual

/-- The lines that a structured step writes at a level. -/
def lines (level : Nat) : Step → List Block.Line
  | .line s => [.code level 0 s]
  | .blank => [.blank]
  | .enclosed header close body =>
    .code level 0 header :: linesOf (level + 1) body ++ [.code level 0 close]
  | .onlyIf condition body => if condition then linesOf level body else []
  | .raw _ | .deeper | .shallower | .extendLast _ => []

@[inherit_doc lines]
def linesOf (level : Nat) : List Step → List Block.Line
  | [] => []
  | step :: steps => lines level step ++ linesOf level steps

end

end Step

/-! ### A program writes a block -/

namespace Writer

/-- Write lines of a block whose left edge is the margin of the text. -/
def paste (w : Writer) (lines : List Block.Line) : Writer :=
  w.raw (String.ofList (Block.written { indent := w.indent } lines))

theorem paste_nil (w : Writer) : w.paste [] = w := by
  simp [paste, raw, Block.written]

theorem paste_append (w : Writer) (lines others : List Block.Line) :
    w.paste (lines ++ others) = (w.paste lines).paste others := by
  simp [paste, raw, Block.written, String.append_assoc]

theorem line_eq_paste (w : Writer) (s : String) : w.line s = w.paste [.code w.level 0 s] := by
  have htext : w.margin ++ s ++ "\n" =
      String.ofList (Block.written { indent := w.indent } [.code w.level 0 s]) := by
    apply String.toList_inj.1
    simp [Block.written, Block.Line.margin, Block.Line.chars, margin, toList_spaces]
  rw [line, paste, htext]

theorem blank_eq_paste (w : Writer) : w.blank = w.paste [.blank] :=
  rfl

theorem shallower_deeper_paste (w : Writer) (lines : List Block.Line) :
    (w.deeper.paste lines).shallower = w.paste lines := by
  simp [paste, raw, deeper, shallower]

mutual

/-- A structured step writes its lines. -/
theorem perform_eq_paste (w : Writer) :
    ∀ {step : Step}, step.isStructured = true → w.perform step = w.paste (step.lines w.level)
  | .line s, _ => w.line_eq_paste s
  | .blank, _ => w.blank_eq_paste
  | .enclosed header close body, h => by
    have hbody : Step.areStructured body = true := h
    rw [perform, run_eq_paste _ hbody, line_eq_paste w header, shallower_deeper_paste,
      line_eq_paste _ close, ← paste_append, ← paste_append]
    rfl
  | .onlyIf condition body, h => by
    have hbody : Step.areStructured body = true := h
    rw [perform, Step.lines]
    split
    · exact run_eq_paste w hbody
    · exact w.paste_nil.symm

/-- A structured program writes its lines. -/
theorem run_eq_paste (w : Writer) :
    ∀ {steps : List Step}, Step.areStructured steps = true →
      w.run steps = w.paste (Step.linesOf w.level steps)
  | [], _ => w.paste_nil.symm
  | step :: steps, h => by
    rw [Step.areStructured, Bool.and_eq_true] at h
    rw [run, perform_eq_paste w h.1, run_eq_paste _ h.2, Step.linesOf, paste_append]
    rfl

end

end Writer

/-! ### Levels -/

/-- The depth of a line of code. -/
def Block.Line.depth? : Block.Line → Option Nat
  | .code depth _ _ => some depth
  | _ => none

/-- The depths of the lines of code. -/
def depths (lines : List Block.Line) : List Nat :=
  lines.filterMap (·.depth?)

@[simp] theorem depths_append (lines others : List Block.Line) :
    depths (lines ++ others) = depths lines ++ depths others :=
  List.filterMap_append ..

/-- Depths that begin at a level, never fall below it, and rise by one at a time. -/
structure Steady (level : Nat) (depths : List Nat) : Prop where
  first : ∀ depth ∈ depths.head?, depth = level
  above : ∀ depth ∈ depths, level ≤ depth
  rises : depths.IsChain fun depth next => next ≤ depth + 1

namespace Steady

variable {level : Nat} {front back : List Nat}

theorem nil (level : Nat) : Steady level [] :=
  ⟨by simp, by simp, .nil⟩

theorem singleton (level : Nat) : Steady level [level] :=
  ⟨by simp, by simp, .singleton level⟩

theorem append (h : Steady level front) (h' : Steady level back) :
    Steady level (front ++ back) where
  first := by
    cases front with
    | nil => exact h'.first
    | cons depth front => exact h.first
  above := by
    intro depth hdepth
    rcases List.mem_append.1 hdepth with hdepth | hdepth
    · exact h.above depth hdepth
    · exact h'.above depth hdepth
  rises := by
    refine h.rises.append h'.rises fun depth hdepth next hnext => ?_
    have hlevel := h.above depth (List.mem_of_getLast? hdepth)
    rw [h'.first next hnext]
    omega

/-- One level deeper, between a header and a closing line. -/
theorem enclosed (h : Steady (level + 1) front) : Steady level (level :: front ++ [level]) := by
  have hopen : Steady level (level :: front) := by
    refine ⟨by simp, fun depth hdepth => ?_, h.rises.cons fun next hnext => ?_⟩
    · rcases List.mem_cons.1 hdepth with rfl | hdepth
      · exact Nat.le_refl _
      · exact Nat.le_of_succ_le (h.above depth hdepth)
    · exact Nat.le_of_eq (h.first next hnext)
  exact hopen.append (.singleton level)

end Steady

mutual

/-- The levels that a step reaches. -/
theorem steady_lines (level : Nat) : ∀ step : Step, Steady level (depths (step.lines level))
  | .line _ => .singleton level
  | .blank => .nil level
  | .enclosed header close body => by
    have hbody := (steady_linesOf (level + 1) body).enclosed
    rwa [Step.lines, depths_append]
  | .onlyIf condition body => by
    rw [Step.lines]
    split
    · exact steady_linesOf level body
    · exact .nil level
  | .raw _ | .deeper | .shallower | .extendLast _ => .nil level

/-- The levels that a program reaches. -/
theorem steady_linesOf (level : Nat) :
    ∀ steps : List Step, Steady level (depths (Step.linesOf level steps))
  | [] => .nil level
  | step :: steps => by
    rw [Step.linesOf, depths_append]
    exact (steady_lines level step).append (steady_linesOf level steps)

end

end CodeSplice.Layout
