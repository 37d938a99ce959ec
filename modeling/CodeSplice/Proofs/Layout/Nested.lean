/-
Module: CodeSplice.Proofs.Layout.Nested
Purpose: Writer programs whose enclosed bodies keep to their level. Each block of such a program leaves
  the level as it found it. The text has one row for each line of the program, behind the margin of the
  level that the program has reached there, and ends it with the suffixes that follow the line. Only
  suffixes in front of the first line do not belong to a row: they begin the text.
Main exports: Step.turns, Step.KeepsLevel, Step.IsNested, Step.AreNested, Emission, Step.emissions,
  Writer.run_eq_emitAll, rows, overhang, Step.WritesRows, Step.AreNested.builds_rows
-/
import CodeSplice.Proofs.Layout.Seam
import Mathlib.Algebra.Ring.Int.Defs
import Mathlib.Data.List.Infix

namespace CodeSplice.Layout

open Text

namespace Step

/-! ### Programs that keep to their levels -/

mutual

/-- The turns to a deeper level (`1`) and back (`-1`) that a step makes, one after another. An enclosed
body makes its turns inside of its block. -/
def turns : Step → List Int
  | .deeper => [1]
  | .shallower => [-1]
  | .onlyIf condition body => if condition then turnsOf body else []
  | .line _ | .blank | .raw _ | .extendLast _ | .enclosed _ _ _ => []

@[inherit_doc turns]
def turnsOf : List Step → List Int
  | [] => []
  | step :: steps => turns step ++ turnsOf steps

end

/-- A body that at no point has turned back from the level it was entered at, and ends at this level. -/
structure KeepsLevel (body : List Step) : Prop where
  above : ∀ front, front <+: turnsOf body → 0 ≤ front.sum
  back : (turnsOf body).sum = 0

mutual

/-- A step that writes lines without line feeds and suffixes to them, changes the level, or encloses
such steps in a body that keeps its level. A part that is left out may be anything. -/
def IsNested : Step → Prop
  | .line s | .extendLast s => '\n' ∉ s.toList
  | .blank | .deeper | .shallower => True
  | .enclosed header close body =>
    '\n' ∉ header.toList ∧ '\n' ∉ close.toList ∧ KeepsLevel body ∧ AreNested body
  | .onlyIf condition body => condition = true → AreNested body
  | .raw _ => False

@[inherit_doc IsNested]
def AreNested : List Step → Prop
  | [] => True
  | step :: steps => IsNested step ∧ AreNested steps

end

/-- A step of a program, of a body that the program encloses, or of a part that is not left out. -/
inductive Occurs (step : Step) : List Step → Prop where
  | here (steps : List Step) : Occurs step (step :: steps)
  | later (other : Step) {steps : List Step} (h : Occurs step steps) : Occurs step (other :: steps)
  | enclosed (header close : String) {body : List Step} (steps : List Step) (h : Occurs step body) :
      Occurs step (.enclosed header close body :: steps)
  | onlyIf {body : List Step} (steps : List Step) (h : Occurs step body) :
      Occurs step (.onlyIf true body :: steps)

theorem Occurs.isNested {step : Step} {steps : List Step} (h : Occurs step steps)
    (hsteps : AreNested steps) : IsNested step := by
  induction h with
  | here steps => exact hsteps.1
  | later other _ ih => exact ih hsteps.2
  | enclosed header close steps _ ih =>
    obtain ⟨-, -, -, hbody⟩ := hsteps.1
    exact ih hbody
  | onlyIf steps _ ih => exact ih (hsteps.1 rfl)

/-! ### Levels -/

/-- The level behind some turns. Level zero stays if it is turned back from. -/
def turned (level : Nat) (turns : List Int) : Nat :=
  turns.foldl (fun (level : Nat) turn => ((level : Int) + turn).toNat) level

theorem turned_append (level : Nat) (turns others : List Int) :
    turned level (turns ++ others) = turned (turned level turns) others :=
  List.foldl_append ..

theorem turned_eq_add_sum {level : Nat} {turns : List Int}
    (h : ∀ front, front <+: turns → 0 ≤ (level : Int) + front.sum) :
    (turned level turns : Int) = level + turns.sum := by
  induction turns generalizing level with
  | nil => simp [turned]
  | cons turn turns ih =>
    have hturn : 0 ≤ (level : Int) + turn := by simpa using h [turn] ⟨turns, rfl⟩
    have hlevel : (((level : Int) + turn).toNat : Int) = level + turn := Int.toNat_of_nonneg hturn
    have hrest : ∀ front, front <+: turns →
        0 ≤ (((level : Int) + turn).toNat : Int) + front.sum := by
      intro front hfront
      have hsum := h (turn :: front) (List.cons_prefix_cons.2 ⟨rfl, hfront⟩)
      rw [List.sum_cons] at hsum
      omega
    have hturned := ih hrest
    rw [hlevel, Int.add_assoc, ← List.sum_cons] at hturned
    exact hturned

/-- A body that keeps its level leaves every level as it is. -/
theorem KeepsLevel.turned_eq {body : List Step} (h : KeepsLevel body) (level : Nat) :
    turned level (turnsOf body) = level := by
  have hsum : (turned level (turnsOf body) : Int) = level + (turnsOf body).sum :=
    turned_eq_add_sum fun front hfront =>
      Int.add_nonneg (Int.natCast_nonneg level) (h.above front hfront)
  rw [h.back, Int.add_zero] at hsum
  exact Int.natCast_inj.1 hsum

end Step

/-! ### What a program writes -/

/-- A line at a level, an empty line without a margin, or a suffix to what has been written. -/
inductive Emission where
  | line (level : Nat) (text : String)
  | blank
  | suffix (text : String)
deriving DecidableEq, Repr

namespace Step

mutual

/-- What a step writes that begins at a level. The lines around an enclosed body stand at this level,
the body stands one level deeper. -/
def emissions (level : Nat) : Step → List Emission
  | .line s => [.line level s]
  | .blank => [.blank]
  | .extendLast suffix => [.suffix suffix]
  | .enclosed header close body =>
    .line level header :: emissionsOf (level + 1) body ++ [.line level close]
  | .onlyIf condition body => if condition then emissionsOf level body else []
  | .raw _ | .deeper | .shallower => []

@[inherit_doc emissions]
def emissionsOf (level : Nat) : List Step → List Emission
  | [] => []
  | step :: steps => emissions level step ++ emissionsOf (turned level (turns step)) steps

end

end Step

namespace Writer

/-- The writer at another level. -/
def atLevel (w : Writer) (level : Nat) : Writer :=
  { w with level }

/-- Write one emission. Its level is its own, not that of the writer. -/
def emit (w : Writer) : Emission → Writer
  | .line level s => w.raw (spaces (level * w.indent.width) ++ s ++ "\n")
  | .blank => w.blank
  | .suffix s => w.extendLast s

/-- Write emissions one after another. -/
def emitAll (w : Writer) (emissions : List Emission) : Writer :=
  emissions.foldl emit w

theorem emit_atLevel (w : Writer) (level : Nat) (emission : Emission) :
    (w.atLevel level).emit emission = (w.emit emission).atLevel level := by
  cases emission with
  | line level s => rfl
  | blank => rfl
  | suffix s =>
    by_cases hclosed : w.text.toList.getLast? = some '\n'
    · simp [emit, extendLast, atLevel, hclosed]
    · simp [emit, extendLast, atLevel, hclosed, raw]

theorem emitAll_atLevel (w : Writer) (level : Nat) (emissions : List Emission) :
    (w.atLevel level).emitAll emissions = (w.emitAll emissions).atLevel level := by
  induction emissions generalizing w with
  | nil => rfl
  | cons emission emissions ih => exact (congrArg (·.emitAll emissions) (w.emit_atLevel ..)).trans (ih _)

theorem emitAll_append (w : Writer) (emissions others : List Emission) :
    w.emitAll (emissions ++ others) = (w.emitAll emissions).emitAll others :=
  List.foldl_append ..

mutual

/-- A nested step writes its emissions and makes its turns. -/
theorem perform_eq_emitAll (w : Writer) : ∀ {step : Step}, step.IsNested →
    w.perform step =
      (w.emitAll (step.emissions w.level)).atLevel (Step.turned w.level step.turns)
  | .line _, _ | .blank, _ | .deeper, _ => rfl
  | .shallower, _ => by
    have hlevel : Step.turned w.level [-1] = w.level - 1 := by
      simp only [Step.turned, List.foldl_cons, List.foldl_nil]
      omega
    simp only [perform, Step.turns, hlevel]
    rfl
  | .extendLast s, _ => by
    have hlevel := (w.level_extendLast s).symm
    simp only [perform, Step.turns, Step.emissions, Step.turned, List.foldl_nil, hlevel]
    rfl
  | .enclosed header close body, h => by
    obtain ⟨-, -, hkeeps, hbody⟩ := h
    have hheader : (w.line header).deeper =
        (w.emit (.line w.level header)).atLevel (w.level + 1) := rfl
    have hemissions : w.emitAll (Step.emissions w.level (.enclosed header close body)) =
        ((w.emit (.line w.level header)).emitAll (Step.emissionsOf (w.level + 1) body)).emit
          (.line w.level close) := by
      rw [Step.emissions, emitAll_append]
      rfl
    rw [perform, run_eq_emitAll _ hbody, hkeeps.turned_eq, hheader, emitAll_atLevel, hemissions]
    rfl
  | .onlyIf condition body, h => by
    rw [perform, Step.turns, Step.emissions]
    split
    · rename_i hcondition
      exact run_eq_emitAll w (h hcondition)
    · rfl

/-- A nested program writes its emissions and makes its turns. -/
theorem run_eq_emitAll (w : Writer) : ∀ {steps : List Step}, Step.AreNested steps →
    w.run steps = (w.emitAll (Step.emissionsOf w.level steps)).atLevel
      (Step.turned w.level (Step.turnsOf steps))
  | [], _ => rfl
  | step :: steps, h => by
    rw [run, perform_eq_emitAll w h.1, run_eq_emitAll _ h.2, Step.emissionsOf, Step.turnsOf,
      Step.turned_append, emitAll_atLevel, emitAll_append]
    rfl

end

end Writer

/-! ### The rows of a text -/

/-- The text of an emission. -/
def Emission.text : Emission → String
  | line _ text => text
  | blank => ""
  | suffix text => text

/-- The suffixes that come before the next line. -/
def overhang : List Emission → List Char
  | .suffix s :: emissions => s.toList ++ overhang emissions
  | _ => []

/-- The rows that emissions fill: one for each line, behind the margin of its level and without a margin
if it is an empty one, with the suffixes that follow the line. -/
def rows (width : Nat) : List Emission → List (List Char)
  | [] => []
  | .line level s :: emissions =>
    (List.replicate (level * width) ' ' ++ s.toList ++ overhang emissions) :: rows width emissions
  | .blank :: emissions => overhang emissions :: rows width emissions
  | .suffix _ :: emissions => rows width emissions

/-- A row without the spaces in front of it. -/
def unindented (row : List Char) : List Char :=
  row.dropWhile (· == ' ')

/-- Another width changes only how many spaces stand in front of the rows. -/
theorem map_unindented_rows (width other : Nat) (emissions : List Emission) :
    (rows width emissions).map unindented = (rows other emissions).map unindented := by
  have hmargin (count : Nat) (text : List Char) :
      unindented (List.replicate count ' ' ++ text) = unindented text :=
    List.dropWhile_append_of_pos fun c hc => by simp [List.eq_of_mem_replicate hc]
  induction emissions with
  | nil => rfl
  | cons emission emissions ih =>
    cases emission with
    | line level s =>
      rw [rows, rows, List.map_cons, List.map_cons, ih, List.append_assoc, List.append_assoc,
        hmargin, hmargin]
    | blank => rw [rows, rows, List.map_cons, List.map_cons, ih]
    | suffix s => rw [rows, rows, ih]

section

variable {emissions : List Emission}

theorem newline_not_mem_overhang (h : ∀ emission ∈ emissions, '\n' ∉ emission.text.toList) :
    '\n' ∉ overhang emissions := by
  induction emissions with
  | nil => simp [overhang]
  | cons emission emissions ih =>
    rw [List.forall_mem_cons] at h
    cases emission with
    | line level s => simp [overhang]
    | blank => simp [overhang]
    | suffix s =>
      rw [overhang, List.mem_append, not_or]
      exact ⟨h.1, ih h.2⟩

theorem newline_not_mem_rows (h : ∀ emission ∈ emissions, '\n' ∉ emission.text.toList) (width : Nat) :
    ∀ row ∈ rows width emissions, '\n' ∉ row := by
  induction emissions with
  | nil => exact nofun
  | cons emission emissions ih =>
    rw [List.forall_mem_cons] at h
    have hoverhang := newline_not_mem_overhang h.2
    cases emission with
    | line level s =>
      refine List.forall_mem_cons.2 ⟨?_, ih h.2⟩
      have hmargin : '\n' ∉ List.replicate (level * width) ' ' :=
        toList_spaces _ ▸ newline_not_mem_spaces _
      simp only [List.mem_append, not_or]
      exact ⟨⟨hmargin, h.1⟩, hoverhang⟩
    | blank => exact List.forall_mem_cons.2 ⟨hoverhang, ih h.2⟩
    | suffix s => exact ih h.2

end

/-- Rows that end with a line feed, behind something that does not end, are the lines of the text. -/
theorem splitLines_rows {front : List Char} (hfront : '\n' ∉ front) {lines : List (List Char)}
    (h : ∀ line ∈ lines, '\n' ∉ line) :
    splitLines (front ++ lines.flatMap (· ++ ['\n'])) = (lines ++ [[]]).modifyHead (front ++ ·) := by
  induction lines generalizing front with
  | nil => simp [splitLines_of_not_mem hfront]
  | cons line lines ih =>
    rw [List.forall_mem_cons] at h
    have hline : '\n' ∉ front ++ line := by simp [hfront, h.1]
    have hrest := @ih [] (by simp) h.2
    rw [List.nil_append] at hrest
    rw [List.flatMap_cons, ← List.append_assoc, ← List.append_assoc, List.append_assoc (front ++ line),
      List.singleton_append, splitLines_append_newline hline, hrest, List.cons_append,
      List.modifyHead_cons, List.cons.injEq]
    exact ⟨rfl, congrFun List.modifyHead_id _⟩

namespace Writer

@[simp] theorem indent_emit (w : Writer) (emission : Emission) :
    (w.emit emission).indent = w.indent := by
  cases emission with
  | line level s => rfl
  | blank => rfl
  | suffix s =>
    simp only [emit, extendLast]
    split <;> rfl

/-- Behind a finished row, suffixes go on with this row, and the lines fill rows below it. -/
theorem toList_emitAll_of_closed {w : Writer} {front : String} (h : w.text = front ++ "\n")
    (emissions : List Emission) :
    (w.emitAll emissions).text.toList = front.toList ++ overhang emissions ++
      '\n' :: (rows w.indent.width emissions).flatMap (· ++ ['\n']) := by
  induction emissions generalizing w front with
  | nil => simp [emitAll, h, overhang, rows]
  | cons emission emissions ih =>
    cases emission with
    | line level s =>
      have htext : (w.emit (.line level s)).text =
          front ++ "\n" ++ (spaces (level * w.indent.width) ++ s) ++ "\n" := by
        simp [emit, raw, h, String.append_assoc]
      refine (ih htext).trans ?_
      simp [overhang, rows, toList_spaces]
    | blank =>
      have htext : (w.emit .blank).text = front ++ "\n" ++ "\n" := by simp [emit, blank, raw, h]
      refine (ih htext).trans ?_
      simp [overhang, rows]
    | suffix s =>
      have htext : (w.emit (.suffix s)).text = front ++ s ++ "\n" := by
        rw [emit, extendLast_eq h]
      refine (ih htext).trans ?_
      simp [overhang, rows]

/-- Without a finished row, suffixes go on with what there is, and the first line as well. -/
theorem toList_emitAll {w : Writer} (h : '\n' ∉ w.text.toList) {emissions : List Emission}
    (hemissions : ∀ emission ∈ emissions, '\n' ∉ emission.text.toList) :
    (w.emitAll emissions).text.toList = w.text.toList ++ overhang emissions ++
      (rows w.indent.width emissions).flatMap (· ++ ['\n']) := by
  induction emissions generalizing w with
  | nil => simp [emitAll, overhang, rows]
  | cons emission emissions ih =>
    rw [List.forall_mem_cons] at hemissions
    cases emission with
    | line level s =>
      have htext : (w.emit (.line level s)).text =
          w.text ++ (spaces (level * w.indent.width) ++ s) ++ "\n" := by
        simp [emit, raw, String.append_assoc]
      refine (toList_emitAll_of_closed htext emissions).trans ?_
      simp [overhang, rows, toList_spaces]
    | blank =>
      refine (toList_emitAll_of_closed (w := w.emit .blank) rfl emissions).trans ?_
      simp [overhang, rows]
    | suffix s =>
      have hopen : w.text.toList.getLast? ≠ some '\n' := fun hlast => h (List.mem_of_getLast? hlast)
      have htext : (w.emit (.suffix s)).text = w.text ++ s := by
        rw [emit, extendLast, if_neg hopen, raw]
      have hfree : '\n' ∉ (w.emit (.suffix s)).text.toList := by
        rw [htext, String.toList_append, List.mem_append, not_or]
        exact ⟨h, hemissions.1⟩
      refine (ih hfree hemissions.2).trans ?_
      simp [overhang, rows, htext]

end Writer

/-! ### Programs from the beginning -/

namespace Step

mutual

theorem newline_not_mem_emissions (level : Nat) : ∀ {step : Step}, step.IsNested →
    ∀ emission ∈ step.emissions level, '\n' ∉ emission.text.toList
  | .line s, h | .extendLast s, h => by
    have hline : '\n' ∉ s.toList := h
    simpa [emissions, Emission.text] using hline
  | .blank, _ => by simp [emissions, Emission.text]
  | .deeper, _ | .shallower, _ => nofun
  | .enclosed header close body, h => by
    obtain ⟨hheader, hclose, -, hbody⟩ := h
    rw [emissions, List.cons_append, List.forall_mem_cons, List.forall_mem_append,
      List.forall_mem_singleton]
    exact ⟨hheader, newline_not_mem_emissionsOf (level + 1) hbody, hclose⟩
  | .onlyIf condition body, h => by
    rw [emissions]
    split
    · rename_i hcondition
      exact newline_not_mem_emissionsOf level (h hcondition)
    · exact nofun

theorem newline_not_mem_emissionsOf (level : Nat) : ∀ {steps : List Step}, AreNested steps →
    ∀ emission ∈ emissionsOf level steps, '\n' ∉ emission.text.toList
  | [], _ => nofun
  | step :: steps, h => by
    rw [emissionsOf, List.forall_mem_append]
    exact ⟨newline_not_mem_emissions level h.1, newline_not_mem_emissionsOf _ h.2⟩

end

/-- The text that a program builds. -/
def built (indent : Indent) (steps : List Step) : List Char :=
  (({ indent } : Writer).run steps).text.toList

/-- The text of a program has one row for each of its lines, in their order, and nothing but spaces in
front of the rows depends on the width of a level. -/
structure WritesRows (steps : List Step) : Prop where
  rows_eq : ∀ indent, splitLines (built indent steps) = rows indent.width (emissionsOf 0 steps) ++ [[]]
  margins : ∀ indent other, (splitLines (built indent steps)).map unindented =
    (splitLines (built other steps)).map unindented

/-- A suffix in front of the first line is written in front of its margin. -/
theorem not_forall_writesRows : ¬ ∀ steps, AreNested steps → WritesRows steps := by
  intro h
  have hwrites := h [.deeper, .extendLast "x", .line "a"] (by simp [AreNested, IsNested])
  exact absurd (hwrites.rows_eq .two) (by decide)

/-- The lines of the text that a nested program builds: the rows of its lines, of which the first one is
preceded by the suffixes in front of all lines. -/
theorem AreNested.splitLines_built {steps : List Step} (h : AreNested steps) (indent : Indent) :
    splitLines (built indent steps) = (rows indent.width (emissionsOf 0 steps) ++ [[]]).modifyHead
      (overhang (emissionsOf 0 steps) ++ ·) := by
  have hemissions := newline_not_mem_emissionsOf 0 h
  have htext := Writer.toList_emitAll (w := { indent }) (by simp) hemissions
  rw [String.toList_empty, List.nil_append] at htext
  rw [built, Writer.run_eq_emitAll _ h]
  refine (congrArg splitLines htext).trans ?_
  exact splitLines_rows (newline_not_mem_overhang hemissions) (newline_not_mem_rows hemissions _)

/-- A nested program writes rows exactly if no suffix is written in front of the first line. -/
theorem AreNested.writesRows_iff {steps : List Step} (h : AreNested steps) :
    WritesRows steps ↔ overhang (emissionsOf 0 steps) = [] := by
  constructor
  · intro hwrites
    have hrows := (h.splitLines_built .two).symm.trans (hwrites.rows_eq .two)
    cases hlines : rows Indent.two.width (emissionsOf 0 steps) ++ [[]] with
    | nil => simp at hlines
    | cons line lines =>
      rw [hlines, List.modifyHead_cons, List.cons.injEq] at hrows
      exact List.append_left_eq_self.1 hrows.1
  · intro hnothing
    have hrows (indent : Indent) : splitLines (built indent steps) =
        rows indent.width (emissionsOf 0 steps) ++ [[]] := by
      rw [h.splitLines_built indent, hnothing]
      exact congrFun List.modifyHead_id _
    refine ⟨hrows, fun indent other => ?_⟩
    rw [hrows, hrows, List.map_append, List.map_append, map_unindented_rows]

/-- A nested program leaves the level of each block as the block found it, and fills one row for each of
its lines. -/
theorem AreNested.builds_rows {steps : List Step} (h : AreNested steps) :
    (∀ header close body, Occurs (.enclosed header close body) steps →
      ∀ w : Writer, (w.perform (.enclosed header close body)).level = w.level) ∧
    (∀ indent, splitLines (built indent steps) =
      (rows indent.width (emissionsOf 0 steps) ++ [[]]).modifyHead
        (overhang (emissionsOf 0 steps) ++ ·)) ∧
    (WritesRows steps ↔ overhang (emissionsOf 0 steps) = []) := by
  refine ⟨fun header close body hoccurs w => ?_, h.splitLines_built, h.writesRows_iff⟩
  rw [Writer.perform_eq_emitAll w (hoccurs.isNested h)]
  rfl

/-- A block between lines of another level, with a part that changes the level in it and a suffix behind
it. -/
theorem AreNested.builds_rows_routes :
    let body : List Step := [.line "a,", .onlyIf true [.deeper, .line "b,", .shallower], .blank]
    let program : List Step :=
      [.line "routes = [", .deeper, .enclosed "map(" ")" body, .extendLast " // all", .shallower, .line "]"]
    AreNested program ∧ Occurs (.enclosed "map(" ")" body) program ∧
      (∀ w : Writer, (w.perform (.enclosed "map(" ")" body)).level = w.level) ∧
      WritesRows program ∧ splitLines (built .two program) = ["routes = [".toList,
        "  map(".toList, "    a,".toList, "      b,".toList, [], "  ) // all".toList, "]".toList, []] := by
  intro body program
  have hkeeps : KeepsLevel body := by
    refine ⟨fun front hfront => ?_, rfl⟩
    have hall : ∀ front ∈ ([1, -1] : List Int).inits, 0 ≤ front.sum := by decide
    exact hall front ((List.mem_inits _ _).2 hfront)
  have hbody : AreNested body := by simp [body, AreNested, IsNested]
  have hnested : AreNested program := by simp [program, AreNested, IsNested, hkeeps, hbody]
  have hoccurs : Occurs (.enclosed "map(" ")" body) program := .later _ (.later _ (.here _))
  obtain ⟨hblocks, hlines, hrows⟩ := AreNested.builds_rows hnested
  exact ⟨hnested, hoccurs, hblocks _ _ _ hoccurs, hrows.2 rfl, (hlines .two).trans (by decide)⟩

end Step

end CodeSplice.Layout
