/-
Module: CodeSplice.Proofs.Layout.Stable
Purpose: What a block writes, read again with the unit that it is written in. The columns in front of
  each line are the same, but whole levels of what was an offset count as levels now. So the text does
  not change any more, and the block is the same one if its offsets are less than a level.
Main exports: Block.Line.inUnit, Block.Flush, flush_ofRange, Flush.ofRange_written,
  Block.render_ofRange_render
-/
import CodeSplice.Proofs.Layout.Reread

namespace CodeSplice.Layout

open Text

namespace Block

/-! ### Lines in another unit -/

/-- The columns of a line that do not make up a level. -/
def Line.offset : Line → Nat
  | code _ offset _ => offset
  | _ => 0

/-- A line whose offset is counted in levels of `width` columns as far as it goes. -/
def Line.inUnit (width : Nat) : Line → Line
  | code depth offset text => code (depth + offset / width) (offset % width) text
  | literal text => literal text
  | blank => blank

theorem Line.inUnit_eq_blank_iff {width : Nat} {line : Line} :
    line.inUnit width = .blank ↔ line = .blank := by
  cases line <;> simp [inUnit]

/-- A line is the same in a unit that is greater than its offset, and only there. -/
theorem Line.inUnit_eq_self_iff {width : Nat} (hwidth : 0 < width) {line : Line} :
    line.inUnit width = line ↔ line.offset < width := by
  cases line with
  | code depth offset text =>
    simp only [inUnit, Line.offset, code.injEq, and_true]
    constructor
    · rintro ⟨-, hmod⟩
      exact hmod ▸ Nat.mod_lt offset hwidth
    · intro hlt
      exact ⟨by rw [Nat.div_eq_of_lt hlt, Nat.add_zero], Nat.mod_eq_of_lt hlt⟩
  | literal text => simpa [inUnit, Line.offset] using hwidth
  | blank => simpa [inUnit, Line.offset] using hwidth

/-- A line in the writer's own unit is written as before. -/
theorem Line.margin_inUnit (w : Writer) (line : Line) :
    (line.inUnit w.indent.width).margin w = line.margin w := by
  cases line with
  | code depth offset text =>
    have hcolumns : (depth + offset / w.indent.width) * w.indent.width + offset % w.indent.width =
        depth * w.indent.width + offset := by
      rw [Nat.add_mul, Nat.add_assoc, Nat.div_add_mod']
    simp only [inUnit, margin, hcolumns]
  | literal text => rfl
  | blank => rfl

theorem Line.chars_inUnit (width : Nat) (line : Line) : (line.inUnit width).chars = line.chars := by
  cases line <;> rfl

theorem written_inUnit (w : Writer) (lines : List Line) :
    written w (lines.map (·.inUnit w.indent.width)) = written w lines := by
  simp only [written, List.flatMap_map, Line.margin_inUnit, Line.chars_inUnit]

/-! ### Lines that keep to their left edge -/

/-- Plain lines, of which some line of code stands at the left edge. -/
structure Flush (lines : List Line) : Prop where
  plain : ∀ line ∈ lines, line.Plain
  leftmost : ∀ line ∈ lines, line ≠ .blank → ∃ text, .code 0 0 text ∈ lines
  spaced : Spaced .blank lines

namespace Flush

variable {lines : List Line} (h : Flush lines) (w : Writer)
include h

theorem measure_written : measure (written w lines) ⟨0, (written w lines).length⟩ [] =
    lines.map (·.reread w) ++ [.blank] := by
  rw [measure_self, splitLines_written h.plain, List.map_append, List.map_map]
  refine congrArg (· ++ [MeasuredLine.blank]) (List.map_congr_left fun line hline => ?_)
  exact (h.plain line hline).measureLine_eq w

/-- The left edge is where the writer puts it. -/
theorem commonIndent_eq {line : Line} (hline : line ∈ lines) (hne : line ≠ .blank) :
    commonIndent (lines.map (·.reread w) ++ [.blank]) = w.level * w.indent.width := by
  have hmin : ((lines.map (·.reread w) ++ [MeasuredLine.blank]).filterMap (·.indent?)).min? =
      some (w.level * w.indent.width) := by
    rw [List.min?_eq_some_iff]
    constructor
    · obtain ⟨text, htext⟩ := h.leftmost line hline hne
      refine List.mem_filterMap.2 ⟨_, List.mem_append_left _ (List.mem_map_of_mem htext), ?_⟩
      simp [Line.reread, MeasuredLine.indent?]
    · intro column hcolumn
      obtain ⟨measured, hmeasured, hindent⟩ := List.mem_filterMap.1 hcolumn
      rcases List.mem_append.1 hmeasured with hmeasured | hmeasured
      · obtain ⟨other, -, rfl⟩ := List.mem_map.1 hmeasured
        cases other with
        | code depth offset text =>
          obtain rfl := Option.some.inj hindent
          exact Nat.le_add_right _ _
        | literal text => cases hindent
        | blank => cases hindent
      · rw [List.mem_singleton.1 hmeasured] at hindent
        cases hindent
  rw [commonIndent, hmin, Option.getD_some]

theorem place_reread {line : Line} (hline : line ∈ lines) :
    (line.reread w).place (commonIndent (lines.map (·.reread w) ++ [.blank]))
      (max 1 w.indent.width) = line.inUnit w.indent.width := by
  have hplain := h.plain line hline
  cases line with
  | blank => rfl
  | literal _ => exact hplain.elim
  | code depth offset text =>
    have hwidth := w.indent.one_le
    have hdiv : (depth * w.indent.width + offset) / w.indent.width =
        depth + offset / w.indent.width := by
      rw [Nat.add_comm, Nat.add_mul_div_right _ _ hwidth, Nat.add_comm]
    have hmod : (depth * w.indent.width + offset) % w.indent.width = offset % w.indent.width := by
      rw [Nat.add_comm, Nat.add_mul_mod_self_right]
    rw [h.commonIndent_eq w hline nofun, Nat.max_eq_right hwidth]
    simp only [Line.reread, MeasuredLine.place, Option.map_some, Option.getD_some,
      Nat.add_sub_cancel_left, hdiv, hmod, String.ofList_toList, Line.inUnit]

/-- What is written comes back with its offsets counted in the writer's levels. -/
theorem ofRange_written : ofRange (written w lines) ⟨0, (written w lines).length⟩ []
    w.indent.width = ⟨lines.map (·.inUnit w.indent.width)⟩ := by
  have hspaced : Spaced Line.blank (lines.map (·.inUnit w.indent.width)) :=
    h.spaced.map fun _ => Line.inUnit_eq_blank_iff
  have hplaced := List.map_congr_left fun line (hline : line ∈ lines) => h.place_reread w hline
  rw [ofRange, h.measure_written, List.map_append, List.map_map]
  exact (congrArg (fun placed => Block.mk (squeeze (placed ++ [Line.blank]))) hplaced).trans
    (congrArg Block.mk (squeeze_append_blank hspaced))

end Flush

/-! ### Blocks of source without literals -/

end Block

/-- A line that is measured outside of literals is plain. -/
theorem plain_place_measureLine (base : Option Nat) (start : Nat) {line : List Char}
    (hline : '\n' ∉ line) (common unit : Nat) :
    ((measureLine [] base false start line).place common unit).Plain := by
  have hmeasures := measures_measureLine [] base false start line
  generalize measureLine [] base false start line = measured at hmeasures
  cases hmeasures with
  | blank => trivial
  | literal within => cases within
  | @code text trimmed outside line_eq ne_nil lead_eq white ends =>
    have hdrop := dropReturn_prefix line
    have htext : '\n' ∉ text := fun hmem => hline (hdrop.subset (line_eq ▸ by simp [hmem]))
    rcases ends with ⟨htrim, -⟩ | ⟨-, hend⟩
    · have hvisible := htrim ▸ endsVisibly_trimEnd (by rwa [htrim])
      simpa only [MeasuredLine.place, Block.Line.Plain, String.toList_ofList] using
        ⟨htext, lead_eq, hvisible⟩
    · cases hend

/-- Lines that are expressed relative to the least indented one of them reach the left edge. -/
theorem exists_leftmost (measured : List MeasuredLine) (unit : Nat) {line : Block.Line}
    (hline : line ∈ measured.map (·.place (commonIndent measured) unit)) (hplain : line.Plain)
    (hne : line ≠ .blank) :
    ∃ text, .code 0 0 text ∈ measured.map (·.place (commonIndent measured) unit) := by
  by_cases hknown : ∃ other ∈ measured, ∃ column, other.indent? = some column
  · obtain ⟨other, hother, column, hcolumn⟩ := hknown
    obtain ⟨-, least, hleast, hindent⟩ := commonIndent_spec hother hcolumn
    cases least with
    | blank => cases hindent
    | literal text => cases hindent
    | code indent text =>
      obtain rfl : indent = some (commonIndent measured) := hindent
      refine ⟨String.ofList text, List.mem_map.2 ⟨_, hleast, ?_⟩⟩
      simp [MeasuredLine.place]
  · -- No indentation is known, so each line of code stands at the left edge.
    obtain ⟨other, hother, rfl⟩ := List.mem_map.1 hline
    cases other with
    | blank => exact absurd rfl hne
    | literal text => exact hplain.elim
    | code indent text =>
      have hindent : indent = none := Option.eq_none_iff_forall_ne_some.2 fun column hcolumn =>
        hknown ⟨_, hother, column, hcolumn⟩
      refine ⟨String.ofList text, List.mem_map.2 ⟨_, hother, ?_⟩⟩
      simp [MeasuredLine.place, hindent]

/-- The block of a stretch of source without literals keeps to its left edge. -/
theorem flush_ofRange (source : List Char) (range : Span) (unit : Nat) :
    Block.Flush (Block.ofRange source range [] unit).lines := by
  have hplain : ∀ measured ∈ measure source range [], ∀ common unit,
      (measured.place common unit).Plain := by
    intro measured hmeasured common unit
    obtain ⟨line, hline, rfl⟩ := mem_measure_iff.1 hmeasured
    have houtside : (decide (range.start < line.1) && inside [] line.1) = false := Bool.and_false _
    rw [measureAt, houtside]
    exact plain_place_measureLine _ _ (of_mem_linesWithin hline).2 common unit
  refine ⟨fun line hline => ?_, fun line hline hne => ?_, Block.spaced_squeeze _⟩
  · obtain ⟨measured, hmeasured, rfl⟩ := List.mem_map.1 (Block.mem_of_mem_squeeze hline)
    exact hplain measured hmeasured _ _
  · have hmem := Block.mem_of_mem_squeeze hline
    obtain ⟨measured, hmeasured, heq⟩ := List.mem_map.1 hmem
    obtain ⟨text, htext⟩ := exists_leftmost _ _ hmem (heq ▸ hplain measured hmeasured _ _) hne
    exact ⟨text, Block.mem_squeeze htext (by simp)⟩

/-- What the block of a stretch of source writes does not change when it is read as a block in the unit
that it is written in, and is written again at the same depth. The block that is read is the same one
exactly if no line of it stands a whole level or more beside its depth. -/
theorem Block.render_ofRange_render (source : List Char) (range : Span) (unit : Nat) (indent : Indent)
    (level : Nat) :
    let block := Block.ofRange source range [] unit
    let text := (block.render { indent, level }).text
    let again := Block.ofRange text.toList ⟨0, text.toList.length⟩ [] indent.width
    (again.render { indent, level }).text = text ∧
      (again = block ↔ ∀ line ∈ block.lines, line.offset < indent.width) := by
  intro block text again
  have hflush : Flush block.lines := flush_ofRange source range unit
  have htext : text.toList = written { indent, level } block.lines := by
    rw [Block.toList_text_render]
    rfl
  have hagain : again = ⟨block.lines.map (·.inUnit indent.width)⟩ := by
    simp only [again, htext]
    exact hflush.ofRange_written { indent, level }
  constructor
  · rw [← String.toList_inj, Block.toList_text_render, hagain, htext]
    exact written_inUnit { indent, level } block.lines
  · have hself : block.lines.map (·.inUnit indent.width) = block.lines ↔
        ∀ line ∈ block.lines, line.inUnit indent.width = line := by
      simpa using List.map_inj_left (l := block.lines) (f := (·.inUnit indent.width)) (g := id)
    rw [hagain, show block = ⟨block.lines⟩ from rfl, Block.mk.injEq, hself]
    exact forall₂_congr fun line _ => Line.inUnit_eq_self_iff indent.one_le

end CodeSplice.Layout
