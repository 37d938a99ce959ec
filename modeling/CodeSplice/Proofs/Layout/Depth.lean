/-
Module: CodeSplice.Proofs.Layout.Depth
Purpose: A text that stands for itself may be written at any depth. Its lines may all be pushed to the
  right by the same number of columns, and a tab in front of a line may be written as two spaces: the
  steps from one line to the next stay the same, and with them the unit of indentation and the place of
  each line in the block.
Main exports: Reindented, ofText_eq_of_reindented, pushedRight, untabbed,
  Block.ofText_pushedRight_and_untabbed
-/
import CodeSplice.Proofs.Layout.LineEnds
import CodeSplice.Proofs.Layout.Reread

namespace CodeSplice.Layout

open Text

/-! ### Lines of a text that stands for itself -/

theorem columns_append (front back : List Char) :
    columns (front ++ back) = columns front + columns back := by
  induction front with
  | nil => simp [columns]
  | cons c front ih => simp [columns, ih, Nat.add_assoc]

theorem lead_dropReturn (line : List Char) : lead (dropReturn line) = lead line := by
  obtain ⟨tail, hline, ⟨rfl, -⟩ | rfl⟩ := exists_return line
  · rw [← hline.trans (List.append_nil _)]
  · conv => rhs; rw [hline, lead_append_return]

/-- White space at the end of a line belongs to its indentation or is trimmed. -/
theorem trimEnd_body_append {line w : List Char} (h : White w) :
    trimEnd (body (line ++ w)) = trimEnd (body line) := by
  rw [body, List.dropWhile_append]
  split
  · rename_i hempty
    have hbody : White (body w) := fun c hc => h c ((List.dropWhile_sublist _).mem hc)
    rw [body, List.isEmpty_iff.1 hempty]
    exact (trimEnd_append_white hbody : trimEnd ([] ++ body w) = trimEnd [])
  · exact trimEnd_append_white h

/-- A line is measured as it stands, with its carriage return. -/
theorem measureLine_self (line : List Char) : measureLine [] (some 0) false 0 line =
    if (trimEnd (body line)).isEmpty then .blank
    else .code (some (columns (lead line))) (trimEnd (body line)) := by
  obtain ⟨tail, hline, hwhite⟩ := exists_dropReturn line
  have htext : trimEnd (body (dropReturn line)) = trimEnd (body line) := by
    conv => rhs; rw [hline, trimEnd_body_append hwhite]
  simp [measureLine, inside, htext, lead_dropReturn]

theorem trimEnd_body_of_white {line : List Char} (h : White line) : trimEnd (body line) = [] :=
  (trimEnd_body_append h : trimEnd (body ([] ++ line)) = trimEnd (body []))

/-! ### Lines with another indentation -/

/-- The same line with more columns in front of it, or any two lines of white space. -/
inductive Reindented (count : Nat) (line' line : List Char) : Prop where
  | white (white' : White line') (white : White line)
  | visible (body_eq : body line' = body line)
      (columns_eq : columns (lead line') = columns (lead line) + count)

/-- A line with more columns in front of it, as it is measured. -/
def MeasuredLine.pushed (count : Nat) : MeasuredLine → MeasuredLine
  | code indent text => code (indent.map (· + count)) text
  | literal text => literal text
  | blank => blank

namespace Reindented

variable {count : Nat} {line' line : List Char} (h : Reindented count line' line)
include h

theorem measureLine_eq : measureLine [] (some 0) false 0 line' =
    (measureLine [] (some 0) false 0 line).pushed count := by
  rw [measureLine_self, measureLine_self]
  cases h with
  | white white' white =>
    rw [trimEnd_body_of_white white', trimEnd_body_of_white white]
    rfl
  | visible body_eq columns_eq =>
    rw [body_eq, columns_eq]
    split <;> rfl

theorem counted_eq : counted [] (0, line') = counted [] (0, line) := by
  cases h with
  | white white' white =>
    simp only [counted, trimEnd_body_of_white white', trimEnd_body_of_white white]
    rfl
  | visible body_eq columns_eq => simp only [counted, body_eq]

theorem columns_eq (hcounted : counted [] (0, line) = true) :
    columns (lead line') = columns (lead line) + count := by
  cases h with
  | white white' white => simp [counted, trimEnd_body_of_white white] at hcounted
  | visible body_eq columns_eq => exact columns_eq

end Reindented

section

variable {count : Nat} {lines' lines : List (List Char)}
  (h : List.Forall₂ (Reindented count) lines' lines)
include h

theorem map_measureLine_of_reindented : lines'.map (measureLine [] (some 0) false 0) =
    (lines.map (measureLine [] (some 0) false 0)).map (·.pushed count) := by
  induction h with
  | nil => rfl
  | cons hline _ ih => rw [List.map_cons, List.map_cons, List.map_cons, hline.measureLine_eq, ih]

/-- The columns of the lines that count for the unit. -/
theorem columns_of_reindented :
    ((lines'.filter fun line => counted [] (0, line)).map fun line => columns (lead line)) =
      ((lines.filter fun line => counted [] (0, line)).map fun line => columns (lead line)).map
        (· + count) := by
  induction h with
  | nil => rfl
  | @cons line' line lines' lines hline _ ih =>
    have hcounted := hline.counted_eq
    cases hc : counted [] (0, line) with
    | true =>
      rw [hc] at hcounted
      rw [List.filter_cons, List.filter_cons, if_pos hcounted, if_pos hc, List.map_cons, List.map_cons,
        List.map_cons, ih, hline.columns_eq hc]
    | false =>
      rw [hc] at hcounted
      rw [List.filter_cons, List.filter_cons, hcounted, hc]
      exact ih

end

/-! ### The same steps, the same places -/

/-- The steps between numbers do not depend on where they start. -/
theorem increases_map_add (count : Nat) (numbers : List Nat) :
    increases (numbers.map (· + count)) = increases numbers := by
  fun_induction increases numbers with
  | case1 a b rest hlt ih =>
    rw [List.map_cons, List.map_cons, increases, if_pos (Nat.add_lt_add_right hlt count),
      Nat.add_sub_add_right, ← ih, List.map_cons]
  | case2 a b rest hle ih =>
    rw [List.map_cons, List.map_cons, increases, if_neg (fun h => hle (Nat.lt_of_add_lt_add_right h)),
      ← ih, List.map_cons]
  | case3 numbers hshort =>
    rcases numbers with - | ⟨a, - | ⟨b, rest⟩⟩
    · rfl
    · rfl
    · exact absurd rfl (hshort a b rest)

theorem min?_map_add {numbers : List Nat} {least : Nat} (h : numbers.min? = some least) (count : Nat) :
    (numbers.map (· + count)).min? = some (least + count) := by
  rw [List.min?_eq_some_iff] at h ⊢
  refine ⟨List.mem_map_of_mem h.1, fun number hnumber => ?_⟩
  obtain ⟨other, hother, rfl⟩ := List.mem_map.1 hnumber
  exact Nat.add_le_add_right (h.2 other hother) count

theorem indent?_pushed (count : Nat) (measured : MeasuredLine) :
    (measured.pushed count).indent? = measured.indent?.map (· + count) := by
  cases measured <;> rfl

/-- Lines that are all pushed to the right are placed as before. -/
theorem place_pushed (count unit : Nat) {lines : List MeasuredLine} {line : MeasuredLine}
    (hline : line ∈ lines) :
    (line.pushed count).place (commonIndent (lines.map (·.pushed count))) unit =
      line.place (commonIndent lines) unit := by
  cases line with
  | blank => rfl
  | literal text => rfl
  | code indent text =>
    cases indent with
    | none => rfl
    | some column =>
      have hmem : column ∈ lines.filterMap (·.indent?) := List.mem_filterMap.2 ⟨_, hline, rfl⟩
      have hindents : (lines.map (·.pushed count)).filterMap (·.indent?) =
          (lines.filterMap (·.indent?)).map (· + count) := by
        rw [List.filterMap_map, List.map_filterMap]
        exact List.filterMap_congr fun line _ => indent?_pushed count line
      obtain ⟨least, hleast⟩ : ∃ least, (lines.filterMap (·.indent?)).min? = some least := by
        cases hmin : (lines.filterMap (·.indent?)).min? with
        | none => simp [List.min?_eq_none_iff.1 hmin] at hmem
        | some least => exact ⟨least, rfl⟩
      have hcommon : commonIndent (lines.map (·.pushed count)) = commonIndent lines + count := by
        rw [commonIndent, commonIndent, hindents, min?_map_add hleast count, hleast, Option.getD_some,
          Option.getD_some]
      rw [hcommon]
      simp only [MeasuredLine.pushed, MeasuredLine.place, Option.map_some, Option.getD_some,
        Nat.add_sub_add_right]

/-- Texts whose lines differ in their indentation only, all by the same number of columns, are read as
the same block. -/
theorem ofText_eq_of_reindented {count : Nat} {text' text : String}
    (h : List.Forall₂ (Reindented count) (splitLines text'.toList) (splitLines text.toList)) :
    Block.ofText text' = Block.ofText text := by
  have hunit : unitOf text'.toList [] = unitOf text.toList [] := by
    rw [unitOf_self, unitOf_self, columns_of_reindented h, increases_map_add]
  simp only [Block.ofText, Block.ofRange, measure_self, hunit, map_measureLine_of_reindented h]
  rw [List.map_map]
  exact congrArg (fun placed => Block.mk (Block.squeeze placed))
    (List.map_congr_left fun line hline => place_pushed count _ hline)

/-! ### Texts pushed to the right, and texts without tabs -/

/-- Rewriting the lines of a text, which come with the positions where they begin, leaves its block as
it is if each line stays the same but for the columns in front of it. -/
theorem ofText_rewritten {count : Nat} {rewrite : Nat × List Char → List Char} (text : String)
    (h : ∀ line, '\n' ∉ line.2 → '\n' ∉ rewrite line ∧ Reindented count (rewrite line) line.2) :
    Block.ofText (String.ofList (joinLines ((splitLinesFrom 0 text.toList).map rewrite))) =
      Block.ofText text := by
  have hlines : ∀ line ∈ splitLinesFrom 0 text.toList, '\n' ∉ line.2 := fun line hline =>
    not_mem_of_mem_splitLines (mem_of_mem_withStarts hline)
  have hstarts : (splitLinesFrom 0 text.toList).map Prod.snd = splitLines text.toList :=
    map_snd_withStarts 0 _
  have hne : (splitLinesFrom 0 text.toList).map rewrite ≠ [] := by
    intro hnil
    rw [List.map_eq_nil_iff] at hnil
    rw [hnil] at hstarts
    exact splitLines_ne_nil _ hstarts.symm
  have hfeed : ∀ line ∈ (splitLinesFrom 0 text.toList).map rewrite, '\n' ∉ line := by
    intro line' hline'
    obtain ⟨line, hline, rfl⟩ := List.mem_map.1 hline'
    exact (h line (hlines line hline)).1
  have hsame : List.Forall₂ (Reindented count)
      ((splitLinesFrom 0 text.toList).map rewrite) (splitLines text.toList) := by
    rw [← hstarts, List.forall₂_map_left_iff, List.forall₂_map_right_iff, List.forall₂_same]
    exact fun line hline => (h line (hlines line hline)).2
  rw [← splitLines_joinLines hne hfeed, ← String.toList_ofList (l := joinLines _)] at hsame
  exact ofText_eq_of_reindented hsame

theorem newline_not_mem_of_isBlank {blanks : List Char} (h : ∀ c ∈ blanks, isBlank c = true) :
    '\n' ∉ blanks := fun hmem => absurd (h _ hmem) (by decide)

/-- Blanks in front of a line do not change what stands behind them. -/
theorem reindented_blanks_append {blanks : List Char} (h : ∀ c ∈ blanks, isBlank c = true)
    {line' line : List Char} (hbody : body line' = body line) {count : Nat}
    (hcolumns : columns blanks + columns (lead line') = columns (lead line) + count) :
    Reindented count (blanks ++ line') line := by
  refine .visible ?_ ?_
  · rw [← hbody]
    exact List.dropWhile_append_of_pos h
  · rw [← hcolumns, ← columns_append]
    exact congrArg columns (List.takeWhile_append_of_pos h)

/-- A line with `count` spaces in front of it. A line of white space, which comes with the position
where it begins, may be left as it is. -/
def pushedLine (count : Nat) (chosen : Nat → Bool) (line : Nat × List Char) : List Char :=
  if White line.2 ∧ chosen line.1 = false then line.2 else List.replicate count ' ' ++ line.2

/-- A text with `count` spaces in front of each line, where only the chosen ones of its lines of white
space have them. -/
def pushedRight (count : Nat) (chosen : Nat → Bool) (text : List Char) : List Char :=
  joinLines ((splitLinesFrom 0 text).map (pushedLine count chosen))

theorem reindented_pushedLine (count : Nat) (chosen : Nat → Bool) {line : Nat × List Char}
    (hline : '\n' ∉ line.2) : '\n' ∉ pushedLine count chosen line ∧
      Reindented count (pushedLine count chosen line) line.2 := by
  unfold pushedLine
  split
  · rename_i hwhite
    exact ⟨hline, .white hwhite.1 hwhite.1⟩
  · have hspaces : ∀ c ∈ List.replicate count ' ', isBlank c = true := fun _ => isBlank_of_mem_spaces
    constructor
    · rw [List.mem_append, not_or]
      exact ⟨newline_not_mem_of_isBlank hspaces, hline⟩
    · exact reindented_blanks_append hspaces rfl (by rw [columns_replicate, Nat.add_comm])

/-- Blanks with two spaces for those tabs that are chosen by their positions. -/
def untabbedBlanks (chosen : Nat → Bool) : Nat → List Char → List Char
  | _, [] => []
  | position, c :: blanks =>
    (if c = '\t' ∧ chosen position = true then [' ', ' '] else [c]) ++
      untabbedBlanks chosen (position + 1) blanks

/-- A line with two spaces for the chosen ones of the tabs in front of it. -/
def untabbedLine (chosen : Nat → Bool) (line : Nat × List Char) : List Char :=
  untabbedBlanks chosen line.1 (lead line.2) ++ body line.2

/-- A text with two spaces for the chosen ones of the tabs in front of its lines. -/
def untabbed (chosen : Nat → Bool) (text : List Char) : List Char :=
  joinLines ((splitLinesFrom 0 text).map (untabbedLine chosen))

theorem isBlank_untabbedBlanks (chosen : Nat → Bool) {position : Nat} {blanks : List Char}
    (h : ∀ c ∈ blanks, isBlank c = true) :
    ∀ c ∈ untabbedBlanks chosen position blanks, isBlank c = true := by
  induction blanks generalizing position with
  | nil => exact h
  | cons d blanks ih =>
    have hrest : ∀ c ∈ untabbedBlanks chosen (position + 1) blanks, isBlank c = true :=
      ih fun c hc => h c (List.mem_cons_of_mem d hc)
    intro c hc
    rw [untabbedBlanks, List.mem_append] at hc
    rcases hc with hc | hc
    · split at hc
      · obtain rfl : c = ' ' := by simpa using hc
        rfl
      · obtain rfl := List.mem_singleton.1 hc
        exact h c List.mem_cons_self
    · exact hrest c hc

/-- A tab takes up two columns, as two spaces do. -/
theorem columns_untabbedBlanks (chosen : Nat → Bool) (position : Nat) (blanks : List Char) :
    columns (untabbedBlanks chosen position blanks) = columns blanks := by
  induction blanks generalizing position with
  | nil => rfl
  | cons c blanks ih =>
    rw [untabbedBlanks, columns_append, ih, columns]
    split
    · rename_i htab
      rw [htab.1]
      rfl
    · simp [columns]

theorem reindented_untabbedLine (chosen : Nat → Bool) {line : Nat × List Char}
    (hline : '\n' ∉ line.2) : '\n' ∉ untabbedLine chosen line ∧
      Reindented 0 (untabbedLine chosen line) line.2 := by
  have hlead : ∀ c ∈ lead line.2, isBlank c = true := fun c hc =>
    List.all_eq_true.1 List.all_takeWhile c hc
  have hblanks : ∀ c ∈ untabbedBlanks chosen line.1 (lead line.2), isBlank c = true :=
    isBlank_untabbedBlanks chosen hlead
  have hbody : body line.2 <:+ line.2 := List.dropWhile_suffix _
  have hbody' : body (body line.2) = body line.2 := by
    have hsplit := lead_append_body (body line.2)
    rwa [lead_body, List.nil_append] at hsplit
  constructor
  · rw [untabbedLine, List.mem_append, not_or]
    exact ⟨newline_not_mem_of_isBlank hblanks, fun hmem => hline (hbody.subset hmem)⟩
  · refine reindented_blanks_append hblanks hbody' ?_
    rw [columns_untabbedBlanks, lead_body]
    rfl

/-- A text that stands for itself is the same block when its lines are pushed to the right, those of
white space or not, and when tabs in front of its lines are written as two spaces. -/
theorem Block.ofText_pushedRight_and_untabbed (text : String) :
    (∀ count chosen, Block.ofText (String.ofList (pushedRight count chosen text.toList)) =
      Block.ofText text) ∧
    ∀ chosen, Block.ofText (String.ofList (untabbed chosen text.toList)) = Block.ofText text :=
  ⟨fun count chosen => ofText_rewritten text fun _ => reindented_pushedLine count chosen,
    fun chosen => ofText_rewritten text fun _ => reindented_untabbedLine chosen⟩

/-- A deeper text with a tab on one of its lines, next to the same text at the left edge. -/
example : Block.ofText "  a\n\t  b\n\n  c" = Block.ofText "a\n  b\n \nc" := by
  decide +kernel

end CodeSplice.Layout
