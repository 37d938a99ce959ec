/-
Module: CodeSplice.Proofs.Layout.Reread
Purpose: Reading a written block again. The unit of indentation is not written down but found in the
  text: it is the most frequent step from one line to the next. Lines whose depths rise by one at a
  time, which stand at no other offset and cannot be mistaken for their margin, come back as they are
  for every unit they are written with.
Main exports: Block.Line.Plain, Block.Line.reread, isFirm, Block.Stepped, Stepped.ofText_written,
  Stepped.splitLines_deeper, Step.firm_of_mem_linesOf
-/
import CodeSplice.Proofs.Layout.Canonical
import CodeSplice.Proofs.Layout.Program

namespace CodeSplice.Layout

open Text

/-! ### The unit of steady depths -/

theorem commonStep_replicate (count step : Nat) :
    commonStep (List.replicate (count + 1) step) = step := by
  rw [List.replicate_succ, commonStep]
  generalize step :: List.replicate count step = steps
  induction count with
  | zero => rfl
  | succ count ih => rwa [List.replicate_succ, List.foldl_cons, ite_self]

/-- The only increase of depths that rise by one at a time is one level. -/
theorem exists_increases_eq (width : Nat) {depths : List Nat}
    (h : depths.IsChain fun depth next => next ≤ depth + 1) :
    ∃ count, increases (depths.map (· * width)) = List.replicate count width := by
  induction h with
  | nil => exact ⟨0, rfl⟩
  | singleton => exact ⟨0, rfl⟩
  | @cons_cons depth next rest hnext _ ih =>
    obtain ⟨count, hcount⟩ := ih
    rw [List.map_cons, List.map_cons, increases]
    split
    · rename_i hlt
      have hlt : depth < next := Nat.lt_of_mul_lt_mul_right hlt
      obtain rfl : next = depth + 1 := by omega
      have hstep : (depth + 1) * width - depth * width = width := by
        rw [Nat.succ_mul, Nat.add_sub_cancel_left]
      exact ⟨count + 1, by rw [hstep, List.replicate_succ, ← hcount, List.map_cons]⟩
    · exact ⟨count, by rwa [List.map_cons] at hcount⟩

/-- Without an increase no line is deeper than the first. -/
theorem le_of_increases_eq_nil {width first : Nat} (hwidth : 0 < width) {depths : List Nat}
    (h : increases ((first :: depths).map (· * width)) = []) : ∀ depth ∈ depths, depth ≤ first := by
  induction depths generalizing first with
  | nil => exact nofun
  | cons next depths ih =>
    rw [List.map_cons, List.map_cons, increases] at h
    split at h
    · cases h
    · rename_i hle
      have hle : next ≤ first := Nat.le_of_mul_le_mul_right (Nat.not_lt.1 hle) hwidth
      intro depth hdepth
      rcases List.mem_cons.1 hdepth with rfl | hdepth
      · exact hle
      · exact Nat.le_trans (ih h depth hdepth) hle

/-- Steady depths are found again in their columns. -/
theorem Steady.place {width : Nat} (hwidth : 0 < width) {depths : List Nat} (h : Steady 0 depths)
    {depth : Nat} (hdepth : depth ∈ depths) (text : List Char) :
    (MeasuredLine.code (some (depth * width)) text).place 0
      (max 1 (commonStep (increases (depths.map (· * width))))) =
      .code depth 0 (String.ofList text) := by
  obtain ⟨count, hcount⟩ := exists_increases_eq width h.rises
  cases count with
  | zero =>
    have hzero : depth = 0 := by
      cases depths with
      | nil => cases hdepth
      | cons first depths =>
        obtain rfl : first = 0 := h.first first rfl
        rcases List.mem_cons.1 hdepth with rfl | hdepth
        · rfl
        · exact Nat.le_zero.1 (le_of_increases_eq_nil hwidth hcount depth hdepth)
    simp [MeasuredLine.place, hzero]
  | succ count =>
    rw [hcount, commonStep_replicate, Nat.max_eq_right hwidth]
    simp [MeasuredLine.place, Nat.mul_div_cancel _ hwidth, Nat.mul_mod_left]

/-! ### Lines that can be told apart from their margin -/

theorem isBlank_of_mem_spaces {count : Nat} {c : Char} (h : c ∈ List.replicate count ' ') :
    isBlank c = true := by
  rw [List.eq_of_mem_replicate h]
  rfl

theorem lead_spaces_append {text : List Char} (h : lead text = []) (count : Nat) :
    lead (List.replicate count ' ' ++ text) = List.replicate count ' ' := by
  rw [lead, List.takeWhile_append_of_pos fun _ => isBlank_of_mem_spaces]
  exact (congrArg _ h).trans (List.append_nil _)

theorem body_spaces_append {text : List Char} (h : lead text = []) (count : Nat) :
    body (List.replicate count ' ' ++ text) = text := by
  have hsplit := lead_append_body (List.replicate count ' ' ++ text)
  rw [lead_spaces_append h count] at hsplit
  exact List.append_cancel_left hsplit

theorem dropReturn_of_endsVisibly {text : List Char} (h : endsVisibly text = true) :
    dropReturn text = text := by
  obtain ⟨front, c, rfl, hc⟩ := endsVisibly_iff.1 h
  have hreturn : c ≠ '\r' := by
    rintro rfl
    exact absurd hc (by decide)
  simp [dropReturn, hreturn]

theorem ne_nil_of_endsVisibly {text : List Char} (h : endsVisibly text = true) : text ≠ [] := by
  rintro rfl
  cases h

/-- Whether a text begins with something visible. It does not begin with a star either, for such a
line may be aligned with a comment. -/
def standsOut (text : List Char) : Bool :=
  text.head?.any fun c => !isBlank c && c != '*'

theorem standsOut_append {front : List Char} (h : standsOut front = true) (back : List Char) :
    standsOut (front ++ back) = true := by
  cases front with
  | nil => cases h
  | cons c front => exact h

/-- Whether a text is one line that cannot be mistaken for its margin and ends visibly. -/
def isFirm (text : List Char) : Bool :=
  text.all (· != '\n') && standsOut text && endsVisibly text

theorem isFirm_iff {text : List Char} :
    isFirm text = true ↔ '\n' ∉ text ∧ standsOut text = true ∧ endsVisibly text = true := by
  rw [isFirm, Bool.and_eq_true, Bool.and_eq_true, and_assoc, List.all_eq_true]
  refine and_congr_left fun _ => ⟨fun h hmem => ?_, fun h c hc => ?_⟩
  · simpa using h _ hmem
  · simpa using fun heq : c = '\n' => h (heq ▸ hc)

section

variable {text : List Char} (h : isFirm text = true)
include h

theorem head?_star_of_isFirm : (text.head? != some '*') = true := by
  obtain ⟨-, hfirst, -⟩ := isFirm_iff.1 h
  cases text with
  | nil => cases hfirst
  | cons c text =>
    obtain ⟨-, hstar⟩ : isBlank c = false ∧ c ≠ '*' := by
      simpa [standsOut] using hfirst
    simpa using hstar

theorem lead_of_isFirm : lead text = [] := by
  obtain ⟨-, hfirst, -⟩ := isFirm_iff.1 h
  cases text with
  | nil => cases hfirst
  | cons c text =>
    obtain ⟨hblank, -⟩ : isBlank c = false ∧ c ≠ '*' := by
      simpa [standsOut] using hfirst
    exact List.takeWhile_cons_of_neg (by simp [hblank])

end

theorem columns_replicate (count : Nat) : columns (List.replicate count ' ') = count := by
  induction count with
  | zero => rfl
  | succ count ih => simp [List.replicate_succ, columns, ih, Nat.add_comm]

namespace Block

/-- A line that is blank, or code at its level whose text is firm. -/
def Line.Firm : Line → Prop
  | code _ offset text => offset = 0 ∧ isFirm text.toList = true
  | literal _ => False
  | blank => True

/-- A line that is blank, or code whose text is set off from its margin and ends visibly. -/
def Line.Plain : Line → Prop
  | code _ _ text => '\n' ∉ text.toList ∧ lead text.toList = [] ∧ endsVisibly text.toList = true
  | literal _ => False
  | blank => True

theorem Line.Firm.plain {line : Line} (h : line.Firm) : line.Plain := by
  cases line with
  | code _ _ text =>
    obtain ⟨hfeed, -, hlast⟩ := isFirm_iff.1 h.2
    exact ⟨hfeed, lead_of_isFirm h.2, hlast⟩
  | literal _ => exact h.elim
  | blank => trivial

/-- What a line is written as. -/
def Line.written (w : Writer) (line : Line) : List Char :=
  line.margin w ++ line.chars

/-- The row of a line of code. -/
theorem Line.written_code (indent : Indent) (depth : Nat) (text : String) :
    (Line.code depth 0 text).written { indent } =
      List.replicate (depth * indent.width) ' ' ++ text.toList := by
  simp [Line.written, Line.margin, Line.chars, Writer.margin, toList_spaces]

theorem Line.Plain.newline_not_mem {line : Line} (h : line.Plain) (w : Writer) :
    '\n' ∉ line.written w := by
  rw [Line.written, List.mem_append, not_or]
  refine ⟨Line.newline_not_mem_margin w line, ?_⟩
  cases line with
  | code _ _ text => exact h.1
  | literal _ => exact h.elim
  | blank => exact nofun

/-- Plain lines are the lines of what is written for them. -/
theorem splitLines_written {lines : List Line} (h : ∀ line ∈ lines, line.Plain) (w : Writer) :
    splitLines (written w lines) = lines.map (·.written w) ++ [[]] := by
  have hnone : ∀ row ∈ lines.map (·.row w), '\n' ∉ row.text := by
    intro row hrow
    obtain ⟨line, hline, rfl⟩ := List.mem_map.1 hrow
    rw [Line.text_row]
    exact (h line hline).newline_not_mem w
  have hrows := splitLines_textOfRows hnone
  rw [textOfRows_row, List.map_map] at hrows
  rw [hrows]
  exact congrArg (· ++ [[]]) (List.map_congr_left fun line _ => line.text_row w)

/-- Lines that are told apart from their margins, with depths that rise by one at a time. -/
structure Stepped (lines : List Line) : Prop where
  firm : ∀ line ∈ lines, line.Firm
  steady : Steady 0 (depths lines)
  spaced : Spaced .blank lines

theorem Stepped.splitLines_written {lines : List Line} (h : Stepped lines) (w : Writer) :
    splitLines (written w lines) = lines.map (·.written w) ++ [[]] :=
  Block.splitLines_written (fun line hline => (h.firm line hline).plain) w

end Block

/-! ### Measuring a text that stands for itself -/

/-- A text that stands for itself is measured line by line, the first one like the others. -/
theorem measure_self (text : List Char) :
    measure text ⟨0, text.length⟩ [] = (splitLines text).map (measureLine [] (some 0) false 0) := by
  have hslice : slice text 0 text.length = text := by simp [slice]
  rw [← map_snd_withStarts 0 (splitLines text), List.map_map]
  simp only [measure, splitLinesFrom, hslice]
  cases withStarts 0 (splitLines text) with
  | nil => rfl
  | cons first rest => rfl

/-- The lines that count for the unit of indentation, measured in columns. -/
theorem unitOf_self (text : List Char) :
    unitOf text [] = commonStep (increases
      (((splitLines text).filter fun line => counted [] (0, line)).map
        fun line => columns (lead line))) := by
  rw [unitOf, splitLinesFrom]
  conv => rhs; rw [← map_snd_withStarts 0 (splitLines text), List.filter_map, List.map_map]
  rfl

namespace Block

variable {indent : Indent} {lines : List Line}

/-- A line as it is measured in the text that a writer makes of it. -/
def Line.reread (w : Writer) : Line → MeasuredLine
  | code depth offset text =>
    .code (some (w.level * w.indent.width + (depth * w.indent.width + offset))) text.toList
  | literal text => .literal text.toList
  | blank => .blank

theorem Line.Plain.measureLine_eq {line : Line} (h : line.Plain) (w : Writer) :
    measureLine [] (some 0) false 0 (line.written w) = line.reread w := by
  cases line with
  | blank => rfl
  | literal _ => exact h.elim
  | code depth offset text =>
    obtain ⟨-, hlead, hlast⟩ := h
    have hwritten : (code depth offset text).written w =
        List.replicate (w.level * w.indent.width + (depth * w.indent.width + offset)) ' ' ++
          text.toList := by
      simp [Line.written, Line.margin, Line.chars, Writer.margin, toList_spaces]
    rw [hwritten, measureLine, dropReturn_of_endsVisibly (endsVisibly_append _ hlast)]
    simp [inside, body_spaces_append hlead, lead_spaces_append hlead, trimEnd_of_endsVisibly hlast,
      ne_nil_of_endsVisibly hlast, columns_replicate, Line.reread]

/-- A line as it is measured in the text that is written with an indentation. -/
def Line.measured (indent : Indent) : Line → MeasuredLine
  | code depth _ text => .code (some (depth * indent.width)) text.toList
  | literal text => .literal text.toList
  | blank => .blank

theorem Line.Firm.measureLine_eq {line : Line} (h : line.Firm) :
    measureLine [] (some 0) false 0 (line.written { indent }) = line.measured indent := by
  rw [h.plain.measureLine_eq]
  cases line with
  | blank => rfl
  | literal _ => exact h.elim
  | code depth offset text =>
    obtain ⟨rfl, -⟩ := h
    simp [Line.reread, Line.measured]

theorem Line.Firm.counted_eq {line : Line} (h : line.Firm) :
    counted [] (0, line.written { indent }) = line.depth?.isSome := by
  cases line with
  | blank => rfl
  | literal _ => exact h.elim
  | code depth offset text =>
    obtain ⟨rfl, hfirm⟩ := h
    have hlast := (isFirm_iff.1 hfirm).2.2
    have hne : text.toList.isEmpty = false := by
      simpa using ne_nil_of_endsVisibly hlast
    rw [Line.written_code, counted]
    simp only [body_spaces_append (lead_of_isFirm hfirm), trimEnd_of_endsVisibly hlast, hne,
      head?_star_of_isFirm hfirm]
    rfl

/-- The lines of code are those that count, and stand at their depths. -/
theorem columns_counted (hfirm : ∀ line ∈ lines, line.Firm) :
    (((lines.map (·.written { indent })).filter fun line => counted [] (0, line)).map
      fun line => columns (lead line)) = (depths lines).map (· * indent.width) := by
  induction lines with
  | nil => rfl
  | cons line lines ih =>
    have hline := hfirm line List.mem_cons_self
    have hrest := ih fun other hother => hfirm other (List.mem_cons_of_mem _ hother)
    have hcounted : counted [] (0, line.written { indent }) = line.depth?.isSome := hline.counted_eq
    cases line with
    | literal _ => exact hline.elim
    | blank =>
      rw [List.map_cons, List.filter_cons_of_neg (by simp [hcounted, Line.depth?]), hrest]
      rfl
    | code depth offset text =>
      obtain ⟨rfl, htext⟩ := hline
      rw [List.map_cons, List.filter_cons_of_pos (by simp [hcounted, Line.depth?]), List.map_cons,
        hrest, Line.written_code, lead_spaces_append (lead_of_isFirm htext), columns_replicate]
      rfl

theorem Stepped.unitOf_written (h : Stepped lines) :
    unitOf (written { indent } lines) [] =
      commonStep (increases ((depths lines).map (· * indent.width))) := by
  have hblank : counted [] (0, []) = false := rfl
  rw [unitOf_self, h.splitLines_written, List.filter_append,
    List.filter_cons_of_neg (by simp [hblank]), List.filter_nil, List.append_nil,
    columns_counted h.firm]

theorem Stepped.measure_written (h : Stepped lines) :
    measure (written { indent } lines) ⟨0, (written { indent } lines).length⟩ [] =
      lines.map (·.measured indent) ++ [.blank] := by
  rw [measure_self, h.splitLines_written, List.map_append, List.map_map]
  refine congrArg (· ++ [MeasuredLine.blank]) (List.map_congr_left fun line hline => ?_)
  exact (h.firm line hline).measureLine_eq

theorem indent?_measured (indent : Indent) (line : Line) :
    (line.measured indent).indent? = line.depth?.map (· * indent.width) := by
  cases line <;> rfl

/-- The first line of code stands at the left edge. -/
theorem Stepped.commonIndent_eq (h : Stepped lines) :
    commonIndent (lines.map (·.measured indent) ++ [MeasuredLine.blank]) = 0 := by
  have hindents : (lines.map (·.measured indent) ++ [MeasuredLine.blank]).filterMap
      MeasuredLine.indent? = (depths lines).map (· * indent.width) := by
    rw [List.filterMap_append, List.filterMap_map, depths, List.map_filterMap]
    refine (List.append_nil _).trans (List.filterMap_congr fun line _ => ?_)
    exact indent?_measured indent line
  rw [commonIndent, hindents]
  cases hdepths : depths lines with
  | nil => rfl
  | cons first rest =>
    obtain rfl : first = 0 := h.steady.first first (by rw [hdepths]; rfl)
    have hmin : (((0 :: rest).map (· * indent.width)).min?) = some 0 := by
      rw [List.min?_eq_some_iff]
      exact ⟨by simp, fun _ _ => Nat.zero_le _⟩
    rw [hmin]
    rfl

/-- Each line is placed at its depth again. -/
theorem Stepped.place_measured (h : Stepped lines) {line : Line} (hline : line ∈ lines) :
    (line.measured indent).place 0
      (max 1 (commonStep (increases ((depths lines).map (· * indent.width))))) = line := by
  have hfirm := h.firm line hline
  cases line with
  | blank => rfl
  | literal _ => exact hfirm.elim
  | code depth offset text =>
    obtain ⟨rfl, -⟩ := hfirm
    have hdepth : depth ∈ depths lines := List.mem_filterMap.2 ⟨_, hline, rfl⟩
    rw [Line.measured, h.steady.place indent.one_le hdepth, String.ofList_toList]

/-- Of lines whose blank ones stand between others nothing is dropped but a blank line behind them. -/
theorem collapse_append_blank (hlast : lines.getLast? ≠ some .blank)
    (hsingle : lines.IsChain fun line next => line = .blank → next ≠ .blank) :
    collapse (lines ++ [.blank]) = lines := by
  induction lines with
  | nil => rfl
  | cons line lines ih =>
    have hrest : collapse (lines ++ [.blank]) = lines := by
      refine ih (fun hblank => hlast ?_) hsingle.tail
      rw [List.getLast?_cons, hblank]
      rfl
    rw [List.cons_append]
    by_cases hline : line = .blank
    · subst hline
      have hne : lines ≠ [] := by
        rintro rfl
        exact hlast rfl
      have hfirst : lines.head? ≠ some .blank := fun hblank =>
        (List.isChain_cons.1 hsingle).1 .blank hblank rfl rfl
      rw [collapse_blank_cons, hrest, if_neg (not_or.2 ⟨hne, hfirst⟩)]
    · rw [collapse_cons hline, hrest]

theorem squeeze_append_blank (h : Spaced .blank lines) : squeeze (lines ++ [.blank]) = lines := by
  have hcollapse := collapse_append_blank h.last h.single
  cases lines with
  | nil => rfl
  | cons line lines =>
    have hne : line ≠ .blank := fun hblank => h.first (congrArg some hblank)
    rwa [squeeze, List.cons_append, List.dropWhile_cons_of_neg (by simpa using hne)]

/-- Lines that keep to levels come back as they are, whatever the width of a level. -/
theorem Stepped.ofText_written (h : Stepped lines) (indent : Indent) :
    Block.ofText (String.ofList (written { indent } lines)) = ⟨lines⟩ := by
  have hplaced : (lines.map (·.measured indent)).map (·.place 0
      (max 1 (commonStep (increases ((depths lines).map (· * indent.width)))))) = lines := by
    rw [List.map_map]
    exact (List.map_congr_left fun line hline => h.place_measured hline).trans (List.map_id lines)
  rw [ofText, String.toList_ofList, ofRange, h.measure_written, h.commonIndent_eq,
    h.unitOf_written, List.map_append, hplaced]
  exact congrArg Block.mk (squeeze_append_blank h.spaced)

/-- A deeper level pushes the lines of a block to the right, the blank ones apart. -/
theorem Stepped.splitLines_deeper (h : Stepped lines) (indent : Indent) (level : Nat) :
    splitLines (written { indent, level } lines) =
      (splitLines (written { indent } lines)).map fun line =>
        if White line then [] else List.replicate (level * indent.width) ' ' ++ line := by
  rw [h.splitLines_written, h.splitLines_written, List.map_append, List.map_map]
  refine congrArg (· ++ [[]]) (List.map_congr_left fun line hline => ?_)
  have hfirm := h.firm line hline
  cases line with
  | blank => rfl
  | literal _ => exact hfirm.elim
  | code depth offset text =>
    obtain ⟨rfl, hfirm⟩ := hfirm
    have hvisible : ¬ White ((Line.code depth 0 text).written { indent }) :=
      not_white_of_endsVisibly (endsVisibly_append _ (isFirm_iff.1 hfirm).2.2)
    rw [Function.comp, if_neg hvisible]
    simp only [Line.written, Line.margin, Writer.margin, toList_spaces, Nat.zero_mul, Nat.add_zero,
      List.replicate_zero, List.nil_append, List.append_assoc]

end Block

/-! ### Programs with firm lines -/

namespace Step

mutual

/-- The texts of the lines that a step may write. -/
def texts : Step → List String
  | .line s => [s]
  | .enclosed header close body => header :: close :: textsOf body
  | .onlyIf _ body => textsOf body
  | .blank | .raw _ | .deeper | .shallower | .extendLast _ => []

@[inherit_doc texts]
def textsOf : List Step → List String
  | [] => []
  | step :: steps => texts step ++ textsOf steps

end

mutual

/-- The lines of a step are firm if its texts are. -/
theorem firm_of_mem_lines {level : Nat} {line : Block.Line} :
    ∀ {step : Step}, (∀ text ∈ step.texts, isFirm text.toList = true) →
      line ∈ step.lines level → line.Firm
  | .line s, h, hline => by
    obtain rfl := List.mem_singleton.1 hline
    exact ⟨rfl, h s (List.mem_singleton_self s)⟩
  | .blank, _, hline => by
    obtain rfl := List.mem_singleton.1 hline
    trivial
  | .enclosed header close body, h, hline => by
    rw [lines, List.mem_append, List.mem_cons, List.mem_singleton] at hline
    obtain (rfl | hline) | rfl := hline
    · exact ⟨rfl, h header (by simp [texts])⟩
    · exact firm_of_mem_linesOf (fun text htext => h text (by simp [texts, htext])) hline
    · exact ⟨rfl, h close (by simp [texts])⟩
  | .onlyIf condition body, h, hline => by
    rw [lines] at hline
    split at hline
    · exact firm_of_mem_linesOf h hline
    · cases hline
  | .raw _, _, hline | .deeper, _, hline | .shallower, _, hline | .extendLast _, _, hline => by
    cases hline

@[inherit_doc firm_of_mem_lines]
theorem firm_of_mem_linesOf {level : Nat} {line : Block.Line} :
    ∀ {steps : List Step}, (∀ text ∈ textsOf steps, isFirm text.toList = true) →
      line ∈ linesOf level steps → line.Firm
  | [], _, hline => by
    cases hline
  | step :: steps, h, hline => by
    rw [linesOf, List.mem_append] at hline
    obtain hline | hline := hline
    · exact firm_of_mem_lines (fun text htext => h text (by simp [textsOf, htext])) hline
    · exact firm_of_mem_linesOf (fun text htext => h text (by simp [textsOf, htext])) hline

end

end Step

end CodeSplice.Layout
