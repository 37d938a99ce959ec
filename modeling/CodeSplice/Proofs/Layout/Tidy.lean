/-
Module: CodeSplice.Proofs.Layout.Tidy
Purpose: The shape of written text. Text is tidy if its rows end in something that can be seen, are
  not indented with tabs, and if an empty row stands only between two rows that are not empty.
  Blocks that are read from source are tidy, and so is what steps of a writer make of tidy blocks one
  below the other, with at most one empty row in between. Rows that come from a line of the source
  which begins or ends in a template literal are kept as they stand there.
Main exports: Row, Tidy, Block.Neat, Block.DropsBlanks, neat_ofRange, Fills, Fills.below,
  Fills.extendLast, fills_render, fills_renderOpen
-/
import CodeSplice.Proofs.Layout.Measure
import Mathlib.Data.List.Chain

namespace CodeSplice.Layout

open Text

/-! ### Empty elements of a list -/

/-- An element that stands only between others: not first, not last and never twice in a row. -/
structure Spaced {α : Type} (blank : α) (l : List α) : Prop where
  first : l.head? ≠ some blank
  last : l.getLast? ≠ some blank
  single : l.IsChain fun a b => a = blank → b ≠ blank

namespace Spaced

variable {α β : Type} {blank : α} {l m : List α}

theorem nil : Spaced blank [] :=
  ⟨by simp, by simp, .nil⟩

theorem singleton {a : α} (h : a ≠ blank) : Spaced blank [a] :=
  ⟨by simpa using h, by simpa using h, .singleton a⟩

theorem of_not_mem (h : blank ∉ l) : Spaced blank l where
  first hblank := h (List.mem_of_head? hblank)
  last hblank := h (List.mem_of_getLast? hblank)
  single := by
    refine (List.pairwise_of_forall_mem_list fun a ha b _ hblank => ?_).isChain
    exact absurd (hblank ▸ ha) h

theorem append (hl : Spaced blank l) (hm : Spaced blank m) : Spaced blank (l ++ m) where
  first := by
    cases l with
    | nil => exact hm.first
    | cons a l => exact hl.first
  last := by
    have hlast := hm.last
    rw [List.getLast?_append]
    cases h : m.getLast? with
    | none => exact hl.last
    | some a => rwa [h] at hlast
  single := hl.single.append hm.single fun a ha b _ hblank _ => hl.last (hblank ▸ ha)

/-- The element may stand between two lists. -/
theorem separate (hl : Spaced blank l) (hm : Spaced blank m) (hne : l ≠ []) (hne' : m ≠ []) :
    Spaced blank (l ++ blank :: m) where
  first := by
    cases l with
    | nil => exact absurd rfl hne
    | cons a l => exact hl.first
  last := by
    rw [List.getLast?_append_cons, List.getLast?_cons]
    cases h : m.getLast? with
    | none => exact absurd (List.getLast?_eq_none_iff.1 h) hne'
    | some a => exact h ▸ hm.last
  single := by
    refine hl.single.append (hm.single.cons fun a ha _ hblank => hm.first (hblank ▸ ha)) ?_
    exact fun a ha b _ hblank _ => hl.last (hblank ▸ ha)

/-- What becomes of the other elements does not matter. -/
theorem map {blank' : β} {f : α → β} (h : Spaced blank l) (hf : ∀ a, f a = blank' ↔ a = blank) :
    Spaced blank' (l.map f) where
  first := by
    rw [List.head?_map, Ne, Option.map_eq_some_iff]
    rintro ⟨a, ha, hblank⟩
    exact h.first (ha.trans (congrArg some ((hf a).1 hblank)))
  last := by
    rw [List.getLast?_map, Ne, Option.map_eq_some_iff]
    rintro ⟨a, ha, hblank⟩
    exact h.last (ha.trans (congrArg some ((hf a).1 hblank)))
  single := by
    rw [List.isChain_map]
    exact h.single.imp fun a b hab ha hb => hab ((hf a).1 ha) ((hf b).1 hb)

end Spaced

/-! ### Rows -/

/-- A text that ends in something that can be seen. -/
def endsVisibly (text : List Char) : Bool :=
  text.getLast?.any fun c => !isSpace c

theorem endsVisibly_iff {text : List Char} :
    endsVisibly text = true ↔ ∃ front c, text = front ++ [c] ∧ isSpace c = false := by
  simp only [endsVisibly, Option.any_eq_true, Bool.not_eq_true', List.getLast?_eq_some_iff]
  constructor
  · rintro ⟨c, ⟨front, rfl⟩, hc⟩
    exact ⟨front, c, rfl, hc⟩
  · rintro ⟨front, c, rfl, hc⟩
    exact ⟨c, ⟨front, rfl⟩, hc⟩

/-- What stands in front of a text does not matter to its end. -/
theorem endsVisibly_append {text : List Char} (front : List Char) (h : endsVisibly text = true) :
    endsVisibly (front ++ text) = true := by
  obtain ⟨rest, c, rfl, hc⟩ := endsVisibly_iff.1 h
  exact endsVisibly_iff.2 ⟨front ++ rest, c, by simp, hc⟩

theorem endsVisibly_trimEnd {text : List Char} (h : trimEnd text ≠ []) :
    endsVisibly (trimEnd text) = true := by
  have hlast := List.getLast?_eq_some_getLast h
  simp [endsVisibly, hlast, not_isSpace_getLast_trimEnd hlast]

/-- What follows something that can be seen does not belong to the indentation. -/
theorem lead_append {text : List Char} (h : endsVisibly text = true) (suffix : List Char) :
    lead (text ++ suffix) = lead text := by
  obtain ⟨front, c, rfl, hc⟩ := endsVisibly_iff.1 h
  have hblank : isBlank c = false := by
    rw [Bool.eq_false_iff]
    exact fun hblank => Bool.false_ne_true (hc.symm.trans (isSpace_of_isBlank hblank))
  unfold lead
  clear h
  induction front with
  | nil => simp [hblank]
  | cons d front ih =>
    simp only [List.cons_append, List.takeWhile_cons]
    split
    · rw [ih]
    · rfl

/-- The indentation of a text reaches into what follows it, if at all, as its indentation. -/
theorem tab_not_mem_lead_append {front back : List Char} (h : '\t' ∉ lead front)
    (h' : '\t' ∉ lead back) : '\t' ∉ lead (front ++ back) := by
  unfold lead at h h' ⊢
  induction front with
  | nil => exact h'
  | cons c front ih =>
    rw [List.cons_append, List.takeWhile_cons]
    rw [List.takeWhile_cons] at h
    split
    · rename_i hc
      rw [if_pos hc, List.mem_cons, not_or] at h
      rw [List.mem_cons, not_or]
      exact ⟨h.1, ih h.2⟩
    · simp

theorem tab_not_mem_lead_spaces (count : Nat) : '\t' ∉ lead (spaces count).toList := by
  rw [toList_spaces]
  intro hmem
  exact absurd (List.eq_of_mem_replicate ((List.takeWhile_sublist _).mem hmem)) (by decide)

/-- A row of written text. A row that comes from a line which begins or ends in a template literal is
kept as it stands there. -/
inductive Row where
  | blank
  | plain (text : List Char)
  | kept (text : List Char)
deriving DecidableEq, Repr

namespace Row

/-- What stands in a row. -/
def text : Row → List Char
  | blank => []
  | plain text => text
  | kept text => text

/-- A row is clean if it does not end in white space and is not indented with a tab, or if it is kept
for a piece of the source that is to be kept. -/
def Clean (keeps : List Char → Prop) : Row → Prop
  | blank => True
  | plain text => '\n' ∉ text ∧ '\t' ∉ lead text ∧ endsVisibly text = true
  | kept text => '\n' ∉ text ∧ ∃ piece, keeps piece ∧ piece <:+: text

/-- More text at the end of a row. -/
def extend (suffix : List Char) : Row → Row
  | blank => plain suffix
  | plain text => plain (text ++ suffix)
  | kept text => kept (text ++ suffix)

variable {keeps : List Char → Prop} {row : Row}

theorem Clean.newline_not_mem (h : row.Clean keeps) : '\n' ∉ row.text := by
  cases row with
  | blank => simp [text]
  | plain _ => exact h.1
  | kept _ => exact h.1

theorem extend_ne_blank (suffix : List Char) (row : Row) : row.extend suffix ≠ blank := by
  cases row <;> exact nofun

theorem text_extend (suffix : List Char) (row : Row) :
    (row.extend suffix).text = row.text ++ suffix := by
  cases row <;> rfl

/-- A row stays clean behind which something is written that ends visibly. -/
theorem Clean.extend (h : row.Clean keeps) (hne : row ≠ blank) {suffix : List Char}
    (hsuffix : '\n' ∉ suffix) (hlast : endsVisibly suffix = true) :
    (row.extend suffix).Clean keeps := by
  cases row with
  | blank => exact absurd rfl hne
  | plain text =>
    obtain ⟨hline, htab, hvisible⟩ := h
    exact ⟨by simp [hline, hsuffix], by rwa [lead_append hvisible],
      endsVisibly_append text hlast⟩
  | kept text =>
    obtain ⟨hline, piece, hpiece, hinfix⟩ := h
    exact ⟨by simp [hline, hsuffix], piece, hpiece, hinfix.trans (List.infix_append' [] text suffix)⟩

end Row

/-- The text of rows, each of which ends with a line feed. -/
def textOfRows (rows : List Row) : List Char :=
  rows.flatMap fun row => row.text ++ ['\n']

@[simp] theorem textOfRows_nil : textOfRows [] = [] := rfl

@[simp] theorem textOfRows_cons (row : Row) (rows : List Row) :
    textOfRows (row :: rows) = row.text ++ '\n' :: textOfRows rows := by
  simp [textOfRows]

@[simp] theorem textOfRows_append (rows others : List Row) :
    textOfRows (rows ++ others) = textOfRows rows ++ textOfRows others := by
  simp [textOfRows]

/-- Tidy rows are clean, and an empty row stands only between others. -/
structure Tidy (keeps : List Char → Prop) (rows : List Row) : Prop where
  clean : ∀ row ∈ rows, row.Clean keeps
  spaced : Spaced .blank rows

namespace Tidy

variable {keeps : List Char → Prop} {rows others : List Row}

theorem nil : Tidy keeps [] :=
  ⟨by simp, .nil⟩

theorem singleton {row : Row} (h : row.Clean keeps) (hne : row ≠ .blank) : Tidy keeps [row] :=
  ⟨by simpa using h, .singleton hne⟩

theorem append (h : Tidy keeps rows) (h' : Tidy keeps others) : Tidy keeps (rows ++ others) where
  clean := by
    intro row hrow
    rcases List.mem_append.1 hrow with hrow | hrow
    · exact h.clean row hrow
    · exact h'.clean row hrow
  spaced := h.spaced.append h'.spaced

/-- An empty row may stand between tidy rows. -/
theorem separate (h : Tidy keeps rows) (h' : Tidy keeps others) (hne : rows ≠ [])
    (hne' : others ≠ []) : Tidy keeps (rows ++ .blank :: others) where
  clean := by
    intro row hrow
    rcases List.mem_append.1 hrow with hrow | hrow
    · exact h.clean row hrow
    rcases List.mem_cons.1 hrow with rfl | hrow
    · trivial
    · exact h'.clean row hrow
  spaced := h.spaced.separate h'.spaced hne hne'

/-- Tidy rows have a last one, which is not empty, and are tidy with more text behind it. -/
theorem exists_extend (h : Tidy keeps rows) (hne : rows ≠ []) {suffix : List Char}
    (hsuffix : '\n' ∉ suffix) (hlast : endsVisibly suffix = true) :
    ∃ front row, rows = front ++ [row] ∧ Tidy keeps (front ++ [row.extend suffix]) := by
  obtain ⟨front, row, rfl⟩ : ∃ front row, rows = front ++ [row] :=
    ⟨_, _, (List.dropLast_concat_getLast hne).symm⟩
  have hrow : row ≠ .blank := fun hblank => h.spaced.last (by simp [hblank])
  refine ⟨front, row, rfl, ⟨fun other hother => ?_, ?_, ?_, ?_⟩⟩
  · rcases List.mem_append.1 hother with hother | hother
    · exact h.clean other (List.mem_append_left _ hother)
    · rw [List.mem_singleton.1 hother]
      exact (h.clean row (by simp)).extend hrow hsuffix hlast
  · cases front with
    | nil => simpa using row.extend_ne_blank suffix
    | cons first front => exact h.spaced.first
  · simpa using row.extend_ne_blank suffix
  · refine h.spaced.single.left_of_append.append (.singleton _) ?_
    rintro a - b hb -
    obtain rfl : row.extend suffix = b := by simpa using hb
    exact row.extend_ne_blank suffix

end Tidy

/-! ### Steps of a writer -/

/-- A step that writes tidy rows, at least one, below what has been written. -/
def Fills (keeps : List Char → Prop) (step : Writer → Writer) : Prop :=
  ∀ w, ∃ rows, rows ≠ [] ∧ Tidy keeps rows ∧
    (step w).text.toList = w.text.toList ++ textOfRows rows

namespace Fills

variable {keeps : List Char → Prop} {step next : Writer → Writer}

theorem comp (h : Fills keeps step) (h' : Fills keeps next) :
    Fills keeps fun w => next (step w) := by
  intro w
  obtain ⟨rows, hne, htidy, htext⟩ := h w
  obtain ⟨others, -, htidy', htext'⟩ := h' (step w)
  exact ⟨rows ++ others, by simp [hne], htidy.append htidy', by simp [htext', htext]⟩

/-- One empty row may be left between two steps. -/
theorem below (h : Fills keeps step) (h' : Fills keeps next) :
    Fills keeps fun w => next (step w).blank := by
  intro w
  obtain ⟨rows, hne, htidy, htext⟩ := h w
  obtain ⟨others, hne', htidy', htext'⟩ := h' (step w).blank
  refine ⟨rows ++ .blank :: others, by simp, htidy.separate htidy' hne hne', ?_⟩
  rw [htext', Writer.blank, Writer.raw, String.toList_append, htext]
  simp [Row.text]

theorem line {text : String} (hline : '\n' ∉ text.toList) (htab : '\t' ∉ lead text.toList)
    (hlast : endsVisibly text.toList = true) : Fills keeps (·.line text) := by
  intro w
  have hrow : (Row.plain (w.margin.toList ++ text.toList)).Clean keeps := by
    refine ⟨?_, ?_, endsVisibly_append _ hlast⟩
    · rw [List.mem_append, not_or]
      exact ⟨newline_not_mem_spaces _, hline⟩
    · exact tab_not_mem_lead_append (tab_not_mem_lead_spaces _) htab
  exact ⟨_, by simp, .singleton hrow nofun, by simp [Writer.line, Writer.raw, Row.text]⟩

/-- What is appended to the row written last ends this row. -/
theorem extendLast (h : Fills keeps step) {suffix : String} (hsuffix : '\n' ∉ suffix.toList)
    (hlast : endsVisibly suffix.toList = true) :
    Fills keeps fun w => (step w).extendLast suffix := by
  intro w
  obtain ⟨rows, hne, htidy, htext⟩ := h w
  obtain ⟨front, row, rfl, htidy'⟩ := htidy.exists_extend hne hsuffix hlast
  refine ⟨_, by simp, htidy', ?_⟩
  have hend : (step w).text.toList =
      (w.text.toList ++ textOfRows front ++ row.text) ++ ['\n'] := by
    simp [htext]
  simp only [Writer.extendLast, hend]
  rw [if_pos (by simp)]
  simp [Row.text_extend]

/-- How deep a step is in its container does not matter. -/
theorem within (h : Fills keeps step) : Fills keeps fun w => (step w.deeper).shallower :=
  fun w => h w.deeper

theorem deeper (h : Fills keeps step) : Fills keeps fun w => (step w).deeper :=
  h

theorem shallower (h : Fills keeps step) : Fills keeps fun w => (step w).shallower :=
  h

end Fills

/-! ### Blocks -/

namespace Block

/-- A line of a block is clean if it does not end in white space, or if it is kept. -/
def Line.Clean (keeps : List Char → Prop) : Line → Prop
  | code _ _ text => '\n' ∉ text.toList ∧ '\t' ∉ lead text.toList ∧
      (endsVisibly text.toList = true ∨ ∃ piece, keeps piece ∧ piece <:+: text.toList)
  | literal text => '\n' ∉ text.toList ∧ ∃ piece, keeps piece ∧ piece <:+: text.toList
  | blank => True

/-- A block whose lines are clean and in which an empty line stands only between others. -/
structure Neat (keeps : List Char → Prop) (block : Block) : Prop where
  clean : ∀ line ∈ block.lines, line.Clean keeps
  spaced : Spaced .blank block.lines

theorem Line.Clean.mono {keeps keeps' : List Char → Prop} {line : Line} (h : line.Clean keeps)
    (hkeeps : ∀ piece, keeps piece → keeps' piece) : line.Clean keeps' := by
  cases line with
  | blank => trivial
  | literal text =>
    obtain ⟨hline, piece, hpiece, hinfix⟩ := h
    exact ⟨hline, piece, hkeeps _ hpiece, hinfix⟩
  | code depth offset text =>
    obtain ⟨hline, htab, hlast⟩ := h
    exact ⟨hline, htab, hlast.imp_right fun ⟨piece, hpiece, hinfix⟩ =>
      ⟨piece, hkeeps _ hpiece, hinfix⟩⟩

theorem Neat.mono {keeps keeps' : List Char → Prop} {block : Block} (h : block.Neat keeps)
    (hkeeps : ∀ piece, keeps piece → keeps' piece) : block.Neat keeps' :=
  ⟨fun line hline => (h.clean line hline).mono hkeeps, h.spaced⟩

/-- The row that a writer makes of a line. -/
def Line.row (w : Writer) : Line → Row
  | code depth offset text =>
    if endsVisibly text.toList then .plain ((code depth offset text).margin w ++ text.toList)
    else .kept ((code depth offset text).margin w ++ text.toList)
  | literal text => .kept text.toList
  | blank => .blank

theorem Line.text_row (w : Writer) (line : Line) :
    (line.row w).text = line.margin w ++ line.chars := by
  cases line with
  | code depth offset text =>
    simp only [row]
    split <;> rfl
  | literal text => rfl
  | blank => rfl

theorem Line.row_eq_blank_iff (w : Writer) (line : Line) : line.row w = .blank ↔ line = .blank := by
  cases line with
  | code depth offset text =>
    simp only [row]
    split <;> simp
  | literal text => simp [row]
  | blank => simp [row]

variable {keeps : List Char → Prop} {block : Block}

theorem Line.Clean.row {line : Line} (h : line.Clean keeps) (w : Writer) :
    (line.row w).Clean keeps := by
  cases line with
  | blank => trivial
  | literal text => exact h
  | code depth offset text =>
    obtain ⟨hline, htab, hlast⟩ := h
    have hmargin := newline_not_mem_margin w (.code depth offset text)
    simp only [Line.row]
    split
    · rename_i hvisible
      refine ⟨by simp [hmargin, hline], ?_, endsVisibly_append _ hvisible⟩
      refine tab_not_mem_lead_append ?_ htab
      exact tab_not_mem_lead_append (tab_not_mem_lead_spaces _) (tab_not_mem_lead_spaces _)
    · rename_i hnot
      obtain ⟨piece, hpiece, hinfix⟩ := hlast.resolve_left hnot
      exact ⟨by simp [hmargin, hline], piece, hpiece,
        hinfix.trans (List.suffix_append _ _).isInfix⟩

theorem textOfRows_row (w : Writer) (lines : List Line) :
    textOfRows (lines.map (·.row w)) = written w lines := by
  simp [textOfRows, written, List.flatMap_map, Line.text_row]

/-- A neat block is rendered to tidy rows. -/
theorem Neat.tidy (h : block.Neat keeps) (w : Writer) :
    Tidy keeps (block.lines.map (·.row w)) where
  clean := by
    intro row hrow
    obtain ⟨line, hline, rfl⟩ := List.mem_map.1 hrow
    exact (h.clean line hline).row w
  spaced := h.spaced.map (Line.row_eq_blank_iff w)

theorem Neat.fills_render (h : block.Neat keeps) (hne : block.isEmpty = false) :
    Fills keeps block.render := by
  intro w
  refine ⟨_, ?_, h.tidy w, by rw [toList_text_render, textOfRows_row]⟩
  simpa [isEmpty] using hne

/-- A head with a suffix behind it; without a head the suffix has a row of its own. -/
theorem Neat.fills_renderOpen (h : block.Neat keeps) {suffix : String}
    (hsuffix : '\n' ∉ suffix.toList) (hlast : endsVisibly suffix.toList = true)
    (halone : Fills keeps (·.line (String.ofList (trimStart suffix.toList)))) :
    Fills keeps (block.renderOpen suffix) := by
  intro w
  cases hempty : block.isEmpty with
  | true => simpa only [renderOpen, hempty, if_true] using halone w
  | false =>
    have hopen := (h.fills_render hempty).extendLast hsuffix hlast
    simpa only [renderOpen, hempty, Bool.false_eq_true, if_false] using hopen w

/-! ### Blocks that are read from source -/

/-- The second list of lines is the first one without some of its blank lines. -/
inductive DropsBlanks : List Line → List Line → Prop where
  | nil : DropsBlanks [] []
  | keep {lines kept : List Line} (line : Line) (rest : DropsBlanks lines kept) :
      DropsBlanks (line :: lines) (line :: kept)
  | drop {lines kept : List Line} (rest : DropsBlanks lines kept) : DropsBlanks (.blank :: lines) kept

theorem DropsBlanks.sublist {lines kept : List Line} (h : DropsBlanks lines kept) : kept.Sublist lines := by
  induction h with
  | nil => exact .slnil
  | keep line _ ih => exact ih.cons_cons line
  | drop _ ih => exact ih.cons .blank

theorem DropsBlanks.mem {lines kept : List Line} (h : DropsBlanks lines kept) {line : Line}
    (hline : line ∈ lines) (hne : line ≠ .blank) : line ∈ kept := by
  induction h with
  | nil => exact hline
  | keep other _ ih =>
    rcases List.mem_cons.1 hline with rfl | hline
    · exact List.mem_cons_self
    · exact List.mem_cons_of_mem _ (ih hline)
  | drop _ ih => exact ih ((List.mem_cons.1 hline).resolve_left hne)

theorem dropsBlanks_collapse (lines : List Line) : DropsBlanks lines (collapse lines) := by
  induction lines with
  | nil => exact .nil
  | cons line lines ih =>
    by_cases hblank : line = .blank
    · subst hblank
      rw [collapse_blank_cons]
      split
      · exact .drop ih
      · exact .keep _ ih
    · rw [collapse_cons hblank]
      exact .keep _ ih

theorem dropsBlanks_squeeze (lines : List Line) : DropsBlanks lines (squeeze lines) := by
  unfold squeeze
  induction lines with
  | nil => exact .nil
  | cons line lines ih =>
    by_cases hblank : line = .blank
    · subst hblank
      exact .drop ih
    · rw [List.dropWhile_cons_of_neg (by simpa using hblank)]
      exact dropsBlanks_collapse _

/-- Collapsed lines do not end with an empty one and have no two of them in a row; they begin with an
empty one only if the lines do. -/
theorem spaced_collapse {lines : List Line} (h : lines.head? ≠ some .blank) :
    Spaced .blank (collapse lines) := by
  have hall : (collapse lines).getLast? ≠ some .blank ∧
      (collapse lines).IsChain (fun a b => a = .blank → b ≠ .blank) ∧
      ((collapse lines).head? = some .blank → lines.head? = some .blank) := by
    clear h
    induction lines with
    | nil => exact ⟨nofun, .nil, nofun⟩
    | cons first lines ih =>
      obtain ⟨hlast, hsingle, -⟩ := ih
      -- One more line in front leaves the last one as it is, unless there is none.
      have hcons (line : Line) (hne : collapse lines = [] → line ≠ .blank) :
          (line :: collapse lines).getLast? ≠ some .blank := by
        cases hcollapse : (collapse lines).getLast? with
        | none =>
          rw [List.getLast?_eq_none_iff] at hcollapse
          simpa [hcollapse] using hne hcollapse
        | some last =>
          rw [hcollapse] at hlast
          simpa [List.getLast?_cons, hcollapse] using hlast
      by_cases hblank : first = .blank
      · subst hblank
        rw [collapse_blank_cons]
        split
        · exact ⟨hlast, hsingle, fun _ => rfl⟩
        · rename_i hfirst
          obtain ⟨hne, hfirst⟩ := not_or.1 hfirst
          exact ⟨hcons _ fun hnil => absurd hnil hne,
            hsingle.cons fun line hline _ heq => hfirst (heq ▸ hline), fun _ => rfl⟩
      · rw [collapse_cons hblank]
        exact ⟨hcons _ fun _ => hblank, hsingle.cons fun _ _ heq => absurd heq hblank, id⟩
  exact ⟨fun hfirst => h (hall.2.2 hfirst), hall.1, hall.2.1⟩

theorem spaced_squeeze (lines : List Line) : Spaced .blank (squeeze lines) := by
  refine spaced_collapse fun hhead => ?_
  have hnot := List.head?_dropWhile_not (· == Line.blank) lines
  rw [hhead] at hnot
  cases hnot

/-- Only blank lines are lost. -/
theorem mem_squeeze {line : Line} {lines : List Line} (h : line ∈ lines) (hne : line ≠ .blank) :
    line ∈ squeeze lines :=
  (dropsBlanks_squeeze lines).mem h hne

theorem mem_of_mem_squeeze {line : Line} {lines : List Line} (h : line ∈ squeeze lines) :
    line ∈ lines :=
  (dropsBlanks_squeeze lines).sublist.mem h

end Block

/-- A piece of a row of the source that begins or ends inside a template literal. -/
def TouchesLiteral (source : List Char) (literals : List Span) (piece : List Char) : Prop :=
  ∃ start line, line <+: source.drop start ∧ piece <:+ line ∧
    (inside literals start = true ∨ inside literals (start + line.length) = true)

theorem dropReturn_prefix (line : List Char) : dropReturn line <+: line := by
  obtain ⟨w, hline, -⟩ := exists_dropReturn line
  exact ⟨w, hline.symm⟩

/-- A line that is measured is clean, or kept because it begins or ends in a literal. -/
theorem clean_place_measureLine {source : List Char} {literals : List Span} {start : Nat}
    {line : List Char} (h : line <+: source.drop start) (hline : '\n' ∉ line) (base : Option Nat)
    {startsInside : Bool} (hinside : startsInside = true → inside literals start = true)
    (common unit : Nat) :
    ((measureLine literals base startsInside start line).place common unit).Clean
      (TouchesLiteral source literals) := by
  have hdrop := dropReturn_prefix line
  have hfront := hdrop.trans h
  have hfeed : '\n' ∉ dropReturn line := fun hmem => hline (hdrop.subset hmem)
  have hmeasures := measures_measureLine literals base startsInside start line
  generalize measureLine literals base startsInside start line = measured at hmeasures
  cases hmeasures with
  | blank outside white => trivial
  | literal within =>
    refine ⟨by simpa using hfeed, dropReturn line, ?_, by simp⟩
    exact ⟨start, dropReturn line, hfront, List.suffix_refl _, .inl (hinside within)⟩
  | @code text trimmed outside line_eq ne_nil lead_eq white ends =>
    have htext : '\n' ∉ text := fun hmem => hfeed (line_eq ▸ by simp [hmem])
    refine ⟨by simpa using htext, by simp [lead_eq], ?_⟩
    rw [String.toList_ofList]
    rcases ends with ⟨htrim, -⟩ | ⟨rfl, hend⟩
    · exact .inl (htrim ▸ endsVisibly_trimEnd (by rwa [htrim]))
    · rw [List.append_nil] at line_eq
      exact .inr ⟨text, ⟨start, dropReturn line, hfront, ⟨_, line_eq.symm⟩, .inr hend⟩,
        List.infix_refl text⟩

/-- The block of a stretch of source is neat. -/
theorem neat_ofRange (source : List Char) (range : Span) (literals : List Span) (unit : Nat) :
    (Block.ofRange source range literals unit).Neat (TouchesLiteral source literals) where
  clean := by
    intro line hline
    obtain ⟨measured, hmeasured, rfl⟩ := List.mem_map.1 (Block.mem_of_mem_squeeze hline)
    obtain ⟨other, hother, rfl⟩ := mem_measure_iff.1 hmeasured
    obtain ⟨hfront, hfeed⟩ := of_mem_linesWithin hother
    exact clean_place_measureLine hfront hfeed _ (fun h => (Bool.and_eq_true_iff.1 h).2) _ _
  spaced := Block.spaced_squeeze _

/-- The block of a text that stands for itself is neat, and nothing in it is kept. -/
theorem neat_ofText {keeps : List Char → Prop} (text : String) : (Block.ofText text).Neat keeps := by
  have hblock : (Block.ofText text).Neat (TouchesLiteral text.toList []) := neat_ofRange ..
  refine hblock.mono fun piece hpiece => ?_
  obtain ⟨start, line, -, -, hinside | hinside⟩ := hpiece
  · cases hinside
  · cases hinside

end CodeSplice.Layout
