/-
Module: CodeSplice.Proofs.Layout.Seam
Purpose: What the steps of a writer have to do with the text that stands above them. A step appends to
  it, and looks at it at most to append to its last row. So if one of two writers has written some rows
  more at a seam, it has them at that seam behind further steps as well, and nothing else differs.
Main exports: Closed, Local, Local.comp, Local.within, Block.local_render, Block.local_renderOpen,
  Wedged, Local.wedged, Local.wedged_self, finishedLines, GainsLines, Wedged.gainsLines
-/
import CodeSplice.Proofs.Layout.Measure
import CodeSplice.Proofs.Text.Said

namespace CodeSplice.Layout

open Text

/-- A text that ends with a row which is finished. -/
def Closed (text : String) : Prop :=
  text.toList.getLast? = some '\n'

theorem closed_iff {text : String} : Closed text ↔ ∃ front, text = front ++ "\n" := by
  rw [Closed, List.getLast?_eq_some_iff]
  constructor
  · rintro ⟨front, hfront⟩
    exact ⟨String.ofList front, String.ext (by simpa using hfront)⟩
  · rintro ⟨front, rfl⟩
    exact ⟨front.toList, by simp⟩

theorem closed_append_newline (front : String) : Closed (front ++ "\n") :=
  closed_iff.2 ⟨front, rfl⟩

theorem closed_append {back : String} (h : Closed back) (front : String) :
    Closed (front ++ back) := by
  obtain ⟨text, rfl⟩ := closed_iff.1 h
  rw [← String.append_assoc]
  exact closed_append_newline _

namespace Writer

/-- A writer with more text above what it has written. -/
def behind (w : Writer) (front : String) : Writer :=
  { w with text := front ++ w.text }

/-- A writer at the same level that has not written anything. -/
def fresh (w : Writer) : Writer :=
  { w with text := "" }

@[simp] theorem level_behind (w : Writer) (front : String) : (w.behind front).level = w.level := rfl

@[simp] theorem text_behind (w : Writer) (front : String) :
    (w.behind front).text = front ++ w.text := rfl

@[simp] theorem fresh_fresh (w : Writer) : w.fresh.fresh = w.fresh := rfl

@[simp] theorem fresh_blank (w : Writer) : w.blank.fresh = w.fresh := rfl

/-- A writer is one that starts anew below what the writer has written. -/
@[simp] theorem behind_fresh (w : Writer) : w.fresh.behind w.text = w := by
  simp [behind, fresh]

theorem behind_behind (w : Writer) (front above : String) :
    (w.behind front).behind above = w.behind (above ++ front) := by
  simp [behind, String.append_assoc]

theorem raw_behind (w : Writer) (front s : String) :
    (w.behind front).raw s = (w.raw s).behind front := by
  simp [behind, raw, String.append_assoc]

theorem extendLast_eq {w : Writer} {text : String} (h : w.text = text ++ "\n") (suffix : String) :
    w.extendLast suffix = { w with text := text ++ suffix ++ "\n" } := by
  have hclosed : w.text.toList.getLast? = some '\n' := h ▸ closed_append_newline text
  rw [extendLast, if_pos hclosed, h]
  simp

end Writer

/-! ### Local steps -/

/-- A step that writes the same whatever stands above a text with the property `p`, and makes of this
text one with the property `q`. The level and the indentation stay. -/
structure Local (p q : String → Prop) (step : Writer → Writer) : Prop where
  behind : ∀ w, p w.text → ∀ front, step (w.behind front) = (step w).behind front
  reaches : ∀ w, p w.text → q (step w).text
  fresh_eq : ∀ w, (step w).fresh = w.fresh

namespace Local

variable {p q r : String → Prop} {step next : Writer → Writer}

theorem id : Local p p fun w => w :=
  ⟨fun _ _ _ => rfl, fun _ h => h, fun _ => rfl⟩

theorem comp (h : Local p q step) (h' : Local q r next) : Local p r fun w => next (step w) where
  behind w hw front := by rw [h.behind w hw, h'.behind _ (h.reaches w hw)]
  reaches w hw := h'.reaches _ (h.reaches w hw)
  fresh_eq w := (h'.fresh_eq _).trans (h.fresh_eq w)

theorem mono {p' q' : String → Prop} (h : Local p q step) (hp : ∀ text, p' text → p text)
    (hq : ∀ text, q text → q' text) : Local p' q' step :=
  ⟨fun w hw => h.behind w (hp _ hw), fun w hw => hq _ (h.reaches w (hp _ hw)), h.fresh_eq⟩

theorem foldl {α : Type} {steps : Writer → α → Writer} {as : List α}
    (h : ∀ a ∈ as, Local p p fun w => steps w a) : Local p p fun w => as.foldl steps w := by
  induction as with
  | nil => exact id
  | cons a as ih =>
    exact (h a List.mem_cons_self).comp (ih fun b hb => h b (List.mem_cons_of_mem a hb))

/-- A step at a deeper level. -/
theorem within (h : Local p q step) : Local p q fun w => (step w.deeper).shallower where
  behind w hw front := congrArg Writer.shallower (h.behind w.deeper hw front)
  reaches w hw := h.reaches w.deeper hw
  fresh_eq w := by
    have hfresh := congrArg Writer.shallower (h.fresh_eq w.deeper)
    exact hfresh.trans (by simp [Writer.fresh, Writer.deeper, Writer.shallower])

/-- A choice that is made by the level. -/
theorem ite (h : Local p q step) (h' : Local p q next) (choice : Nat → Bool) :
    Local p q fun w => if choice w.level then step w else next w where
  behind w hw front := by
    rw [Writer.level_behind]
    split
    · exact h.behind w hw front
    · exact h'.behind w hw front
  reaches w hw := by
    split
    · exact h.reaches w hw
    · exact h'.reaches w hw
  fresh_eq w := by
    split
    · exact h.fresh_eq w
    · exact h'.fresh_eq w

theorem raw (s : String) : Local p (fun _ => True) fun w => w.raw s :=
  ⟨fun w _ front => w.raw_behind front s, fun _ _ => trivial, fun _ => rfl⟩

/-- A row can be written below anything. What is in it may depend on the indentation. -/
theorem lineOf (s : Indent → String) : Local p Closed fun w => w.line (s w.indent) where
  behind w _ front := w.raw_behind front _
  reaches w _ := by
    rw [Writer.line, Writer.raw, ← String.append_assoc]
    exact closed_append_newline _
  fresh_eq _ := rfl

theorem line (s : String) : Local p Closed fun w => w.line s :=
  lineOf fun _ => s

theorem blank : Local p Closed Writer.blank :=
  ⟨fun w _ front => w.raw_behind front "\n", fun _ _ => closed_append_newline _, fun _ => rfl⟩

/-- Only to a row that is finished can more be appended without regard to what stands above it. -/
theorem extendLast (suffix : String) : Local Closed Closed fun w => w.extendLast suffix where
  behind w hw front := by
    obtain ⟨text, htext⟩ := closed_iff.1 hw
    have hbehind : (w.behind front).text = (front ++ text) ++ "\n" := by
      rw [Writer.text_behind, htext, String.append_assoc]
    rw [Writer.extendLast_eq htext, Writer.extendLast_eq hbehind]
    simp [Writer.behind, String.append_assoc]
  reaches w hw := by
    obtain ⟨text, htext⟩ := closed_iff.1 hw
    rw [Writer.extendLast_eq htext]
    exact closed_append_newline _
  fresh_eq w := by
    unfold Writer.extendLast
    split <;> rfl

/-- What a step that can be written below anything makes of a writer. -/
theorem eq_behind (h : Local (fun _ => True) q step) (w : Writer) :
    step w = w.fresh.behind (w.text ++ (step w.fresh).text) := by
  calc step w = step (w.fresh.behind w.text) := by rw [w.behind_fresh]
    _ = (step w.fresh).behind w.text := h.behind w.fresh trivial w.text
    _ = ((step w.fresh).fresh.behind (step w.fresh).text).behind w.text := by
      rw [Writer.behind_fresh]
    _ = w.fresh.behind (w.text ++ (step w.fresh).text) := by
      rw [h.fresh_eq, Writer.fresh_fresh, Writer.behind_behind]

end Local

/-! ### Blocks -/

namespace Block

variable {p : String → Prop}

theorem Line.local_render (line : Line) : Local p Closed line.render := by
  cases line with
  | code depth offset text =>
    exact .lineOf fun indent => spaces (depth * indent.width + offset) ++ text
  | literal text => exact (Local.raw text).comp .blank
  | blank => exact .blank

/-- A block may be empty, so that the text above it stays as it is. -/
theorem local_render (hp : ∀ text, Closed text → p text) (block : Block) :
    Local p p block.render :=
  .foldl fun line _ => line.local_render.mono (fun _ h => h) hp

/-- A block that is not empty can be written below anything. -/
theorem local_render_of_isEmpty {block : Block} (h : block.isEmpty = false) :
    Local p Closed block.render := by
  obtain ⟨_ | ⟨line, lines⟩⟩ := block
  · cases h
  · exact line.local_render.comp (local_render (fun _ h => h) ⟨lines⟩)

/-- A head with a suffix begins and ends a row of its own, even if the head is empty. -/
theorem local_renderOpen (block : Block) (suffix : String) :
    Local p Closed fun w => block.renderOpen suffix w := by
  cases hempty : block.isEmpty with
  | true =>
    simp only [renderOpen, hempty, if_true]
    exact .line _
  | false =>
    simp only [renderOpen, hempty, Bool.false_eq_true, if_false]
    exact (local_render_of_isEmpty hempty).comp (.extendLast suffix)

end Block

/-! ### A seam in written text -/

/-- A text as it is, or with an empty row at one of its ends. -/
def SetOff (text inserted : String) : Prop :=
  inserted = text ∨ inserted = "\n" ++ text ∨ inserted = text ++ "\n"

/-- Two writers that have written the same, except that the second one has some rows more at a seam: a
text and at most one empty row. What both have written below the seam has the property `p`. -/
def Wedged (p : String → Prop) (text : String) (w w' : Writer) : Prop :=
  ∃ (front inserted : String) (below : Writer), Closed front ∧ SetOff text inserted ∧
    p below.text ∧ w = below.behind front ∧ w' = below.behind (front ++ inserted)

variable {p q : String → Prop} {text : String} {w w' : Writer} {step : Writer → Writer}

/-- A step leaves the seam as it is, if it allows for the text below the seam. -/
theorem Local.wedged (hstep : Local p q step) (h : Wedged p text w w') :
    Wedged q text (step w) (step w') := by
  obtain ⟨front, inserted, below, hfront, hinserted, hbelow, rfl, rfl⟩ := h
  exact ⟨front, inserted, step below, hfront, hinserted, hstep.reaches below hbelow,
    hstep.behind below hbelow _, hstep.behind below hbelow _⟩

theorem Wedged.shallower (h : Wedged p text w w') : Wedged p text w.shallower w'.shallower := by
  obtain ⟨front, inserted, below, hfront, hinserted, hbelow, rfl, rfl⟩ := h
  exact ⟨front, inserted, below.shallower, hfront, hinserted, hbelow, rfl, rfl⟩

/-! A step that can be written below anything opens a seam: a writer that takes the step gains what the
step writes. An empty row may be written with it. -/

section

variable (hstep : Local (fun _ => True) q step) (hw : Closed w.text)
include hstep hw

theorem Local.wedged_self : Wedged (fun _ => True) (step w.fresh).text w (step w) :=
  ⟨w.text, _, w.fresh, hw, .inl rfl, trivial, w.behind_fresh.symm, hstep.eq_behind w⟩

theorem Local.wedged_below_blank : Wedged (fun _ => True) (step w.fresh).text w (step w.blank) := by
  refine ⟨w.text, _, w.fresh, hw, .inr (.inl rfl), trivial, w.behind_fresh.symm, ?_⟩
  rw [hstep.eq_behind, Writer.fresh_blank, ← String.append_assoc]
  rfl

theorem Local.wedged_above_blank : Wedged (fun _ => True) (step w.fresh).text w (step w).blank := by
  refine ⟨w.text, _, w.fresh, hw, .inr (.inr rfl), trivial, w.behind_fresh.symm, ?_⟩
  rw [hstep.eq_behind w, ← String.append_assoc]
  simp [Writer.blank, Writer.raw, Writer.behind, Writer.fresh]

end

/-! ### Lines at a seam -/

/-- The finished rows of a text: all its lines but what stands behind the last line feed. -/
def finishedLines (text : String) : List (List Char) :=
  (splitLines text.toList).dropLast

theorem finishedLines_append_newline (text : String) :
    finishedLines (text ++ "\n") = splitLines text.toList := by
  simp [finishedLines, splitLines_append_cons, splitLines]

/-- The lines of a text that begins with finished rows. -/
theorem splitLines_append_of_closed {front : String} (h : Closed front) (back : String) :
    splitLines (front ++ back).toList = finishedLines front ++ splitLines back.toList := by
  obtain ⟨text, rfl⟩ := closed_iff.1 h
  rw [finishedLines_append_newline]
  simp [splitLines_append_cons]

theorem finishedLines_append {front : String} (h : Closed front) (back : String) :
    finishedLines (front ++ back) = finishedLines front ++ finishedLines back := by
  unfold finishedLines
  rw [splitLines_append_of_closed h, List.dropLast_append_of_ne_nil (splitLines_ne_nil _)]
  rfl

theorem SetOff.closed {inserted : String} (h : SetOff text inserted) (htext : Closed text) :
    Closed inserted := by
  rcases h with rfl | rfl | rfl
  · exact htext
  · exact closed_append htext _
  · exact closed_append_newline _

theorem SetOff.finishedLines {inserted : String} (h : SetOff text inserted) (htext : Closed text) :
    finishedLines inserted = finishedLines text ∨
      finishedLines inserted = [] :: finishedLines text ∨
        finishedLines inserted = finishedLines text ++ [[]] := by
  rcases h with rfl | rfl | rfl
  · exact .inl rfl
  · exact .inr (.inl (finishedLines_append (closed_append_newline "") text))
  · exact .inr (.inr (finishedLines_append htext "\n"))

/-- The lines of one text are those of another one and, in one place, the finished rows of a third text
with at most one empty line. -/
def GainsLines (before after text : String) : Prop :=
  ∃ above new below, splitLines before.toList = above ++ below ∧
    splitLines after.toList = above ++ new ++ below ∧
    (new = finishedLines text ∨ new = [] :: finishedLines text ∨ new = finishedLines text ++ [[]])

/-- Rows that a writer has gained are lines between the lines of the other one. -/
theorem Wedged.gainsLines (h : Wedged p text w w') (htext : Closed text) :
    GainsLines w.text w'.text text := by
  obtain ⟨front, inserted, below, hfront, hinserted, -, rfl, rfl⟩ := h
  refine ⟨finishedLines front, finishedLines inserted, splitLines below.text.toList,
    splitLines_append_of_closed hfront _, ?_, hinserted.finishedLines htext⟩
  rw [Writer.text_behind, splitLines_append_of_closed (closed_append (hinserted.closed htext) front),
    finishedLines_append hfront]

end CodeSplice.Layout
