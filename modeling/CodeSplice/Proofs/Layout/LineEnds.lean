/-
Module: CodeSplice.Proofs.Layout.LineEnds
Purpose: A text with carriage returns in front of its line feeds. Its positions are shifted, and its
  lines are the same but for the carriage return at their ends. So the same blocks are read from it,
  with the same indentation unit.
Main exports: withReturns, Span.shifted, unitOf_withReturns, Block.ofRange_withReturns,
  Block.ofText_withReturns
-/
import CodeSplice.Proofs.Layout.Measure
import Mathlib.Data.List.Forall2
import Mathlib.Data.List.Induction
import Mathlib.Order.Monotone.Basic

namespace CodeSplice.Layout

open Text

variable {cs : List Char} {literals : List Span}

/-- A text with a carriage return in front of every line feed. -/
def withReturns : List Char → List Char
  | [] => []
  | c :: cs => if c == '\n' then '\r' :: '\n' :: withReturns cs else c :: withReturns cs

/-- Where a position of a text is in the text with carriage returns. -/
def shifted (cs : List Char) (position : Nat) : Nat :=
  position + (cs.take position).count '\n'

/-- Where a stretch of a text is in the text with carriage returns. -/
def Span.shifted (cs : List Char) (span : Span) : Span :=
  ⟨Layout.shifted cs span.start, Layout.shifted cs span.stop⟩

@[simp] theorem Span.start_shifted (cs : List Char) (span : Span) :
    (span.shifted cs).start = Layout.shifted cs span.start := rfl

@[simp] theorem Span.stop_shifted (cs : List Char) (span : Span) :
    (span.shifted cs).stop = Layout.shifted cs span.stop := rfl

/-! ### Texts -/

@[simp] theorem withReturns_nil : withReturns [] = [] := rfl

theorem withReturns_cons_of_ne {c : Char} (h : c ≠ '\n') (cs : List Char) :
    withReturns (c :: cs) = c :: withReturns cs := by
  simp [withReturns, h]

theorem withReturns_append (front back : List Char) :
    withReturns (front ++ back) = withReturns front ++ withReturns back := by
  induction front with
  | nil => rfl
  | cons c front ih =>
    simp only [List.cons_append, withReturns, ih]
    split <;> simp

theorem length_withReturns (cs : List Char) :
    (withReturns cs).length = cs.length + cs.count '\n' := by
  induction cs with
  | nil => rfl
  | cons c cs ih =>
    simp only [withReturns]
    split
    · rename_i hc
      obtain rfl : c = '\n' := by simpa using hc
      simp [ih]
      omega
    · rename_i hc
      have hc : ¬c = '\n' := by simpa using hc
      simp [ih, hc]
      omega

/-- The text behind a position is shifted by itself. -/
theorem shifted_add (cs : List Char) (position count : Nat) :
    shifted cs (position + count) = shifted cs position + shifted (cs.drop position) count := by
  simp only [shifted, List.take_add, List.count_append]
  omega

theorem shifted_sub (cs : List Char) (start stop : Nat) :
    shifted cs stop - shifted cs start = shifted (cs.drop start) (stop - start) := by
  rcases Nat.le_total start stop with hle | hle
  · obtain ⟨count, rfl⟩ := Nat.exists_eq_add_of_le hle
    rw [shifted_add, Nat.add_sub_cancel_left, Nat.add_sub_cancel_left]
  · obtain ⟨count, rfl⟩ := Nat.exists_eq_add_of_le hle
    rw [shifted_add, Nat.sub_eq_zero_of_le (by omega), Nat.sub_eq_zero_of_le (by omega)]
    rfl

/-- Positions keep their order. -/
theorem shifted_strictMono (cs : List Char) : StrictMono (shifted cs) := by
  refine strictMono_nat_of_lt_succ fun position => ?_
  have hpos : 0 < shifted (cs.drop position) 1 := Nat.le_add_right 1 _
  rw [shifted_add]
  exact Nat.lt_add_of_pos_right hpos

theorem inside_shifted (literals : List Span) (position : Nat) :
    inside (literals.map (·.shifted cs)) (shifted cs position) = inside literals position := by
  simp [inside, List.any_map, Function.comp_def, Span.interior, (shifted_strictMono cs).lt_iff_lt]

theorem withReturns_eq_append (cs : List Char) (position : Nat) :
    withReturns cs = withReturns (cs.take position) ++ withReturns (cs.drop position) := by
  rw [← withReturns_append, List.take_append_drop]

theorem take_withReturns (cs : List Char) (position : Nat) :
    (withReturns cs).take (shifted cs position) = withReturns (cs.take position) := by
  rcases Nat.le_total position cs.length with hle | hle
  · have hlength : (withReturns (cs.take position)).length = shifted cs position := by
      rw [length_withReturns, List.length_take_of_le hle, shifted]
    rw [withReturns_eq_append cs position, List.take_left' hlength]
  · -- Behind the end of the text there is nothing to shift.
    have hlength : (withReturns cs).length ≤ shifted cs position := by
      rw [length_withReturns, shifted, List.take_of_length_le hle]
      omega
    rw [List.take_of_length_le hle, List.take_of_length_le hlength]

theorem drop_withReturns (cs : List Char) (position : Nat) :
    (withReturns cs).drop (shifted cs position) = withReturns (cs.drop position) := by
  have happend := withReturns_eq_append cs position
  rw [← List.take_append_drop (shifted cs position) (withReturns cs), take_withReturns] at happend
  exact List.append_cancel_left happend

/-- A stretch of the text with carriage returns. -/
theorem slice_withReturns (cs : List Char) (start stop : Nat) :
    slice (withReturns cs) (shifted cs start) (shifted cs stop) =
      withReturns (slice cs start stop) := by
  rw [slice, slice, drop_withReturns, shifted_sub, take_withReturns]

/-- On the line of a position, the same stands in front of it. -/
theorem before_withReturns (cs : List Char) (position : Nat) :
    before (withReturns cs) (shifted cs position) = before cs position := by
  unfold before
  rw [take_withReturns]
  congr 1
  induction cs.take position using List.reverseRecOn with
  | nil => rfl
  | append_singleton front c ih =>
    rw [withReturns_append]
    by_cases hc : c = '\n'
    · simp [hc, withReturns]
    · simp [withReturns, hc, ih]

/-! ### Lines -/

/-- Lines with a carriage return at the end of each but the last one. -/
def returned : List (List Char) → List (List Char)
  | [] => []
  | [line] => [line]
  | line :: lines => (line ++ ['\r']) :: returned lines

theorem returned_cons {line : List Char} {lines : List (List Char)} (h : lines ≠ []) :
    returned (line :: lines) = (line ++ ['\r']) :: returned lines := by
  cases lines with
  | nil => contradiction
  | cons next lines => rfl

theorem splitLines_withReturns (cs : List Char) :
    splitLines (withReturns cs) = returned (splitLines cs) := by
  induction cs with
  | nil => rfl
  | cons c cs ih =>
    by_cases hc : c = '\n'
    · subst hc
      simp only [withReturns, splitLines, beq_self_eq_true, if_true, ih]
      rw [returned_cons (splitLines_ne_nil cs)]
      rfl
    · obtain ⟨line, lines, hlines, hcons⟩ := @splitLines_cons c cs hc
      obtain ⟨line', lines', hlines', hcons'⟩ := @splitLines_cons c (withReturns cs) hc
      rw [withReturns_cons_of_ne hc, hcons, hcons']
      rw [ih, hlines] at hlines'
      cases lines with
      | nil => simp_all [returned]
      | cons next lines => simp_all [returned]

/-- A line of the text `cs` and the same line where carriage returns end the lines, each with the
position at which it starts. -/
structure SameLine (cs : List Char) (line' line : Nat × List Char) : Prop where
  start_eq : line'.1 = shifted cs line.1
  stop_eq : shifted cs (line.1 + line.2.length) = shifted cs line.1 + line.2.length
  text_eq : line'.2 = line.2 ∨ line'.2 = line.2 ++ ['\r']
  return_not_mem : '\r' ∉ line.2

theorem sameLine_withStarts {position : Nat} {lines : List (List Char)}
    (hfront : joinLines lines <+: cs.drop position) (hfeed : ∀ line ∈ lines, '\n' ∉ line)
    (hreturn : ∀ line ∈ lines, '\r' ∉ line) :
    List.Forall₂ (SameLine cs) (withStarts (shifted cs position) (returned lines))
      (withStarts position lines) := by
  induction lines generalizing position with
  | nil => exact .nil
  | cons line lines ih =>
    have hline : line <+: cs.drop position := by
      rw [joinLines_cons] at hfront
      exact (List.prefix_append _ _).trans hfront
    have hfirst : shifted (cs.drop position) line.length = line.length := by
      rw [shifted, ← List.prefix_iff_eq_take.1 hline, List.count_eq_zero.2 (hfeed line (by simp))]
      rfl
    have hstop : shifted cs (position + line.length) = shifted cs position + line.length := by
      rw [shifted_add, hfirst]
    have hsame : ∀ line', line' = line ∨ line' = line ++ ['\r'] →
        SameLine cs (shifted cs position, line') (position, line) :=
      fun line' htext => ⟨rfl, hstop, htext, hreturn line (by simp)⟩
    cases lines with
    | nil => exact .cons (hsame line (.inl rfl)) .nil
    | cons next lines =>
      obtain ⟨behind, hbehind⟩ := hfront
      have hdrop : cs.drop (position + line.length) =
          '\n' :: (joinLines (next :: lines) ++ behind) := by
        rw [← List.drop_drop, ← hbehind, joinLines_cons]
        simp
      have hnext : shifted cs (position + line.length + 1) =
          shifted cs position + (line ++ ['\r']).length + 1 := by
        rw [shifted_add, hstop, hdrop]
        simp [shifted]
        omega
      rw [returned_cons (by simp)]
      refine .cons (hsame _ (.inr rfl)) ?_
      rw [← hnext]
      refine ih ?_ (fun other hother => hfeed other (by simp [hother]))
        (fun other hother => hreturn other (by simp [hother]))
      rw [← List.drop_drop, hdrop]
      exact List.prefix_append _ _

theorem mem_joinLines {c : Char} {line : List Char} {lines : List (List Char)}
    (hline : line ∈ lines) (hc : c ∈ line) : c ∈ joinLines lines := by
  induction lines with
  | nil => contradiction
  | cons first lines ih =>
    rw [joinLines_cons, List.mem_append]
    rcases List.mem_cons.1 hline with rfl | hline
    · exact .inl hc
    · rw [if_neg (List.ne_nil_of_mem hline)]
      exact .inr (List.mem_cons_of_mem _ (ih hline))

/-- The lines of a stretch of the text. -/
theorem sameLine_slice (h : '\r' ∉ cs) (start stop : Nat) :
    List.Forall₂ (SameLine cs)
      (splitLinesFrom (shifted cs start)
        (slice (withReturns cs) (shifted cs start) (shifted cs stop)))
      (splitLinesFrom start (slice cs start stop)) := by
  have hjoin := joinLines_splitLines (slice cs start stop)
  have hslice : slice cs start stop <+: cs.drop start := List.take_prefix _ _
  rw [slice_withReturns, splitLinesFrom, splitLinesFrom, splitLines_withReturns]
  refine sameLine_withStarts (by rwa [hjoin]) (fun line => not_mem_of_mem_splitLines) ?_
  intro line hline hmem
  have hslice_mem : '\r' ∈ slice cs start stop := by
    rw [← hjoin]
    exact mem_joinLines hline hmem
  exact h (List.mem_of_mem_drop (hslice.subset hslice_mem))

theorem dropReturn_of_not_mem {line : List Char} (h : '\r' ∉ line) : dropReturn line = line := by
  have hlast : line.getLast? ≠ some '\r' := fun hlast => h (List.mem_of_getLast? hlast)
  rw [dropReturn, if_neg (by simpa using hlast)]

theorem lead_append_return (line : List Char) : lead (line ++ ['\r']) = lead line := by
  induction line with
  | nil => rfl
  | cons c line ih =>
    rw [lead] at ih
    simp only [lead, List.cons_append, List.takeWhile_cons, ih]

/-- Behind a line with something on it, a carriage return stays at its end. -/
theorem body_append_return {line : List Char} (h : body line ≠ []) :
    body (line ++ ['\r']) = body line ++ ['\r'] := by
  rw [body, List.dropWhile_append, if_neg (by simpa [body] using h)]
  rfl

namespace SameLine

variable {line' line : Nat × List Char}

/-- A line is measured alike. -/
theorem measureLine_eq (h : SameLine cs line' line) (literals : List Span) (base : Option Nat)
    (startsInside : Bool) :
    measureLine (literals.map (·.shifted cs)) base startsInside line'.1 line'.2 =
      measureLine literals base startsInside line.1 line.2 := by
  have hline' : dropReturn line'.2 = line.2 := by
    rcases h.text_eq with htext | htext
    · rw [htext, dropReturn_of_not_mem h.return_not_mem]
    · simp [htext, dropReturn]
  simp only [measureLine, hline', dropReturn_of_not_mem h.return_not_mem, h.start_eq, ← h.stop_eq,
    inside_shifted]

theorem lead_eq (h : SameLine cs line' line) : lead line'.2 = lead line.2 := by
  rcases h.text_eq with htext | htext
  · rw [htext]
  · rw [htext, lead_append_return]

/-- A line counts for the indentation unit alike. -/
theorem counted_eq (h : SameLine cs line' line) (literals : List Span) :
    counted (literals.map (·.shifted cs)) line' = counted literals line := by
  simp only [counted, h.start_eq, inside_shifted]
  rcases h.text_eq with htext | htext
  · rw [htext]
  · by_cases hbody : body line.2 = []
    · have hlead : lead line.2 = line.2 := by
        have happend := lead_append_body line.2
        rwa [hbody, List.append_nil] at happend
      have hblank : ∀ c ∈ line.2, isBlank c = true := by
        rw [← hlead]
        exact List.all_eq_true.1 List.all_takeWhile
      have hbody' : body line'.2 = ['\r'] := by
        rw [htext, body, List.dropWhile_append_of_pos hblank]
        rfl
      rw [hbody, hbody', show trimEnd ['\r'] = trimEnd [] by decide]
      rfl
    · rw [htext, body_append_return hbody, trimEnd_append_white (show White ['\r'] by simp [isSpace]),
        List.head?_append_of_ne_nil _ hbody]

end SameLine

/-! ### Blocks -/

/-- The indentation unit does not depend on how lines end. -/
theorem unitOf_withReturns (h : '\r' ∉ cs) (literals : List Span) :
    unitOf (withReturns cs) (literals.map (·.shifted cs)) = unitOf cs literals := by
  have hlines : List.Forall₂ (SameLine cs) (splitLinesFrom 0 (withReturns cs))
      (splitLinesFrom 0 cs) := by
    have hall := sameLine_slice h 0 cs.length
    rw [slice_withReturns] at hall
    simpa [slice, shifted] using hall
  have hcolumns : ((splitLinesFrom 0 (withReturns cs)).filter
        (counted (literals.map (·.shifted cs)))).map (fun line => columns (lead line.2)) =
      ((splitLinesFrom 0 cs).filter (counted literals)).map fun line => columns (lead line.2) := by
    generalize splitLinesFrom 0 (withReturns cs) = lines' at hlines ⊢
    generalize splitLinesFrom 0 cs = lines at hlines ⊢
    induction hlines with
    | nil => rfl
    | cons hline _ ih =>
      rw [List.filter_cons, List.filter_cons, hline.counted_eq]
      split <;> simp [ih, hline.lead_eq]
  rw [unitOf, unitOf, hcolumns]

/-- A stretch is measured alike however lines end. -/
theorem measure_withReturns (h : '\r' ∉ cs) (range : Span) (literals : List Span) :
    measure (withReturns cs) (range.shifted cs) (literals.map (·.shifted cs)) =
      measure cs range literals := by
  have hlines := sameLine_slice h range.start range.stop
  have hcolumns : columnsBefore (withReturns cs) (shifted cs range.start) =
      columnsBefore cs range.start := by
    rw [columnsBefore, columnsBefore, before_withReturns]
  simp only [measure, Span.start_shifted, Span.stop_shifted, hcolumns]
  generalize splitLinesFrom (shifted cs range.start) _ = lines' at hlines ⊢
  generalize splitLinesFrom range.start _ = lines at hlines ⊢
  cases hlines with
  | nil => rfl
  | cons hfirst hrest =>
    simp only [hfirst.measureLine_eq, List.cons.injEq, true_and]
    induction hrest with
    | nil => rfl
    | cons hline _ ih =>
      rw [List.map_cons, List.map_cons, hline.measureLine_eq, hline.start_eq, inside_shifted, ih]

/-- The block of a stretch does not depend on how lines end. -/
theorem Block.ofRange_withReturns (h : '\r' ∉ cs) (range : Span) (literals : List Span)
    (unit : Nat) :
    Block.ofRange (withReturns cs) (range.shifted cs) (literals.map (·.shifted cs)) unit =
      Block.ofRange cs range literals unit := by
  rw [Block.ofRange, Block.ofRange, measure_withReturns h]

/-- The block of a text that stands for itself does not depend on how its lines end. -/
theorem Block.ofText_withReturns {text : String} (h : '\r' ∉ text.toList) :
    Block.ofText (String.ofList (withReturns text.toList)) = Block.ofText text := by
  have hrange : (⟨0, (withReturns text.toList).length⟩ : Span) =
      Span.shifted text.toList ⟨0, text.toList.length⟩ := by
    simp [Span.shifted, shifted, length_withReturns]
  have hunit := unitOf_withReturns h []
  have hblock := Block.ofRange_withReturns h ⟨0, text.toList.length⟩ []
    (unitOf text.toList [])
  rw [List.map_nil] at hunit hblock
  simp only [Block.ofText, String.toList_ofList, hrange, hunit, hblock]

end CodeSplice.Layout
