/-
Module: CodeSplice.Proofs.Layout.Literals
Purpose: Template literals keep their text when a block is laid out anew. What a line of a block leaves
  out of its line of source, or puts in its place, is white space that no literal reaches into; inside
  of literals only the carriage returns in front of line feeds are left out. So the literals of a
  stretch of source stand in what is written for it, one behind the other.
Main exports: withoutReturns, StandIn, Span.Solid, Spares, Spares.cut, Spares.standIn, spares_ofRange,
  Block.literals_standIn_render
-/
import CodeSplice.Proofs.Layout.Tidy
import Mathlib.Data.List.Forall2

namespace CodeSplice.Layout

open Text

/-! ### Texts -/

/-- A text without the carriage returns that stand in front of its line feeds. -/
def withoutReturns : List Char → List Char
  | [] => []
  | c :: cs => if c = '\r' ∧ cs.head? = some '\n' then withoutReturns cs else c :: withoutReturns cs

/-- The pieces stand in a text, one behind the other. -/
def StandIn : List (List Char) → List Char → Prop
  | [], _ => True
  | piece :: pieces, text => ∃ gap rest, text = gap ++ piece ++ rest ∧ StandIn pieces rest

theorem StandIn.append {pieces : List (List Char)} {text : List Char} (h : StandIn pieces text)
    (front : List Char) : StandIn pieces (front ++ text) := by
  cases pieces with
  | nil => trivial
  | cons piece pieces =>
    obtain ⟨gap, rest, rfl, hrest⟩ := h
    exact ⟨front ++ gap, rest, by simp, hrest⟩

/-! ### Spans -/

/-- Whether a span lies in a range. -/
def Span.liesIn (range span : Span) : Bool :=
  decide (range.start ≤ span.start) && decide (span.stop ≤ range.stop)

/-- One of two spans ends before the other begins. -/
def Span.Apart (first second : Span) : Prop :=
  first.stop ≤ second.start ∨ second.stop ≤ first.start

instance (first second : Span) : Decidable (first.Apart second) :=
  inferInstanceAs (Decidable (_ ∨ _))

theorem Span.Apart.symm {first second : Span} (h : first.Apart second) : second.Apart first :=
  Or.symm h

/-- A span of a text that begins and ends with something visible, as that of a template literal does
with its back quotes. -/
structure Span.Solid (text : List Char) (span : Span) : Prop where
  lt : span.start < span.stop
  first : ∃ c, text[span.start]? = some c ∧ isSpace c = false
  last : ∃ c, text[span.stop - 1]? = some c ∧ isSpace c = false

/-- A template literal, which stands between back quotes. -/
theorem Span.Solid.of_quoted {text : List Char} {span : Span} (hlt : span.start < span.stop)
    (hfirst : text[span.start]? = some '\x60') (hlast : text[span.stop - 1]? = some '\x60') :
    span.Solid text :=
  ⟨hlt, ⟨'\x60', hfirst, by decide⟩, ⟨'\x60', hlast, by decide⟩⟩

namespace Span.Solid

variable {text : List Char} {span : Span} (h : span.Solid text)
include h

theorem stop_le : span.stop ≤ text.length := by
  obtain ⟨c, hc, -⟩ := h.last
  have := (List.getElem?_eq_some_iff.1 hc).1
  omega

theorem length_slice : (slice text span.start span.stop).length = span.stop - span.start := by
  have := h.stop_le
  simp only [slice, List.length_take, List.length_drop]
  omega

theorem head?_slice : ∃ c, (slice text span.start span.stop).head? = some c ∧ isSpace c = false := by
  obtain ⟨c, hc, hvisible⟩ := h.first
  have := h.lt
  refine ⟨c, ?_, hvisible⟩
  rw [slice, List.head?_take, if_neg (by omega), List.head?_drop, hc]

theorem getLast?_slice :
    ∃ c, (slice text span.start span.stop).getLast? = some c ∧ isSpace c = false := by
  obtain ⟨c, hc, hvisible⟩ := h.last
  have := h.lt
  refine ⟨c, ?_, hvisible⟩
  rw [List.getLast?_eq_getElem?, h.length_slice, slice, List.getElem?_take_of_lt (by omega),
    List.getElem?_drop, show span.start + (span.stop - span.start - 1) = span.stop - 1 by omega, hc]

/-- White space that overlaps the span lies between its first and its last character. -/
theorem apart_or_interior {position : Nat} {w : List Char} (hw : w <+: text.drop position)
    (white : White w) : span.Apart ⟨position, position + w.length⟩ ∨
      span.start < position ∧ position + w.length < span.stop := by
  have hspace : ∀ q, position ≤ q → q < position + w.length → ∀ c, text[q]? = some c →
      isSpace c = true := by
    intro q hle hlt c hc
    obtain ⟨rest, hrest⟩ := hw
    have hdrop : (text.drop position)[q - position]? = some c := by
      rw [List.getElem?_drop, show position + (q - position) = q by omega, hc]
    rw [← hrest, List.getElem?_append_left (by omega)] at hdrop
    exact white c (List.mem_of_getElem? hdrop)
  obtain ⟨first, hfirst, hvisible⟩ := h.first
  obtain ⟨last, hlast, hvisible'⟩ := h.last
  have := h.lt
  by_cases hstart : position ≤ span.start ∧ span.start < position + w.length
  · rw [hspace _ hstart.1 hstart.2 first hfirst] at hvisible
    contradiction
  by_cases hstop : position ≤ span.stop - 1 ∧ span.stop - 1 < position + w.length
  · rw [hspace _ hstop.1 hstop.2 last hlast] at hvisible'
    contradiction
  simp only [Apart]
  omega

end Span.Solid

theorem inside_eq_false_iff {spans : List Span} {position : Nat} :
    inside spans position = false ↔
      ∀ span ∈ spans, position ≤ span.start ∨ span.stop ≤ position := by
  simp [inside, Span.interior, imp_iff_not_or]

/-- White space that reaches out of the spans is apart from all of them. -/
theorem apart_of_white {text w : List Char} {spans : List Span} {position q : Nat}
    (solid : ∀ span ∈ spans, span.Solid text) (hw : w <+: text.drop position) (white : White w)
    (hle : position ≤ q) (hle' : q ≤ position + w.length) (outside : inside spans q = false) :
    ∀ span ∈ spans, span.Apart ⟨position, position + w.length⟩ := by
  intro span hspan
  refine ((solid span hspan).apart_or_interior hw white).resolve_right fun hinterior => ?_
  have := inside_eq_false_iff.1 outside span hspan
  omega

/-! ### Changes outside of spans -/

/-- The second text is written for the first one, which begins at the given position: outside of the
spans anything may change, and inside of them only carriage returns in front of line feeds are left
out. -/
inductive Spares (spans : List Span) : Nat → List Char → List Char → Prop where
  | nil {position : Nat} : Spares spans position [] []
  | keep {position : Nat} {c : Char} {s o : List Char} (stays : c = '\r' → s.head? ≠ some '\n')
      (rest : Spares spans (position + 1) s o) : Spares spans position (c :: s) (c :: o)
  | drop {position : Nat} {s o : List Char} (rest : Spares spans (position + 1) ('\n' :: s) o) :
      Spares spans position ('\r' :: '\n' :: s) o
  | change {position : Nat} {w w' s o : List Char}
      (apart : ∀ span ∈ spans, span.Apart ⟨position, position + w.length⟩)
      (rest : Spares spans (position + w.length) s o) : Spares spans position (w ++ s) (w' ++ o)

namespace Spares

variable {spans : List Span} {span : Span} {position : Nat} {s o : List Char}

/-- Inside of a span a character stays, unless it is a carriage return in front of a line feed. -/
theorem cons_of_interior {c : Char} (h : Spares spans position (c :: s) o) (hspan : span ∈ spans)
    (hlt : span.start < position) (hlt' : position < span.stop) :
    ∃ o', Spares spans (position + 1) s o' ∧
      o = if c = '\r' ∧ s.head? = some '\n' then o' else c :: o' := by
  generalize hs : c :: s = t at h
  cases h with
  | nil => cases hs
  | keep stays rest =>
    obtain ⟨rfl, rfl⟩ := List.cons.inj hs
    exact ⟨_, rest, by rw [if_neg fun hreturn => stays hreturn.1 hreturn.2]⟩
  | drop rest =>
    obtain ⟨rfl, rfl⟩ := List.cons.inj hs
    exact ⟨_, rest, by simp⟩
  | change apart =>
    have := apart span hspan
    simp only [Span.Apart] at this
    omega

/-- The rest of a span is written without carriage returns, and what is behind it afterwards. -/
theorem restOf {literal back : List Char} (h : Spares spans position (literal ++ back) o)
    (hspan : span ∈ spans) (hlt : span.start < position)
    (hstop : position + literal.length = span.stop) (hlast : literal.getLast? ≠ some '\r') :
    ∃ rest, o = withoutReturns literal ++ rest ∧ Spares spans span.stop back rest := by
  induction literal generalizing position o with
  | nil => exact ⟨o, rfl, by simpa [← hstop] using h⟩
  | cons c literal ih =>
    rw [List.length_cons] at hstop
    obtain ⟨o', hrest, rfl⟩ := h.cons_of_interior hspan hlt (by omega)
    have hlast' : literal.getLast? ≠ some '\r' := by
      intro hreturn
      exact hlast (by rw [List.getLast?_cons, hreturn]; rfl)
    obtain ⟨rest, rfl, hback⟩ := ih hrest (by omega) (by omega) hlast'
    have hhead : (c = '\r' ∧ (literal ++ back).head? = some '\n') ↔
        (c = '\r' ∧ literal.head? = some '\n') := by
      cases literal with
      | nil => simp_all
      | cons d literal => simp
    refine ⟨rest, ?_, hback⟩
    rw [withoutReturns, List.append_eq, if_congr hhead rfl rfl]
    split <;> rfl

/-- What is written falls into two parts behind a span, of which the first one ends with what the span
holds. -/
theorem cut {front literal back : List Char} (h : Spares spans position (front ++ literal ++ back) o)
    (hspan : span ∈ spans) (hstart : position + front.length = span.start)
    (hstop : span.start + literal.length = span.stop)
    (hfirst : ∃ c, literal.head? = some c ∧ isSpace c = false)
    (hlast : ∃ c, literal.getLast? = some c ∧ isSpace c = false) :
    ∃ gap rest, o = gap ++ withoutReturns literal ++ rest ∧ Spares spans span.stop back rest := by
  have hreturn : ∀ c, isSpace c = false → c ≠ '\r' := by
    rintro c hc rfl
    exact absurd hc (by decide)
  obtain ⟨first, hhead, hvisible⟩ := hfirst
  obtain ⟨literal, rfl⟩ := List.head?_eq_some_iff.1 hhead
  generalize ht : front ++ (first :: literal) ++ back = t at h
  induction h generalizing front with
  | nil => simp at ht
  | @keep position c s o stays rest ih =>
    cases front with
    | nil =>
      -- The span begins here, and what is left of it has its first character behind it.
      obtain ⟨rfl, rfl⟩ := List.cons.inj ht
      have hend : literal.getLast? ≠ some '\r' := by
        intro hend
        obtain ⟨last, hlast, hvisible'⟩ := hlast
        rw [List.getLast?_cons, hend, Option.getD_some, Option.some_inj] at hlast
        exact hreturn last hvisible' hlast.symm
      simp only [List.length_nil, List.length_cons] at hstart hstop
      obtain ⟨behind, rfl, hback⟩ := rest.restOf hspan (by omega) (by omega) hend
      refine ⟨[], behind, ?_, hback⟩
      rw [withoutReturns, if_neg fun h => hreturn first hvisible h.1]
      rfl
    | cons d front =>
      obtain ⟨rfl, rfl⟩ := List.cons.inj ht
      rw [List.length_cons] at hstart
      obtain ⟨gap, behind, rfl, hback⟩ := ih (by omega) rfl
      exact ⟨d :: gap, behind, rfl, hback⟩
  | @drop position s o rest ih =>
    cases front with
    | nil =>
      obtain ⟨rfl, -⟩ := List.cons.inj ht
      exact absurd rfl (hreturn _ hvisible)
    | cons d front =>
      obtain ⟨rfl, htail⟩ := List.cons.inj ht
      rw [List.length_cons] at hstart
      obtain ⟨gap, behind, rfl, hback⟩ := ih (by omega) htail
      exact ⟨gap, behind, rfl, hback⟩
  | @change position w w' s o apart rest ih =>
    -- What changes lies in front of the span.
    have hle : w.length ≤ front.length := by
      have := apart span hspan
      simp only [Span.Apart, List.length_cons] at this hstop
      omega
    obtain ⟨front, rfl⟩ : w <+: front := by
      refine List.prefix_of_prefix_length_le (List.prefix_append w s) ?_ hle
      rw [← ht, List.append_assoc]
      exact List.prefix_append front _
    rw [List.append_assoc, List.append_assoc, List.append_cancel_left_eq, ← List.append_assoc] at ht
    rw [List.length_append] at hstart
    obtain ⟨gap, behind, rfl, hback⟩ := ih (by omega) ht
    exact ⟨w' ++ gap, behind, by simp, hback⟩

/-- Spans that come one behind the other hold texts that are written one behind the other. -/
theorem standIn {source : List Char} {ordered : List Span} {stop : Nat}
    (h : Spares spans position (slice source position stop) o)
    (hspans : ∀ span ∈ ordered, span ∈ spans ∧ span.Solid source ∧
      position ≤ span.start ∧ span.stop ≤ stop)
    (hordered : ordered.Pairwise fun span next => span.stop ≤ next.start) :
    StandIn (ordered.map fun span => withoutReturns (slice source span.start span.stop)) o := by
  induction ordered generalizing position o with
  | nil => trivial
  | cons span ordered ih =>
    obtain ⟨hspan, hsolid, hstart, hstop⟩ := hspans span List.mem_cons_self
    obtain ⟨hnext, hordered⟩ := List.pairwise_cons.1 hordered
    have hlt := hsolid.lt
    have hle := hsolid.stop_le
    rw [← slice_append hstart (by omega : span.start ≤ stop),
      ← slice_append (Nat.le_of_lt hlt) hstop, ← List.append_assoc] at h
    have hfront : position + (slice source position span.start).length = span.start := by
      simp only [slice, List.length_take, List.length_drop]
      omega
    obtain ⟨gap, rest, rfl, hback⟩ := h.cut hspan hfront (by rw [hsolid.length_slice]; omega)
      hsolid.head?_slice hsolid.getLast?_slice
    refine ⟨gap, rest, rfl, ih hback (fun next hmem => ?_) hordered⟩
    obtain ⟨hspan', hsolid', -, hstop'⟩ := hspans next (List.mem_cons_of_mem _ hmem)
    exact ⟨hspan', hsolid', hnext next hmem, hstop'⟩

/-- A text without line feeds may stay as it is. -/
theorem keepAll {text : List Char} (hfeed : '\n' ∉ text)
    (hlast : text.getLast? = some '\r' → s.head? ≠ some '\n')
    (rest : Spares spans (position + text.length) s o) :
    Spares spans position (text ++ s) (text ++ o) := by
  induction text generalizing position with
  | nil => exact rest
  | cons c text ih =>
    rw [List.mem_cons, not_or] at hfeed
    have hrest : Spares spans (position + 1 + text.length) s o := by
      rwa [List.length_cons, Nat.add_comm text.length, ← Nat.add_assoc] at rest
    refine .keep (fun hreturn => ?_) (ih hfeed.2 (fun hend => hlast ?_) hrest)
    · cases text with
      | nil => exact hlast (by simp [hreturn])
      | cons d text =>
        have hd : '\n' ≠ d := fun heq => hfeed.2 (heq ▸ List.mem_cons_self)
        simpa using hd.symm
    · rw [List.getLast?_cons, hend]
      rfl

end Spares

/-! ### Lines -/

/-- What a line leaves out behind its text: nothing, a carriage return, or white space that reaches out
of the spans. -/
structure LeavesOut (inside : Nat → Bool) (position : Nat) (text tail : List Char) : Prop where
  white : White tail
  stays : text.getLast? = some '\r' → tail ≠ []
  short : tail = [] ∨ tail = ['\r'] ∨
    ∃ q, position ≤ q ∧ q ≤ position + tail.length ∧ inside q = false

/-- A line of a block shows a line of source, which begins at `start`. -/
inductive Shows (inside : Nat → Bool) (start : Nat) (line : List Char) : Block.Line → Prop where
  | code {depth offset : Nat} {text : String} {lead tail : List Char}
      (outside : inside start = false) (line_eq : line = lead ++ (text.toList ++ tail))
      (white : White lead) (ending : LeavesOut inside (start + lead.length + text.toList.length)
        text.toList tail) :
      Shows inside start line (.code depth offset text)
  | literal {text : String} {tail : List Char} (line_eq : line = text.toList ++ tail)
      (ending : LeavesOut inside (start + text.toList.length) text.toList tail) :
      Shows inside start line (.literal text)
  | blank (outside : inside start = false) (white : White line) : Shows inside start line .blank

theorem leavesOut_return {inside : Nat → Bool} {position : Nat} {line text tail : List Char}
    (hline : line = dropReturn line ++ tail)
    (htail : tail = [] ∧ line.getLast? ≠ some '\r' ∨ tail = ['\r']) (htext : text <:+ dropReturn line) :
    LeavesOut inside position text tail where
  white := by
    obtain ⟨rfl, -⟩ | rfl := htail
    · exact white_nil
    · exact white_cons.2 ⟨by decide, white_nil⟩
  stays := by
    intro hreturn
    obtain ⟨rfl, hlast⟩ | rfl := htail
    · rw [List.append_nil] at hline
      obtain ⟨front, hfront⟩ := htext
      rw [hline, ← hfront, List.getLast?_append, hreturn] at hlast
      exact absurd rfl hlast
    · simp
  short := by
    obtain ⟨rfl, -⟩ | rfl := htail
    · exact .inl rfl
    · exact .inr (.inl rfl)

/-- The line that is measured shows the line of source. -/
theorem shows_measureLine {literals spans : List Span} (hspans : ∀ span ∈ spans, span ∈ literals)
    (base : Option Nat) {startsInside : Bool} {start : Nat} (line : List Char)
    (outside : startsInside = false → inside spans start = false) (common unit : Nat) :
    Shows (inside spans) start line
      ((measureLine literals base startsInside start line).place common unit) := by
  obtain ⟨tail, hline, htail⟩ := exists_return line
  have hreturn : ∀ {position text}, text <:+ dropReturn line →
      LeavesOut (inside spans) position text tail := leavesOut_return hline htail
  have hmeasures := measures_measureLine literals base startsInside start line
  generalize measureLine literals base startsInside start line = measured at hmeasures
  cases hmeasures with
  | literal within => exact .literal (by simpa using hline) (hreturn (by simp))
  | blank houtside white => exact .blank (outside houtside) white
  | @code text trimmed houtside line_eq ne_nil lead_eq white ends =>
    have hall : line =
        lead (dropReturn line) ++ ((String.ofList text).toList ++ (trimmed ++ tail)) := by
      rw [String.toList_ofList, ← List.append_assoc text, ← List.append_assoc, ← line_eq]
      exact hline
    refine .code (outside houtside) hall (white_lead _) ?_
    rw [String.toList_ofList]
    rcases ends with ⟨htrim, hend⟩ | ⟨rfl, -⟩
    · have hwhite : White tail := (@hreturn 0 [] List.nil_suffix).white
      refine ⟨white_append.2 ⟨white, hwhite⟩, fun hlast => ?_, ?_⟩
      · rw [← htrim] at hlast
        exact absurd (not_isSpace_getLast_trimEnd hlast) (by decide)
      · -- The line ends outside of the literals, in front of the carriage return.
        have hlength := congrArg List.length line_eq
        simp only [List.length_append] at hlength ⊢
        refine .inr (.inr ⟨start + (dropReturn line).length, by omega, by omega, ?_⟩)
        rw [inside_eq_false_iff] at hend
        exact inside_eq_false_iff.2 fun span hspan => hend span (hspans span hspan)
    · rw [List.append_nil] at line_eq
      exact hreturn ⟨_, line_eq.symm⟩

/-- The end of a line: a line feed, or the end of the stretch, which lies outside of the spans. -/
def IsEnd (inside : Nat → Bool) (position : Nat) (ending rest : List Char) : Prop :=
  ending = ['\n'] ∨ ending = [] ∧ rest = [] ∧ inside position = false

section

variable {source : List Char} {spans : List Span} (solid : ∀ span ∈ spans, span.Solid source)
include solid

/-- Behind the text of a line a line feed is written. -/
theorem LeavesOut.spares {position : Nat} {text tail ending rest o : List Char}
    (h : LeavesOut (inside spans) position text tail)
    (hend : IsEnd (inside spans) (position + tail.length) ending rest)
    (hfront : tail ++ ending <+: source.drop position)
    (hrest : Spares spans (position + (tail ++ ending).length) rest o) :
    Spares spans position (tail ++ ending ++ rest) ('\n' :: o) := by
  have hchange {q : Nat} (hle : position ≤ q) (hle' : q ≤ position + (tail ++ ending).length)
      (white : White ending) (outside : inside spans q = false) :
      Spares spans position (tail ++ ending ++ rest) (['\n'] ++ o) :=
    .change (apart_of_white solid hfront (white_append.2 ⟨h.white, white⟩) hle hle' outside) hrest
  rcases hend with rfl | ⟨rfl, rfl, outside⟩
  · have hkeep : Spares spans (position + tail.length) ('\n' :: rest) ('\n' :: o) := by
      refine .keep (fun hreturn => absurd hreturn (by decide)) ?_
      rwa [List.length_append] at hrest
    rcases h.short with rfl | rfl | ⟨q, hle, hle', outside⟩
    · exact hkeep
    · exact .drop hkeep
    · exact hchange hle (by rw [List.length_append]; omega)
        (white_cons.2 ⟨isSpace_newline, white_nil⟩) outside
  · exact hchange (Nat.le_add_right _ _) (by simp) white_nil outside

/-- The text of a line stays, and behind it a line feed is written. -/
theorem LeavesOut.spares_text {position : Nat} {text tail ending rest o : List Char}
    (h : LeavesOut (inside spans) (position + text.length) text tail) (hfeed : '\n' ∉ text ++ tail)
    (hend : IsEnd (inside spans) (position + (text ++ tail).length) ending rest)
    (hfront : text ++ tail ++ ending <+: source.drop position)
    (hrest : Spares spans (position + (text ++ tail ++ ending).length) rest o) :
    Spares spans position (text ++ (tail ++ ending ++ rest)) (text ++ '\n' :: o) := by
  rw [List.mem_append, not_or] at hfeed
  rw [List.length_append, ← Nat.add_assoc] at hend
  rw [List.append_assoc, List.length_append, ← Nat.add_assoc] at hrest
  rw [List.append_assoc] at hfront
  refine .keepAll hfeed.1 (fun hreturn hhead => ?_)
    (h.spares solid hend (prefix_drop_of_append hfront) hrest)
  -- A carriage return stays only if another one is left out behind it.
  obtain ⟨c, tail, rfl⟩ := List.exists_cons_of_ne_nil (h.stays hreturn)
  simp only [List.cons_append, List.head?_cons, Option.some_inj] at hhead
  exact hfeed.2 (hhead ▸ List.mem_cons_self)

/-- A line of a block spares the spans in the line of source that it shows. -/
theorem Shows.spares {start : Nat} {line ending rest o : List Char} {shown : Block.Line}
    (h : Shows (inside spans) start line shown) (hne : shown ≠ .blank) (hfeed : '\n' ∉ line)
    (hend : IsEnd (inside spans) (start + line.length) ending rest)
    (hfront : line ++ ending <+: source.drop start)
    (hrest : Spares spans (start + (line ++ ending).length) rest o) (w : Writer) :
    Spares spans start (line ++ ending ++ rest) (shown.margin w ++ shown.chars ++ '\n' :: o) := by
  cases h with
  | @code depth offset text lead tail outside line_eq white ending_eq =>
    subst line_eq
    rw [List.append_assoc] at hfront
    simp only [List.length_append, ← Nat.add_assoc] at hend hrest
    have htext := ending_eq.spares_text solid (fun hmem => hfeed (List.mem_append_right _ hmem))
      (by simpa only [List.length_append, ← Nat.add_assoc] using hend)
      (prefix_drop_of_append hfront)
      (by simpa only [List.length_append, ← Nat.add_assoc] using hrest)
    have happend : lead ++ (text.toList ++ tail) ++ ending ++ rest =
        lead ++ (text.toList ++ (tail ++ ending ++ rest)) := by
      simp only [List.append_assoc]
    rw [happend, List.append_assoc (Block.Line.margin w _)]
    exact .change (apart_of_white solid ((List.prefix_append _ _).trans hfront) white (Nat.le_refl _)
      (Nat.le_add_right _ _) outside) htext
  | @literal text tail line_eq ending_eq =>
    subst line_eq
    have htext := ending_eq.spares_text solid hfeed hend hfront hrest
    simpa only [List.append_assoc, Block.Line.margin, Block.Line.chars, List.nil_append] using htext
  | blank => exact absurd rfl hne

/-- The lines of a block without some of its blank lines spare the spans in the lines of source that
they show. -/
theorem spares_lines {start : Nat} {lines : List (List Char)} {shown kept : List Block.Line}
    (hshown : List.Forall₂ (fun line shown => Shows (inside spans) line.1 line.2 shown)
      (withStarts start lines) shown)
    (hkept : Block.DropsBlanks shown kept) (hfeed : ∀ line ∈ lines, '\n' ∉ line)
    (hfront : joinLines lines <+: source.drop start)
    (hstop : inside spans (start + (joinLines lines).length) = false) (w : Writer) :
    Spares spans start (joinLines lines) (Block.written w kept) := by
  induction lines generalizing start shown kept with
  | nil =>
    cases hshown
    cases hkept
    exact .nil
  | cons line lines ih =>
    obtain ⟨first, others, hfirst, hothers, rfl⟩ := List.forall₂_cons_left_iff.1 hshown
    obtain ⟨ending, hjoin, hend⟩ : ∃ ending, joinLines (line :: lines) =
        line ++ ending ++ joinLines lines ∧ (ending = ['\n'] ∨ ending = [] ∧ lines = []) := by
      rw [joinLines_cons]
      by_cases hlines : lines = []
      · exact ⟨[], by simp [hlines, joinLines], .inr ⟨rfl, hlines⟩⟩
      · exact ⟨['\n'], by simp [hlines], .inl rfl⟩
    rw [hjoin] at hfront hstop ⊢
    have hbehind : ∀ {kept}, Block.DropsBlanks others kept →
        Spares spans (start + (line ++ ending).length) (joinLines lines) (Block.written w kept) := by
      intro kept hkept
      obtain rfl | ⟨rfl, rfl⟩ := hend
      · have hrest := prefix_drop_of_append hfront
        simp only [List.length_append, ← Nat.add_assoc] at hstop hrest ⊢
        exact ih hothers hkept (fun other hmem => hfeed other (List.mem_cons_of_mem _ hmem)) hrest hstop
      · cases hothers
        cases hkept
        exact .nil
    have hprefix := (List.prefix_append _ _).trans hfront
    have hwhite (w' : List Char) {kept : List Block.Line} (houtside : inside spans start = false)
        (hwhite : White line) (hkept : Block.DropsBlanks others kept) :
        Spares spans start (line ++ ending ++ joinLines lines) (w' ++ Block.written w kept) := by
      refine .change (apart_of_white solid hprefix (white_append.2 ⟨hwhite, ?_⟩) (Nat.le_refl _)
        (Nat.le_add_right _ _) houtside) (hbehind hkept)
      obtain rfl | ⟨rfl, -⟩ := hend
      · exact white_cons.2 ⟨isSpace_newline, white_nil⟩
      · exact white_nil
    cases hkept with
    | @keep _ kept _ hkept =>
      rw [show Block.written w (first :: kept) = first.margin w ++ first.chars ++ '\n' ::
        Block.written w kept by simp [Block.written]]
      by_cases hblank : first = .blank
      · subst hblank
        cases hfirst with
        | blank houtside white => exact hwhite ['\n'] houtside white hkept
      · refine hfirst.spares solid hblank (hfeed line List.mem_cons_self) ?_ hprefix (hbehind hkept) w
        obtain rfl | ⟨rfl, rfl⟩ := hend
        · exact .inl rfl
        · exact .inr ⟨rfl, rfl, by simpa [joinLines] using hstop⟩
    | drop hkept =>
      cases hfirst with
      | blank houtside white => exact hwhite [] houtside white hkept

end

/-! ### Blocks -/

/-- What is written for a stretch of source spares the literals that lie in it. -/
theorem spares_ofRange {source : List Char} {literals : List Span}
    (solid : ∀ span ∈ literals, span.Solid source) (range : Span) (unit : Nat) (w : Writer) :
    Spares (literals.filter (range.liesIn ·)) range.start (slice source range.start range.stop)
      (Block.written w (Block.ofRange source range literals unit).lines) := by
  generalize hspans : literals.filter (range.liesIn ·) = spans
  have hmem : ∀ span ∈ spans, span ∈ literals ∧ range.start ≤ span.start ∧ span.stop ≤ range.stop := by
    intro span hspan
    rw [← hspans, List.mem_filter] at hspan
    simpa [Span.liesIn] using hspan
  have hsolid : ∀ span ∈ spans, span.Solid source := fun span hspan => solid span (hmem span hspan).1
  have houtside {position : Nat} (h : inside literals position = false) :
      inside spans position = false :=
    inside_eq_false_iff.2 fun span hspan => inside_eq_false_iff.1 h span (hmem span hspan).1
  have hjoin := joinLines_splitLines (slice source range.start range.stop)
  unfold Block.ofRange
  generalize commonIndent (measure source range literals) = common
  rw [← hjoin]
  refine spares_lines hsolid ?_ (Block.dropsBlanks_squeeze _)
    (fun _ => not_mem_of_mem_splitLines) ?_ ?_ w
  · rw [measure_eq_map, List.map_map, List.forall₂_map_right_iff]
    refine List.forall₂_same.2 fun line _ => ?_
    refine shows_measureLine (fun span hspan => (hmem span hspan).1) _ line.2 (fun h => ?_) _ _
    -- The stretch does not begin inside of a literal that lies in it.
    rcases Bool.and_eq_false_iff.1 h with hstart | h
    · refine inside_eq_false_iff.2 fun span hspan => .inl ?_
      have hle := (hmem span hspan).2.1
      have hstart := of_decide_eq_false hstart
      omega
    · exact houtside h
  · rw [hjoin, slice]
    exact List.take_prefix _ _
  · refine inside_eq_false_iff.2 fun span hspan => ?_
    have := (hsolid span hspan).stop_le
    have := (hmem span hspan).2
    rw [hjoin, slice, List.length_take, List.length_drop]
    omega

/-- Template literals keep their text, white space and blank lines included, except for the carriage
returns in front of line feeds: those that lie in a stretch of source stand in what is written for it, in
their order. It does not matter what else the spans of literals cover, and where the stretch begins and
ends. -/
theorem Block.literals_standIn_render {source : List Char} {literals : List Span}
    (apart : literals.Pairwise Span.Apart) (solid : ∀ span ∈ literals, span.Solid source)
    (range : Span) (unit : Nat) (w : Writer) :
    StandIn (((literals.filter (range.liesIn ·)).mergeSort fun a b => a.start ≤ b.start).map
        fun span => withoutReturns (slice source span.start span.stop))
      ((Block.ofRange source range literals unit).render w).text.toList := by
  rw [Block.toList_text_render]
  refine StandIn.append ?_ _
  generalize hspans : literals.filter (range.liesIn ·) = spans
  have hmem : ∀ span ∈ spans, span.Solid source ∧ range.start ≤ span.start ∧ span.stop ≤ range.stop := by
    intro span hspan
    rw [← hspans, List.mem_filter] at hspan
    exact ⟨solid span hspan.1, by simpa [Span.liesIn] using hspan.2⟩
  have hspares := spares_ofRange solid range unit w
  rw [hspans] at hspares
  refine hspares.standIn (fun span hspan => ?_) ?_
  · rw [List.mem_mergeSort] at hspan
    exact ⟨hspan, hmem span hspan⟩
  · -- The spans are sorted by where they begin, and they are apart.
    have hsorted : (spans.mergeSort fun a b => decide (a.start ≤ b.start)).Pairwise
        fun a b => decide (a.start ≤ b.start) = true :=
      List.pairwise_mergeSort (by simp; omega) (by simp; omega) spans
    have hapart : (spans.mergeSort fun a b => decide (a.start ≤ b.start)).Pairwise Span.Apart := by
      rw [(List.mergeSort_perm spans _).pairwise_iff Span.Apart.symm, ← hspans]
      exact apart.filter _
    refine (hsorted.and hapart).imp_of_mem fun {span next} _ hnext h => ?_
    rw [List.mem_mergeSort] at hnext
    have hle : span.start ≤ next.start := by simpa using h.1
    have hlt := (hmem next hnext).1.lt
    exact h.2.resolve_right (by omega)

/-- Two templates, of which the first one has white space at the end of a line and two blank lines. -/
theorem Block.literals_standIn_render_call :
    let source := "f(`a \r\n\r\n\r\n  b`, `c`)\r\n".toList
    let literals := [⟨17, 20⟩, ⟨2, 15⟩]
    literals.Pairwise Span.Apart ∧ (∀ span ∈ literals, span.Solid source) ∧
      StandIn ["`a \n\n\n  b`".toList, "`c`".toList]
        ((Block.ofRange source ⟨0, 23⟩ literals 2).render { indent := .two, level := 3 }).text.toList := by
  have apart : [Span.mk 17 20, ⟨2, 15⟩].Pairwise Span.Apart := by decide
  have solid : ∀ span ∈ [Span.mk 17 20, ⟨2, 15⟩],
      span.Solid "f(`a \r\n\r\n\r\n  b`, `c`)\r\n".toList := by
    simp only [List.mem_cons, List.not_mem_nil, or_false]
    rintro span (rfl | rfl)
    · exact .of_quoted (by decide) (by decide) (by decide)
    · exact .of_quoted (by decide) (by decide) (by decide)
  refine ⟨apart, solid, ?_⟩
  have hsort : [Span.mk 17 20, ⟨2, 15⟩].mergeSort (fun a b => decide (a.start ≤ b.start)) =
      [⟨2, 15⟩, ⟨17, 20⟩] := by simp [List.mergeSort]
  have := Block.literals_standIn_render apart solid ⟨0, 23⟩ 2 { indent := .two, level := 3 }
  simpa [Span.liesIn, hsort, slice, withoutReturns] using this

end CodeSplice.Layout

