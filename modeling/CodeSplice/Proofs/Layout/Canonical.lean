/-
Module: CodeSplice.Proofs.Layout.Canonical
Purpose: The shape that formatted text is wanted to have: it is empty or ends with one line feed, does
  not begin with a blank line, and its lines do not end in white space, are not indented with tabs, and
  are never blank twice in a row. Lines that begin or end in a template literal are left out. Tidy rows
  of which none is kept as it is have this shape.
Main exports: Canonical, Tidy.canonical
-/
import CodeSplice.Proofs.Layout.Tidy

namespace CodeSplice.Layout

open Text

/-! ### The lines of a text -/

/-- A line that does not end in white space and is not indented with tabs. -/
def CleanLine (line : List Char) : Prop :=
  trimEnd line = line ∧ '\t' ∉ lead line

instance (line : List Char) : Decidable (CleanLine line) :=
  inferInstanceAs (Decidable (_ ∧ _))

instance (text : List Char) : Decidable (White text) :=
  decidable_of_iff (text.all isSpace = true) List.all_eq_true

/-- Whether a line, which comes with the position where it begins, begins or ends in a literal. -/
def touches (literals : List Span) (line : Nat × List Char) : Bool :=
  inside literals line.1 || inside literals (line.1 + line.2.length)

/-- The canonical shape of a text with the given literals. -/
structure Canonical (literals : List Span) (text : List Char) : Prop where
  ended : text = [] ∨ text.getLast? = some '\n' ∧ text.dropLast.getLast? ≠ some '\n'
  first : text = [] ∨ ∀ line ∈ (splitLines text).head?, ¬ White line
  clean : ∀ line ∈ splitLinesFrom 0 text, touches literals line = false → CleanLine line.2
  single : (splitLinesFrom 0 text).IsChain fun line next => touches literals line = false →
    touches literals next = false → White line.2 → ¬ White next.2

instance (literals : List Span) (text : List Char) : Decidable (Canonical literals text) :=
  decidable_of_iff (_ ∧ _ ∧ _ ∧ _)
    ⟨fun h => ⟨h.1, h.2.1, h.2.2.1, h.2.2.2⟩, fun h => ⟨h.ended, h.first, h.clean, h.single⟩⟩

theorem map_snd_withStarts (start : Nat) (lines : List (List Char)) :
    (withStarts start lines).map Prod.snd = lines := by
  induction lines generalizing start with
  | nil => rfl
  | cons line lines ih => simp [withStarts, ih]

/-! ### The lines of rows -/

theorem not_white_of_endsVisibly {text : List Char} (h : endsVisibly text = true) : ¬ White text := by
  obtain ⟨front, c, rfl, hc⟩ := endsVisibly_iff.1 h
  intro hwhite
  simp [hwhite c (by simp)] at hc

theorem trimEnd_of_endsVisibly {text : List Char} (h : endsVisibly text = true) :
    trimEnd text = text := by
  obtain ⟨front, c, rfl, hc⟩ := endsVisibly_iff.1 h
  simp [trimEnd, hc]

theorem cleanLine_nil : CleanLine [] := by
  decide

/-- The lines of rows are what stands in the rows, and the empty text behind the last of them. -/
theorem splitLines_textOfRows {rows : List Row} (h : ∀ row ∈ rows, '\n' ∉ row.text) :
    splitLines (textOfRows rows) = rows.map Row.text ++ [[]] := by
  induction rows with
  | nil => rfl
  | cons row rows ih =>
    rw [textOfRows_cons, splitLines_append_newline (h row (by simp)),
      ih fun other hother => h other (by simp [hother])]
    rfl

section

variable {keeps : List Char → Prop} {rows : List Row} (hkeeps : ∀ piece, ¬ keeps piece)
include hkeeps

/-- A clean row that is not kept is empty, or what stands in it is clean. -/
theorem Row.Clean.cases {row : Row} (h : row.Clean keeps) :
    row = .blank ∨ endsVisibly row.text = true ∧ CleanLine row.text := by
  cases row with
  | blank => exact .inl rfl
  | plain text =>
    obtain ⟨-, htab, hvisible⟩ := h
    exact .inr ⟨hvisible, trimEnd_of_endsVisibly hvisible, htab⟩
  | kept text =>
    obtain ⟨-, piece, hpiece, -⟩ := h
    exact absurd hpiece (hkeeps piece)

theorem Row.Clean.white_iff {row : Row} (h : row.Clean keeps) : White row.text ↔ row = .blank := by
  constructor
  · intro hwhite
    refine (h.cases hkeeps).resolve_right fun hvisible => ?_
    exact not_white_of_endsVisibly hvisible.1 hwhite
  · rintro rfl
    exact white_nil

/-- Tidy rows of which none is kept make a text in canonical shape. -/
theorem Tidy.canonical (h : Tidy keeps rows) : Canonical [] (textOfRows rows) := by
  have hlines := splitLines_textOfRows fun row hrow => (h.clean row hrow).newline_not_mem
  refine ⟨?_, ?_, ?_, ?_⟩
  · rcases List.eq_nil_or_concat rows with rfl | ⟨front, last, rfl⟩
    · exact .inl rfl
    · have hlast : last ≠ .blank := fun hblank => h.spaced.last (by simp [hblank])
      have hclean := h.clean last (by simp)
      obtain ⟨hvisible, -⟩ := (hclean.cases hkeeps).resolve_left hlast
      obtain ⟨rest, c, htext, hc⟩ := endsVisibly_iff.1 hvisible
      have hnewline : c ≠ '\n' := by
        rintro rfl
        exact absurd hc (by decide)
      have hall : textOfRows (front.concat last) =
          (textOfRows front ++ rest ++ [c]) ++ ['\n'] := by
        simp [htext]
      refine .inr ⟨by simp, ?_⟩
      rw [hall, List.dropLast_concat]
      simpa using hnewline
  · cases rows with
    | nil => exact .inl rfl
    | cons first rows =>
      have hfirst : first ≠ .blank := fun hblank => h.spaced.first (by simp [hblank])
      refine .inr fun line hline => ?_
      rw [hlines] at hline
      obtain rfl : first.text = line := by simpa using hline
      rwa [(h.clean first (by simp)).white_iff hkeeps]
  · intro line hline _
    have hmem := mem_of_mem_withStarts hline
    rw [hlines] at hmem
    rcases List.mem_append.1 hmem with hmem | hmem
    · obtain ⟨row, hrow, heq⟩ := List.mem_map.1 hmem
      rw [← heq]
      rcases (h.clean row hrow).cases hkeeps with rfl | ⟨-, hclean⟩
      · exact cleanLine_nil
      · exact hclean
    · rw [List.mem_singleton.1 hmem]
      exact cleanLine_nil
  · have hchain : (splitLines (textOfRows rows)).IsChain fun line next =>
        White line → ¬ White next := by
      rw [hlines]
      refine List.IsChain.append ?_ (.singleton _) ?_
      · rw [List.isChain_map]
        refine h.spaced.single.imp_of_mem_imp fun row next hrow hnext hsingle => ?_
        rw [(h.clean row hrow).white_iff hkeeps, (h.clean next hnext).white_iff hkeeps]
        exact hsingle
      · intro line hline next _ hwhite
        obtain ⟨last, hlast, rfl⟩ := Option.map_eq_some_iff.1 (List.getLast?_map ▸ hline)
        rw [(h.clean last (List.mem_of_getLast? hlast)).white_iff hkeeps] at hwhite
        exact absurd (hwhite ▸ hlast) h.spaced.last
    rw [← map_snd_withStarts 0 (splitLines (textOfRows rows)), List.isChain_map] at hchain
    exact hchain.imp fun line next hsingle _ _ => hsingle

end

end CodeSplice.Layout
