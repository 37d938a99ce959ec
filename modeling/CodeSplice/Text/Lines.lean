/-
Module: CodeSplice.Text.Lines
Purpose: Text as a sequence of lines. A line ends at a line feed, and only there; a carriage return
  in front of the line feed is part of the line until `dropReturn` removes it. Each line can be
  read with the position at which it starts.
Main exports: splitLines, splitLinesFrom, dropReturn, joinLines_splitLines
-/

namespace CodeSplice.Text

/-- The lines of a text: the pieces between its line feeds, so there is always at least one. -/
def splitLines : List Char → List (List Char)
  | [] => [[]]
  | c :: cs =>
    if c == '\n' then [] :: splitLines cs
    else
      match splitLines cs with
      | [] => [[c]]
      | line :: lines => (c :: line) :: lines

/-- Pair each line with the position of its first character, given that of the first line. -/
def withStarts (start : Nat) : List (List Char) → List (Nat × List Char)
  | [] => []
  | line :: lines => (start, line) :: withStarts (start + line.length + 1) lines

/-- The lines of a text that begins at position `start`, each with its own position. -/
def splitLinesFrom (start : Nat) (cs : List Char) : List (Nat × List Char) :=
  withStarts start (splitLines cs)

/-- Put lines back together. -/
def joinLines : List (List Char) → List Char
  | [] => []
  | [line] => line
  | line :: lines => line ++ '\n' :: joinLines lines

/-- Remove one carriage return from the end of a line. -/
def dropReturn (line : List Char) : List Char :=
  if line.getLast? == some '\r' then line.dropLast else line

theorem splitLines_ne_nil (cs : List Char) : splitLines cs ≠ [] := by
  cases cs with
  | nil => simp [splitLines]
  | cons c cs =>
    simp only [splitLines]
    split
    · simp
    · split <;> simp

/-- Splitting loses nothing. -/
theorem joinLines_splitLines (cs : List Char) : joinLines (splitLines cs) = cs := by
  induction cs with
  | nil => rfl
  | cons c cs ih =>
    simp only [splitLines]
    split
    · rename_i h
      have hc : c = '\n' := by simpa using h
      cases hs : splitLines cs with
      | nil => exact absurd hs (splitLines_ne_nil cs)
      | cons line lines =>
        rw [hs] at ih
        simp [joinLines, ih, hc]
    · split
      · rename_i hs
        exact absurd hs (splitLines_ne_nil cs)
      · rename_i line lines hs
        rw [hs] at ih
        cases lines with
        | nil =>
          simp only [joinLines] at ih ⊢
          rw [ih]
        | cons l ls =>
          simp only [joinLines] at ih ⊢
          rw [List.cons_append, ih]

/-- No line contains a line feed. -/
theorem not_mem_of_mem_splitLines {cs line : List Char} (h : line ∈ splitLines cs) :
    '\n' ∉ line := by
  induction cs generalizing line with
  | nil => simp_all [splitLines]
  | cons c cs ih =>
    simp only [splitLines] at h
    split at h
    · rcases List.mem_cons.1 h with rfl | h
      · simp
      · exact ih h
    · rename_i hc
      split at h
      · rename_i hs
        exact absurd hs (splitLines_ne_nil cs)
      · rename_i first rest hs
        rcases List.mem_cons.1 h with rfl | h
        · have hf : '\n' ∉ first := ih (by simp [hs])
          have hc' : '\n' ≠ c := fun e => hc (by simp [← e])
          simp [hc', hf]
        · exact ih (by simp [hs, h])

end CodeSplice.Text
