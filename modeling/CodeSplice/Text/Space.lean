/-
Module: CodeSplice.Text.Space
Purpose: The two notions of white space that source text needs. Indentation is made of blanks
  (space and tab) only; trimming removes every character with the Unicode property `White_Space`.
Main exports: Blank test `isBlank`, `isSpace`, `trimStart`, `trimEnd`, `trim`
-/

namespace CodeSplice.Text

/-- The characters that indentation is made of. -/
def isBlank (c : Char) : Bool :=
  c == ' ' || c == '\t'

/-- The Unicode property `White_Space`. The byte order mark U+FEFF does not have it. -/
def isSpace (c : Char) : Bool :=
  let n := c.toNat
  (9 ≤ n && n ≤ 13) || n == 0x20 || n == 0x85 || n == 0xA0 || n == 0x1680 ||
    (0x2000 ≤ n && n ≤ 0x200A) || n == 0x2028 || n == 0x2029 || n == 0x202F || n == 0x205F ||
    n == 0x3000

/-- Drop white space at the front. -/
def trimStart (cs : List Char) : List Char :=
  cs.dropWhile isSpace

/-- Drop white space at the back. -/
def trimEnd (cs : List Char) : List Char :=
  (cs.reverse.dropWhile isSpace).reverse

/-- Drop white space at both ends. -/
def trim (cs : List Char) : List Char :=
  trimEnd (trimStart cs)

/-- Every blank is white space, so trimming removes indentation too. -/
theorem isSpace_of_isBlank {c : Char} (h : isBlank c = true) : isSpace c = true := by
  simp only [isBlank, Bool.or_eq_true, beq_iff_eq] at h
  rcases h with rfl | rfl <;> decide

/-- What trimming leaves does not end in white space. -/
theorem not_isSpace_getLast_trimEnd {cs : List Char} {c : Char}
    (h : (trimEnd cs).getLast? = some c) : isSpace c = false := by
  unfold trimEnd at h
  rw [List.getLast?_reverse] at h
  have := List.head?_dropWhile_not isSpace cs.reverse
  rw [h] at this
  simpa using this

/-- `text` between the positions `start` and `stop`, counted in characters. -/
def slice (text : List Char) (start stop : Nat) : List Char :=
  (text.drop start).take (stop - start)

/-- Two stretches of a text, one behind the other, are one stretch. -/
theorem slice_append {text : List Char} {start middle stop : Nat} (h : start ≤ middle)
    (h' : middle ≤ stop) : slice text start middle ++ slice text middle stop = slice text start stop := by
  simp only [slice]
  rw [show stop - start = (middle - start) + (stop - middle) by omega, List.take_add,
    List.drop_drop, show start + (middle - start) = middle by omega]

/-- The text of `count` spaces. -/
def spaces (count : Nat) : String :=
  String.ofList (List.replicate count ' ')

end CodeSplice.Text
