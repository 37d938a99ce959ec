/-
Module: CodeSplice.Layout.Indent
Purpose: The indentation of rendered text. One nesting level is a fixed number of spaces between
  one and eight; rendered text never contains indentation by tabs.
Main exports: Indent, Indent.ofWidth, Indent.unit
-/
import CodeSplice.Text.Space

namespace CodeSplice.Layout

open Text

/-- The width of one nesting level, in spaces. -/
structure Indent where
  width : Nat
  one_le : 1 ≤ width := by omega
  le_eight : width ≤ 8 := by omega
deriving DecidableEq, Repr

namespace Indent

/-- Two spaces, the width that TypeScript sources use unless they say otherwise. -/
def two : Indent := { width := 2 }

instance : Inhabited Indent := ⟨two⟩

/-- The indentation nearest to the width asked for. -/
def ofWidth (width : Nat) : Indent where
  width := max 1 (min width 8)

/-- The text of one nesting level. -/
def unit (indent : Indent) : String :=
  spaces indent.width

/-- A width in range is taken as it is. -/
theorem width_ofWidth {w : Nat} (lo : 1 ≤ w) (hi : w ≤ 8) : (ofWidth w).width = w := by
  simp only [ofWidth]
  omega

end Indent

end CodeSplice.Layout
