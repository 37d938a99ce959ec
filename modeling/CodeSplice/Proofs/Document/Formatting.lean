/-
Module: CodeSplice.Proofs.Document.Formatting
Purpose: Formatting a source text, and what one would like it to keep: the formatted text itself, the
  literals and the comments; that it does not depend on how lines end, and that it gives the text a
  canonical shape. The name of the document does not matter to it. Each of the five wishes fails for a
  short text.
Main exports: formatted?, formatted?_eq_some_iff, FormatsOnce, KeepsLiterals, KeepsRemarks,
  FormatsAlike, FormatsCanonically
-/
import CodeSplice.Document.Reading
import CodeSplice.Proofs.Layout.Canonical
import CodeSplice.Proofs.Layout.LineEnds

namespace CodeSplice

open Layout Syntax Text

/-- A source text in canonical form, unless it has a syntax error. -/
def formatted? (style : Style) (text : String) : Option String :=
  (Document.ofSource? "" text).map (·.render style)

/-- A text is formatted to what its document renders to, whatever the document is called. -/
theorem formatted?_eq_some_iff {style : Style} {text after : String} (name : String) :
    formatted? style text = some after ↔
      ∃ document, Document.ofSource? name text = some document ∧
        document.render style = after := by
  simp only [formatted?, Document.ofSource?, Option.map_map, Option.map_eq_some_iff,
    Function.comp_apply]
  constructor
  · rintro ⟨tree, htree, rfl⟩
    exact ⟨_, ⟨tree, htree, rfl⟩, rfl⟩
  · rintro ⟨document, ⟨tree, htree, rfl⟩, rfl⟩
    exact ⟨tree, htree, rfl⟩

/-- A text has a canonical form exactly if it has a tree. -/
theorem formatted?_isSome (style : Style) (text : String) :
    (formatted? style text).isSome = (parse? text.toList).isSome := by
  simp [formatted?, Document.ofSource?]

/-! ### The formatted text -/

/-- Formatting the formatted text changes nothing. -/
def FormatsOnce (style : Style) (text : String) : Prop :=
  ∀ after, formatted? style text = some after → formatted? style after = some after

instance (style : Style) (text : String) : Decidable (FormatsOnce style text) :=
  decidable_of_iff ((formatted? style text).all fun after => formatted? style after == some after)
    (by simp [FormatsOnce, Option.all_eq_true])

/-- A comment that is all there is in a method is written behind the closing brace, in front of another
one that is read there; read again, only the first of the two is left in its place. -/
theorem not_forall_formatsOnce : ¬ ∀ style text, FormatsOnce style text := by
  intro h
  exact absurd (h {} "class A{m(){/**/}/**/}") (by decide +kernel)

/-! ### The trees before and after -/

/-- The formatted text and its tree are to a text and its tree as the test says, if all of them
exist. -/
def ComparesTrees (same : List Char → Tree → List Char → Tree → Bool) (style : Style)
    (text : String) : Prop :=
  ∀ after tree again, formatted? style text = some after → parse? text.toList = some tree →
    parse? after.toList = some again → same text.toList tree after.toList again = true

instance (same : List Char → Tree → List Char → Tree → Bool) (style : Style) (text : String) :
    Decidable (ComparesTrees same style text) :=
  decidable_of_iff
    ((formatted? style text).all fun after =>
      (parse? text.toList).all fun tree =>
        (parse? after.toList).all fun again => same text.toList tree after.toList again) <| by
    simp only [ComparesTrees, Option.all_eq_true]
    exact ⟨fun h after tree again hafter htree hagain => h after hafter tree htree again hagain,
      fun h after hafter tree htree again hagain => h after tree again hafter htree hagain⟩

/-- The texts of the phrases of one kind that lie in no other phrase of that kind, without carriage
returns. -/
def textsOf (phrase : Phrase) (text : List Char) (tree : Tree) : List (List Char) :=
  (tree.outermost phrase).map fun literal =>
    (slice text literal.extent.start literal.extent.stop).filter (· != '\r')

/-- The strings and template literals of the formatted text are those of the text. -/
def KeepsLiterals : Style → String → Prop :=
  ComparesTrees fun text tree after again =>
    textsOf .string after again == textsOf .string text tree &&
      textsOf .template after again == textsOf .template text tree

instance (style : Style) (text : String) : Decidable (KeepsLiterals style text) :=
  inferInstanceAs (Decidable (ComparesTrees ..))

/-- A string that goes on in another line is indented there. -/
theorem not_forall_keepsLiterals : ¬ ∀ style text, KeepsLiterals style text := by
  intro h
  exact absurd (h {} "'\\\n '") (by decide +kernel)

/-- What a comment says: its lines without the white space around them. -/
def Syntax.Token.said (token : Token) : List (List Char) :=
  (splitLines token.text.toList).map trim

/-- Every comment is in the formatted text as often as in the text. -/
def KeepsRemarks : Style → String → Prop :=
  ComparesTrees fun _ tree _ again =>
    (again.comments.map Token.said).isPerm (tree.comments.map Token.said)

instance (style : Style) (text : String) : Decidable (KeepsRemarks style text) :=
  inferInstanceAs (Decidable (ComparesTrees ..))

/-- A comment in the braces of an import that binds nothing is lost. -/
theorem not_forall_keepsRemarks : ¬ ∀ style text, KeepsRemarks style text := by
  intro h
  exact absurd (h {} "import{/**/}from'x'") (by decide +kernel)

/-! ### Line ends -/

/-- With a carriage return in front of every line feed, a text is formatted to the same text, which has
no carriage return. -/
def FormatsAlike (style : Style) (text : String) : Prop :=
  ∀ after, formatted? style text = some after →
    formatted? style (String.ofList (withReturns text.toList)) = some after ∧ '\r' ∉ after.toList

instance (style : Style) (text : String) : Decidable (FormatsAlike style text) :=
  decidable_of_iff ((formatted? style text).all fun after =>
    formatted? style (String.ofList (withReturns text.toList)) == some after &&
      !after.toList.contains '\r') (by simp [FormatsAlike, Option.all_eq_true])

/-- An import with attributes on lines of their own. -/
def attributesSource : String :=
  "import a from 'a' with \x7b\n  type: 'json',\n\x7d;\n"

/-- The attributes of an import are no block: they are kept as they are written, carriage returns
included. -/
theorem not_forall_formatsAlike :
    ¬ ∀ style text, '\r' ∉ text.toList → FormatsAlike style text := by
  intro h
  exact absurd (h {} attributesSource (by decide)) (by decide +kernel)

/-! ### The shape -/

/-- The formatted text has the canonical shape, its own template literals left out. -/
def FormatsCanonically (style : Style) (text : String) : Prop :=
  ∀ after tree, formatted? style text = some after → parse? after.toList = some tree →
    Canonical (Source.ofTree after.toList tree).literals after.toList

/-- An import with attributes on a line that is indented with a tab. -/
def tabbedSource : String :=
  "import a from 'a' with \x7b\n\ttype: 'json'\n\x7d;"

/-- It is formatted to itself, with a line feed at the end, and has no template literals. -/
theorem formatted_tabbedSource :
    formatted? {} tabbedSource = some (tabbedSource ++ "\n") ∧
      ∃ tree, parse? (tabbedSource ++ "\n").toList = some tree ∧ tree.outermost .template = [] := by
  have hchecked : (formatted? {} tabbedSource == some (tabbedSource ++ "\n") &&
      (parse? (tabbedSource ++ "\n").toList).any fun tree =>
        (tree.outermost .template).isEmpty) = true := by
    decide +kernel
  simpa [Option.any_eq_true] using hchecked

/-- The tab in front of an attribute of an import is kept, too. -/
theorem not_forall_formatsCanonically : ¬ ∀ style text, FormatsCanonically style text := by
  intro h
  obtain ⟨hformatted, tree, htree, hliterals⟩ := formatted_tabbedSource
  have hshape := h {} tabbedSource _ tree hformatted htree
  simp only [Source.ofTree, hliterals, List.map_nil] at hshape
  exact absurd hshape (by decide)

end CodeSplice
