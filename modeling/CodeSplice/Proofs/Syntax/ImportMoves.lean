/-
Module: CodeSplice.Proofs.Syntax.ImportMoves
Purpose: The way of the search through an import declaration. At every place in it one thing is to be
  done at a time, whatever stands in front: this is computed from the grammar, for each place and for
  each way to come there.
Main exports: Stage, ImportMoves, importMoves_typeScript
-/
import CodeSplice.Proofs.Syntax.Moves
import CodeSplice.Syntax.Parse

namespace CodeSplice.Syntax

open Automaton

/-! ### What can be read -/

/-- The symbol of a keyword or mark. -/
def keyword (text : String) : Symbol :=
  .terminal (.spelled text.toList)

/-- The symbol of a name. -/
def word : Symbol :=
  .terminal (.kind .word)

/-- A phrase of so many parts. -/
def joining (phrase : Phrase) (count : Nat) : Reduction :=
  ⟨phrase, count, 0⟩

/-- The keywords of an import, the last one first. -/
def keywords (typeOnly : Bool) : List Symbol :=
  if typeOnly then [keyword "type", keyword "import"] else [keyword "import"]

/-- What stands in front of a namespace or of names in braces: the keywords, and a default name with
its comma if one precedes. -/
def frontOf (typeOnly preceded : Bool) : List Symbol :=
  (if preceded then [keyword ",", .phrase .importedName] else []) ++ keywords typeOnly

/-- The clause of an import, in which a default name may precede. -/
def clauseOf (preceded : Bool) : Reduction :=
  joining .importClause (if preceded then 3 else 1)

/-- Which of the names in braces a name is. -/
inductive Stage where
  | first
  | second
  | later
deriving DecidableEq

namespace Stage

/-- The stage of the name that follows. -/
def next : Stage → Stage
  | first => second
  | _ => later

/-- What stands between the brace and the name. -/
def before : Stage → List Symbol
  | first => []
  | second => [keyword ",", .phrase .importSpecifier]
  | later => [keyword ",", .phrase .moreImportSpecifiers, .phrase .importSpecifier]

/-- The phrases that are completed behind the name. -/
def joins : Stage → List Reduction
  | first => [joining .importedName 1, joining .importSpecifier 1]
  | second =>
    [joining .importedName 1, joining .importSpecifier 1, joining .moreImportSpecifiers 2]
  | later => [joining .importedName 1, joining .importSpecifier 1, joining .moreImportSpecifiers 3]

/-- What stands behind the brace when the phrases behind the name have been completed. -/
def listed : Stage → List Symbol
  | first => [.phrase .importSpecifier]
  | _ => [.phrase .moreImportSpecifiers, .phrase .importSpecifier]

theorem before_next (stage : Stage) : stage.next.before = keyword "," :: stage.listed := by
  cases stage <;> rfl

end Stage

/-- Moves from the beginning of the text through the keywords. -/
def KeywordMoves (automaton : Automaton) : Prop :=
  automaton.Moves [] (.spelled "import".toList) [] ∧
    automaton.Moves (keywords false) (.spelled "type".toList) []

/-- Moves through a default name. -/
def DefaultMoves (automaton : Automaton) (typeOnly : Bool) : Prop :=
  automaton.Moves (keywords typeOnly) (.kind .word) [] ∧
    automaton.Moves (word :: keywords typeOnly) (.spelled ",".toList) [joining .importedName 1] ∧
    automaton.Moves (word :: keywords typeOnly) (.spelled "from".toList)
      [joining .importedName 1, clauseOf false]

/-- Moves through a namespace. -/
def NamespaceMoves (automaton : Automaton) (typeOnly preceded : Bool) : Prop :=
  let front := frontOf typeOnly preceded
  automaton.Moves front (.spelled "*".toList) [] ∧
    automaton.Moves (keyword "*" :: front) (.spelled "as".toList) [] ∧
    automaton.Moves (keyword "as" :: keyword "*" :: front) (.kind .word) [] ∧
    automaton.Moves (word :: keyword "as" :: keyword "*" :: front) (.spelled "from".toList)
      [joining .namespaceImport 3, clauseOf preceded]

/-- Moves through a name in braces and to what can follow it. -/
def ListedMoves (automaton : Automaton) (typeOnly preceded : Bool) (stage : Stage) : Prop :=
  let front := keyword "\x7b" :: frontOf typeOnly preceded
  automaton.Moves (stage.before ++ front) (.kind .word) [] ∧
    automaton.Moves (word :: stage.before ++ front) (.spelled ",".toList) stage.joins ∧
    automaton.Moves (word :: stage.before ++ front) (.spelled "\x7d".toList) stage.joins ∧
    automaton.Moves (keyword "\x7d" :: stage.listed ++ front) (.spelled "from".toList)
      [joining .namedImports (stage.listed.length + 2), clauseOf preceded]

/-- Moves into the braces, and out of them behind a comma. -/
def BraceMoves (automaton : Automaton) (typeOnly preceded : Bool) : Prop :=
  let front := keyword "\x7b" :: frontOf typeOnly preceded
  automaton.Moves (frontOf typeOnly preceded) (.spelled "\x7b".toList) [] ∧
    automaton.Moves (keyword "," :: Stage.later.listed ++ front) (.spelled "\x7d".toList) [] ∧
    automaton.Moves (keyword "\x7d" :: keyword "," :: Stage.later.listed ++ front)
      (.spelled "from".toList) [joining .namedImports 5, clauseOf preceded]

/-- The phrase of what stands between two quotes. -/
def partsKind (quote : Char) : Phrase :=
  if quote = '"' then .doubleQuotedParts else .singleQuotedParts

/-- Moves through a string and the semicolon behind it. -/
def StringMoves (automaton : Automaton) (front : List Symbol) (closing : List Reduction)
    (quote : Char) : Prop :=
  let mark := Symbol.terminal (.spelled [quote])
  let text := Symbol.terminal (.kind (textKind quote))
  automaton.Moves front (.spelled [quote]) [] ∧
    ((automaton.expectation (mark :: front)).isInside quote = true ∧
      automaton.settle? 8 (.kind (textKind quote)) (mark :: front) = some [] ∧
      automaton.settle? 8 (.spelled [quote]) (mark :: front) = some []) ∧
    ((automaton.expectation (text :: mark :: front)).isInside quote = true ∧
      automaton.settle? 8 (.spelled [quote]) (text :: mark :: front) =
        some [joining (partsKind quote) 1]) ∧
    ((automaton.expectation (mark :: mark :: front)).awaitsEnd = true ∧
      automaton.settle? 8 (.spelled [';']) (mark :: mark :: front) =
        some (joining .string 2 :: closing)) ∧
    (automaton.expectation (mark :: .phrase (partsKind quote) :: mark :: front)).awaitsEnd = true ∧
      automaton.settle? 8 (.spelled [';']) (mark :: .phrase (partsKind quote) :: mark :: front) =
        some (joining .string 3 :: closing)

/-- Moves through a string in quotes of either kind. -/
def QuotedMoves (automaton : Automaton) (front : List Symbol) (closing : List Reduction) : Prop :=
  ∀ quote ∈ ['\'', '"'], StringMoves automaton front closing quote

/-- Moves from the semicolon to the end of the text. -/
def EndMoves (automaton : Automaton) (front : List Symbol) : Prop :=
  (automaton.expectation (keyword ";" :: front)).isPlain = true ∧
    automaton.settle? 8 (.kind .endOfText) (keyword ";" :: front) =
      some [joining .importStatement (front.length + 1), joining .statement 1,
        joining .statements 1]

/-- What stands in front of the specifier of an import with bindings. -/
def fromOf (typeOnly : Bool) : List Symbol :=
  keyword "from" :: .phrase .importClause :: keywords typeOnly

/-- Moves through what an import binds behind its keywords and a default name. -/
def BindingMoves (automaton : Automaton) (typeOnly preceded : Bool) : Prop :=
  NamespaceMoves automaton typeOnly preceded ∧ BraceMoves automaton typeOnly preceded ∧
    ∀ stage ∈ [Stage.first, .second, .later], ListedMoves automaton typeOnly preceded stage

/-- Moves through an import with bindings, from its keywords to its end. -/
def ClauseMoves (automaton : Automaton) (typeOnly : Bool) : Prop :=
  DefaultMoves automaton typeOnly ∧ (∀ preceded, BindingMoves automaton typeOnly preceded) ∧
    QuotedMoves automaton (fromOf typeOnly) [joining .fromClause 2] ∧
    EndMoves automaton (.phrase .fromClause :: .phrase .importClause :: keywords typeOnly)

/-- All moves through an import. -/
def ImportMoves (automaton : Automaton) : Prop :=
  KeywordMoves automaton ∧ (∀ typeOnly, ClauseMoves automaton typeOnly) ∧
    QuotedMoves automaton (keywords false) [] ∧ EndMoves automaton (.phrase .string :: keywords false)

section

variable (automaton : Automaton) (typeOnly preceded : Bool) (stage : Stage) (front : List Symbol)
  (closing : List Reduction) (quote : Char)

instance : Decidable (KeywordMoves automaton) :=
  inferInstanceAs (Decidable (_ ∧ _))

instance : Decidable (DefaultMoves automaton typeOnly) :=
  inferInstanceAs (Decidable (_ ∧ _ ∧ _))

instance : Decidable (NamespaceMoves automaton typeOnly preceded) :=
  inferInstanceAs (Decidable (_ ∧ _ ∧ _ ∧ _))

instance : Decidable (ListedMoves automaton typeOnly preceded stage) :=
  inferInstanceAs (Decidable (_ ∧ _ ∧ _ ∧ _))

instance : Decidable (BraceMoves automaton typeOnly preceded) :=
  inferInstanceAs (Decidable (_ ∧ _ ∧ _))

instance : Decidable (StringMoves automaton front closing quote) :=
  inferInstanceAs (Decidable (_ ∧ (_ ∧ _ ∧ _) ∧ (_ ∧ _) ∧ (_ ∧ _) ∧ _ ∧ _))

instance : Decidable (QuotedMoves automaton front closing) :=
  List.decidableBAll _ _

instance : Decidable (EndMoves automaton front) :=
  inferInstanceAs (Decidable (_ ∧ _))

instance : Decidable (BindingMoves automaton typeOnly preceded) :=
  inferInstanceAs (Decidable (_ ∧ _ ∧ ∀ stage ∈ _, ListedMoves automaton typeOnly preceded stage))

instance : Decidable (ClauseMoves automaton typeOnly) :=
  inferInstanceAs (Decidable (_ ∧ (∀ preceded, BindingMoves automaton typeOnly preceded) ∧ _ ∧ _))

instance : Decidable (ImportMoves automaton) :=
  inferInstanceAs (Decidable (_ ∧ (∀ typeOnly, ClauseMoves automaton typeOnly) ∧ _ ∧ _))

end

theorem importMoves_typeScript : ImportMoves typeScriptAutomaton := by
  decide +kernel

end CodeSplice.Syntax
