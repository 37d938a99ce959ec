/-
Module: CodeSplice.Edit.Outcome
Purpose: What an edit did to a document, and where it put its node.
Main exports: Placement, Outcome, Outcome.changed
-/

namespace CodeSplice

/-- Where an edit put its node. -/
inductive Placement where
  /-- Directly behind the anchor of that name. -/
  | after (anchor : String)
  /-- Directly before the anchor of that name. -/
  | before (anchor : String)
  /-- At the end of the container; for an import, behind the last import. -/
  | atEnd
  /-- At the start of the container. -/
  | atStart
  /-- In a constructor made for the edit. -/
  | newConstructor
deriving DecidableEq, Repr, Inhabited

namespace Placement

/-- How messages refer to a placement. -/
def describe : Placement → String
  | after anchor => "after " ++ anchor
  | before anchor => "before " ++ anchor
  | atEnd => "at end"
  | atStart => "at start"
  | newConstructor => "in new constructor"

end Placement

/-- What applying an edit did. -/
inductive Outcome where
  /-- The node was added. -/
  | inserted (placement : Placement)
  /-- The node was there and has moved to where the edit wants it. -/
  | moved (placement : Placement)
  /-- The document had the node already. -/
  | alreadyPresent
  /-- The edit cannot be applied to this document. -/
  | skipped (reason : String)
deriving DecidableEq, Repr, Inhabited

namespace Outcome

/-- Whether the document is another one now. -/
def changed : Outcome → Bool
  | inserted _ => true
  | moved _ => true
  | alreadyPresent => false
  | skipped _ => false

/-- Where the edit put its node, if it put it anywhere. -/
def placement? : Outcome → Option Placement
  | inserted placement => some placement
  | moved placement => some placement
  | alreadyPresent => none
  | skipped _ => none

/-- How messages refer to an outcome. -/
def describe : Outcome → String
  | inserted placement => "inserted " ++ placement.describe
  | moved placement => "moved " ++ placement.describe
  | alreadyPresent => "already present"
  | skipped reason => "skipped: " ++ reason

/-- An edit has put its node somewhere exactly if it has changed the document. -/
theorem isSome_placement? (outcome : Outcome) : outcome.placement?.isSome = outcome.changed := by
  cases outcome <;> rfl

end Outcome

end CodeSplice
