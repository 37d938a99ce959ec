/-
Module: CodeSplice.Project.Outcome
Purpose: What patching or formatting a file of a project came to.
Main exports: FileAction, FileOutcome
-/
import CodeSplice.Patch.Run

namespace CodeSplice

/-- What was done with a file. -/
inductive FileAction where
  /-- There is no such file. -/
  | skipped
  /-- The file has the right content already. -/
  | unchanged
  /-- The file was given a new content. -/
  | written (applied : List AppliedEdit)
  /-- The file would be given a new content, but this is a trial. -/
  | pending (applied : List AppliedEdit) (content : String)
deriving DecidableEq, Repr, Inhabited

/-- What patching or formatting a file came to. -/
structure FileOutcome where
  path : String
  diagnostics : List Diagnostic := []
  action : FileAction
deriving DecidableEq, Repr, Inhabited

namespace FileOutcome

/-- The state that the run ended in. -/
def state (outcome : FileOutcome) : RunState :=
  match outcome.action with
  | .skipped => .skipped
  | .unchanged => .saved
  | .written _ => .saved
  | .pending _ _ => .constructorPatched

/-- Whether the file was given a new content, or would be. -/
def changesFile (outcome : FileOutcome) : Bool :=
  match outcome.action with
  | .skipped => false
  | .unchanged => false
  | .written _ => true
  | .pending _ _ => true

/-- The edits that were made in the file, or would be. -/
def applied (outcome : FileOutcome) : List AppliedEdit :=
  match outcome.action with
  | .skipped => []
  | .unchanged => []
  | .written applied => applied
  | .pending applied _ => applied

/-- The edits that have changed the file, or would change it, in words. -/
def changes (outcome : FileOutcome) : List String :=
  (outcome.applied.filter (·.outcome.changed)).map (·.describe)

/-- The messages of the warnings. -/
def warnings (outcome : FileOutcome) : List String :=
  (outcome.diagnostics.filter (·.isWarning)).map (·.message)

end FileOutcome

end CodeSplice
