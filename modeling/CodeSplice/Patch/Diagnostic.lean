/-
Module: CodeSplice.Patch.Diagnostic
Purpose: What is reported about an edit that was applied. An edit that was skipped, or that missed the
  anchor it names first, gives a warning; every other edit is reported for information.
Main exports: Severity, Diagnostic, Diagnostic.ofEdit
-/
import CodeSplice.Edit.Basic

namespace CodeSplice

/-- How much a diagnostic matters. -/
inductive Severity where
  | warning
  | info
deriving DecidableEq, Repr, Inhabited

namespace Severity

/-- How messages refer to a severity. -/
def describe : Severity → String
  | warning => "warning"
  | info => "info"

end Severity

/-- What is reported about an edit. -/
structure Diagnostic where
  severity : Severity
  /-- The name of the phase that applied the edit. -/
  phase : String
  message : String
  /-- The class that the run is about. -/
  location : Option String := none
deriving DecidableEq, Repr, Inhabited

/-- How messages refer to an anchor that was not found. -/
def Placement.wanted : Placement → String
  | .after anchor => "anchor '" ++ anchor ++ "'"
  | .before anchor => "anchor '" ++ anchor ++ "'"
  | other => other.describe

namespace Diagnostic

/-- Whether a diagnostic is a warning. -/
def isWarning (diagnostic : Diagnostic) : Bool :=
  diagnostic.severity == .warning

/-- A diagnostic on one line. -/
def describe (diagnostic : Diagnostic) : String :=
  diagnostic.severity.describe ++ " [" ++ diagnostic.phase ++ "]: " ++ diagnostic.message ++
    ((diagnostic.location.map fun name => " (in class " ++ name ++ ")").getD "")

/-- Report what an edit did. -/
def ofEdit (phase location : String) (edit : Edit) (outcome : Outcome) : Diagnostic :=
  let report (severity : Severity) (text : String) : Diagnostic :=
    { severity, phase, message := edit.describe ++ ": " ++ text, location := some location }
  match outcome with
  | .alreadyPresent => report .info outcome.describe
  | .skipped reason => report .warning ("skipped, " ++ reason)
  | .inserted placement | .moved placement =>
    match edit.preferred? with
    | some wanted =>
      if wanted = placement then report .info outcome.describe
      else report .warning (wanted.wanted ++ " not found, placed " ++ placement.describe)
    | none => report .info outcome.describe

end Diagnostic

end CodeSplice
