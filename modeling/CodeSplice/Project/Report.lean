/-
Module: CodeSplice.Project.Report
Purpose: Reports on the work done. A report is a list of lines that say what kind they are of; how they
  look is decided where they are written.
Main exports: ReportLine, planReport, checkReport, injectReport, ReportLine.onScreen
-/
import CodeSplice.Project.Basic

namespace CodeSplice

/-- A line of a report. -/
inductive ReportLine where
  /-- The heading of a list. -/
  | heading (name : String)
  | keyValue (key value : String)
  | numbered (index : Nat) (text : String)
  /-- More about a numbered item. -/
  | detail (text : String)
  /-- An edit that was made, or would be. -/
  | added (text : String)
  | warning (text : String)
  /-- A rule with a label. -/
  | divider (label : String)
  /-- Text that is written as it is. -/
  | preformatted (text : String)
  | empty
deriving DecidableEq, Repr, Inhabited

/-- The places that an edit may go to, one a line. -/
def tierLines : List String → List ReportLine
  | [] => []
  | first :: rest => .detail first :: rest.map fun tier => .detail ("else " ++ tier)

/-- Numbered edits with the places that they may go to, counted from `index`. -/
def editLines (index : Nat) : List Edit → List ReportLine
  | [] => []
  | edit :: edits =>
    .numbered index edit.describe :: tierLines edit.tiers ++ editLines (index + 1) edits

/-- What a feature would do to a project. -/
def planReport (config : Config) (feature : Feature) : List ReportLine :=
  let edits := (feature.plan config).edits
  [ .keyValue "Feature" feature.name,
    .keyValue "Target" (config.target.file ++ " (class " ++ config.target.className ++ ")"),
    .empty,
    .heading ("Edits (" ++ toString edits.length ++ ")") ] ++ editLines 1 edits

/-- Whether a trial has shown that the feature is missing. -/
def FileOutcome.needsPatch (outcome : FileOutcome) : Bool :=
  match outcome.action with
  | .pending _ _ => true
  | _ => false

/-- Whether a feature is there already, by the outcome of a trial. -/
def checkReport (feature : Feature) (outcome : FileOutcome) : List ReportLine :=
  outcome.warnings.map .warning ++
    match outcome.action with
    | .skipped => [.preformatted (outcome.path ++ " not found, nothing to check")]
    | .unchanged | .written _ => [.preformatted ("✓ " ++ outcome.path ++ " has " ++ feature.name)]
    | .pending _ _ =>
      .preformatted ("✗ " ++ outcome.path ++ " is missing " ++ feature.name) ::
        outcome.changes.map .added ++
        [.empty, .preformatted "Run `graft inject` to apply."]

/-- What adding a feature has come to. -/
def injectReport (feature : Feature) (outcome : FileOutcome) : List ReportLine :=
  outcome.warnings.map .warning ++
    match outcome.action with
    | .skipped => [.preformatted ("Skipped " ++ outcome.path ++ ": file not found")]
    | .unchanged => [.preformatted (outcome.path ++ " already has " ++ feature.name)]
    | .written _ => .keyValue "Patched" outcome.path :: outcome.changes.map .added
    | .pending _ content =>
      let count := outcome.changes.length
      [ .divider outcome.path,
        .preformatted (String.ofList (Text.trimEnd content.toList)),
        .divider "Summary",
        .preformatted (toString count ++ " edit" ++ (if count = 1 then "" else "s") ++
          " would be applied") ]

/-- How a line looks on a screen. A warning goes another way than the rest. -/
def ReportLine.onScreen : ReportLine → String
  | .heading name => name ++ ":"
  | .keyValue key value => key ++ ": " ++ value
  | .numbered index text => "  " ++ toString index ++ ". " ++ text
  | .detail text => "       " ++ text
  | .added text => "  + " ++ text
  | .warning text => "warning: " ++ text
  | .divider label => "── " ++ label ++ " ──"
  | .preformatted text => text
  | .empty => ""

/-- Whether a line is a warning. -/
def ReportLine.isWarning : ReportLine → Bool
  | .warning _ => true
  | _ => false

end CodeSplice
