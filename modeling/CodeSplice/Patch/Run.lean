/-
Module: CodeSplice.Patch.Run
Purpose: Running a plan on a document. A run goes through three phases, each of which applies the
  plan's edits of one kind; later phases see what earlier ones did. Before the first phase, the class
  that the plan is about has to exist.
Main exports: Run, Phase, Phase.run, Run.start, patch
-/
import CodeSplice.Feature.Basic
import CodeSplice.Patch.Diagnostic
import CodeSplice.Patch.State

namespace CodeSplice

/-- An edit and what applying it did. -/
structure AppliedEdit where
  edit : Edit
  outcome : Outcome
deriving DecidableEq, Repr, Inhabited

/-- How messages refer to an edit that was applied. -/
def AppliedEdit.describe (applied : AppliedEdit) : String :=
  applied.edit.describe ++ " (" ++ applied.outcome.describe ++ ")"

/-- A run of a plan. -/
structure Run where
  /-- The document as it is now. -/
  document : Document
  plan : Plan
  /-- The class that the plan is about. -/
  target : String
  state : RunState := .loaded
  diagnostics : List Diagnostic := []
  /-- Every edit that was applied, in order. -/
  applied : List AppliedEdit := []
deriving DecidableEq, Repr, Inhabited

namespace Run

/-- Whether an edit has changed the document. -/
def changed (run : Run) : Bool :=
  run.applied.any (·.outcome.changed)

/-- The warnings of a run. -/
def warnings (run : Run) : List Diagnostic :=
  run.diagnostics.filter (·.isWarning)

/-- Try to go to another state; if that is not allowed, nothing happens. -/
def advance (run : Run) (next : RunState) : Run :=
  { run with state := run.state.advance next }

end Run

/-- A part of a run, which applies the edits of one kind. -/
inductive Phase where
  | imports
  | method
  | constructor
deriving DecidableEq, Repr, Inhabited

namespace Phase

/-- The phases in the order in which they run. -/
def all : List Phase := [imports, method, constructor]

/-- The name of a phase. -/
def name : Phase → String
  | imports => "imports"
  | method => "method"
  | constructor => "constructor"

/-- What a phase does. -/
def description : Phase → String
  | imports => "insert and reposition import declarations"
  | method => "insert class methods"
  | constructor => "insert constructor statements"

/-- The kind of edit that a phase applies. -/
def kind : Phase → EditKind
  | imports => .imports
  | method => .method
  | constructor => .constructor

/-- The state that a phase ends in. -/
def completes : Phase → RunState
  | imports => .importsPatched
  | method => .methodPatched
  | constructor => .constructorPatched

/-- Apply edits one after another. A fault stops the phase; what was done before it is kept. -/
def applyAll (phase : Phase) (run : Run) : List Edit → Run × Option Fault
  | [] => (run, none)
  | edit :: edits =>
    match edit.apply run.document run.target with
    | .error fault => (run, some fault)
    | .ok (outcome, document) =>
      phase.applyAll
        { run with
          document
          diagnostics := run.diagnostics ++ [.ofEdit phase.name run.target edit outcome]
          applied := run.applied ++ [{ edit, outcome }] }
        edits

/-- Run a phase. The state advances only if no fault stopped the phase. -/
def run (phase : Phase) (r : Run) : Run × Option Fault :=
  match phase.applyAll r (r.plan.editsOf phase.kind) with
  | (r, none) => (r.advance phase.completes, none)
  | (r, some fault) => (r, some fault)

/-- Run phases in order until one is stopped by a fault. -/
def runAll (r : Run) : List Phase → Except Fault Run
  | [] => .ok r
  | phase :: phases =>
    match phase.run r with
    | (r, none) => runAll r phases
    | (_, some fault) => .error fault

end Phase

/-- Run a plan on a document. -/
def patch (document : Document) (plan : Plan) (target : String) : Except Fault Run :=
  match document.class? target with
  | none => .error (.missingTarget target document.name)
  | some _ => Phase.runAll { document, plan, target } Phase.all

end CodeSplice
