/-
Module: CodeSplice.Command.Basic
Purpose: What the commands do: they work on the files of a project and reply with what is to be shown and
  with an exit code. A command that finds something to do, where it was only asked to look, exits with
  one; so does one that fails. Arguments that make no sense give the code two.
Main exports: Reply, Command.perform, performArguments
-/
import CodeSplice.Command.Arguments
import CodeSplice.Project.Report

namespace CodeSplice

/-- What the program replies. -/
structure Reply where
  code : Nat := 0
  /-- The lines of the output. -/
  output : List String := []
  /-- The lines of warnings and complaints. -/
  complaints : List String := []
  /-- The fault that has stopped the command. -/
  fault : Option Fault := none
deriving DecidableEq, Repr, Inhabited

namespace Reply

/-- The output as text. -/
def text (reply : Reply) : String :=
  String.join (reply.output.map (· ++ "\n"))

/-- Show a report. -/
def ofReport (code : Nat) (lines : List ReportLine) : Reply where
  code := code
  output := (lines.filter (!·.isWarning)).map (·.onScreen)
  complaints := (lines.filter (·.isWarning)).map (·.onScreen)

/-- Say that a fault has stopped the command. -/
def ofFault (fault : Fault) : Reply where
  code := 1
  fault := some fault

/-- Say what formatting a file has come to. -/
def ofFormat (trial : Bool) (outcome : FileOutcome) : Reply :=
  match outcome.action with
  | .skipped => { code := 1, complaints := ["error: " ++ outcome.path ++ " not found"] }
  | .pending _ _ =>
    { code := 1
      complaints :=
        ["error: " ++ outcome.path ++ " is not formatted", "Run `graft fmt` to fix."] }
  | .unchanged =>
    { output := [outcome.path ++ (if trial then " is formatted" else " is already formatted")] }
  | .written _ => { output := ["Formatted " ++ outcome.path] }

end Reply

/-- Perform a command on the files. -/
def Command.perform (command : Command) (tree : FileTree) : Reply × FileTree :=
  let work (directory : String) (act : Config → Reply × FileTree) : Reply × FileTree :=
    match Config.load tree directory with
    | .ok config => act config
    | .error fault => (.ofFault fault, tree)
  let reply (tell : FileOutcome → Reply) (done : Except Fault FileOutcome × FileTree) :
      Reply × FileTree :=
    match done with
    | (.ok outcome, tree) => (tell outcome, tree)
    | (.error fault, tree) => (.ofFault fault, tree)
  match command with
  | inject directory feature trial =>
    work directory fun config =>
      reply (fun outcome => .ofReport 0 (injectReport feature outcome))
        (CodeSplice.inject tree config feature trial directory)
  | check directory feature =>
    work directory fun config =>
      reply
        (fun outcome =>
          .ofReport (if outcome.needsPatch then 1 else 0) (checkReport feature outcome))
        (CodeSplice.inject tree config feature true directory)
  | format directory trial =>
    work directory fun config =>
      reply (.ofFormat trial) (formatFile tree config trial (config.targetPath directory))
  | plan directory feature =>
    work directory fun config => (.ofReport 0 (planReport config feature), tree)

/-- The line that tells the version of the program. -/
def versionLine : String := "graft 0.3.0"

/-- Do what arguments ask for. -/
def performArguments (arguments : List String) (tree : FileTree) : Reply × FileTree :=
  match Invocation.ofArguments? arguments with
  | none => ({ code := 2 }, tree)
  | some .version => ({ output := [versionLine] }, tree)
  | some (.run command) => command.perform tree

end CodeSplice
