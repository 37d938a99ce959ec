/-
Module: CodeSplice.Command.Arguments
Purpose: The commands of the program, and how they are given as arguments. Options may stand before or
  behind the directory; none but the one for verbosity may be given twice.
Main exports: Command, Invocation, Invocation.ofArguments?
-/
import CodeSplice.Feature.Basic

namespace CodeSplice

/-- A command. Every one is about the project in a directory. -/
inductive Command where
  /-- Add a feature; `trial` shows the result instead of writing it. -/
  | inject (directory : String) (feature : Feature) (trial : Bool)
  /-- Tell whether a feature is there. -/
  | check (directory : String) (feature : Feature)
  /-- Bring the target file into canonical form; `trial` only tells whether it is. -/
  | format (directory : String) (trial : Bool)
  /-- Tell what a feature would do. -/
  | plan (directory : String) (feature : Feature)
deriving DecidableEq, Repr, Inhabited

/-- What the program is asked for. -/
inductive Invocation where
  | version
  | run (command : Command)
deriving DecidableEq, Repr, Inhabited

/-- The options that a command knows. -/
structure Options where
  /-- Whether a feature can be named. -/
  takesFeature : Bool := true
  /-- The name of the option that makes the command a trial. -/
  trialName : Option String := none
deriving DecidableEq, Repr, Inhabited

/-- The arguments of a command that have been read. -/
structure Arguments where
  directory : Option String := none
  feature : Option Feature := none
  trial : Bool := false
deriving DecidableEq, Repr, Inhabited

namespace Arguments

/-- Whether an argument is an option, to judge by its first character. -/
def isOption (argument : String) : Bool :=
  argument.startsWith "-" && argument != "-"

/-- Take an argument for the directory. -/
def setDirectory? (arguments : Arguments) (directory : String) : Option Arguments :=
  if arguments.directory.isSome || directory.isEmpty then none
  else some { arguments with directory }

/-- Take an argument for the name of the feature. -/
def setFeature? (arguments : Arguments) (name : String) : Option Arguments :=
  if arguments.feature.isSome then none
  else (Feature.ofName? name).map fun feature => { arguments with feature }

/-- Take an argument for the option that makes the command a trial. -/
def setTrial? (arguments : Arguments) : Option Arguments :=
  if arguments.trial then none else some { arguments with trial := true }

/-- A cluster of options of one letter: either it asks for verbosity only, or its last option takes a
value, which may follow at once. -/
inductive Cluster where
  | verbosity
  | feature (value : Option String)
deriving DecidableEq, Repr, Inhabited

/-- Read a cluster of options from behind its dash. -/
def cluster? : List Char → Option Cluster
  | [] => some .verbosity
  | 'v' :: cs => cluster? cs
  | 'f' :: cs =>
    match cs with
    | [] => some (.feature none)
    | '=' :: cs => some (.feature (some (String.ofList cs)))
    | cs => some (.feature (some (String.ofList cs)))
  | _ => none

/-- A long option and the value given with it. -/
def longOption (argument : String) : String × Option String :=
  let cs := argument.toList.drop 2
  let name := String.ofList (cs.takeWhile (· != '='))
  match cs.dropWhile (· != '=') with
  | [] => (name, none)
  | _ :: value => (name, some (String.ofList value))

/-- The arguments behind two dashes: none of them is an option. -/
def directories? (arguments : Arguments) : List String → Option Arguments
  | [] => some arguments
  | argument :: rest => (arguments.setDirectory? argument).bind (·.directories? rest)

/-- Read the arguments of a command. `wanting` tells that the next one is the name of a feature. -/
def read? (options : Options) (arguments : Arguments) (wanting : Bool) :
    List String → Option Arguments
  | [] => if wanting then none else some arguments
  | argument :: rest =>
    if wanting then
      if isOption argument then none
      else (arguments.setFeature? argument).bind fun a => read? options a false rest
    else if argument == "--" then arguments.directories? rest
    else if argument.startsWith "--" then
      match longOption argument with
      | ("verbose", none) => read? options arguments false rest
      | ("feature", value) =>
        if !options.takesFeature then none
        else
          match value with
          | none => read? options arguments true rest
          | some name => (arguments.setFeature? name).bind fun a => read? options a false rest
      | (name, none) =>
        if options.trialName == some name then
          arguments.setTrial?.bind fun a => read? options a false rest
        else none
      | (_, some _) => none
    else if isOption argument then
      match cluster? (argument.toList.drop 1) with
      | none => none
      | some .verbosity => read? options arguments false rest
      | some (.feature value) =>
        if !options.takesFeature then none
        else
          match value with
          | none => read? options arguments true rest
          | some name => (arguments.setFeature? name).bind fun a => read? options a false rest
    else (arguments.setDirectory? argument).bind fun a => read? options a false rest

end Arguments

namespace Command

/-- The command of the given name with its arguments. -/
def ofArguments? (name : String) (arguments : List String) : Option Command :=
  let read (options : Options) (make : String → Feature → Bool → Command) : Option Command :=
    (Arguments.read? options {} false arguments).map fun a =>
      make (a.directory.getD ".") (a.feature.getD .apiDocs) a.trial
  match name with
  | "inject" => read { trialName := some "dry-run" } .inject
  | "check" => read {} fun directory feature _ => .check directory feature
  | "fmt" =>
    read { takesFeature := false, trialName := some "check" } fun directory _ trial =>
      .format directory trial
  | "plan" => read {} fun directory feature _ => .plan directory feature
  | _ => none

end Command

/-- What letters behind a dash ask for in front of the command: the version, or nothing. -/
def versionAsked? : List Char → Option Bool
  | [] => some false
  | 'v' :: cs => versionAsked? cs
  | 'V' :: _ => some true
  | _ => none

/-- What arguments ask the program for, if they make sense. -/
def Invocation.ofArguments? : List String → Option Invocation
  | [] => none
  | argument :: rest =>
    if argument == "--version" then some .version
    else if argument == "--verbose" then Invocation.ofArguments? rest
    else if argument.startsWith "--" then none
    else if Arguments.isOption argument then
      match versionAsked? (argument.toList.drop 1) with
      | none => none
      | some true => some .version
      | some false => Invocation.ofArguments? rest
    else (Command.ofArguments? argument rest).map .run

end CodeSplice
