/-
Module: CodeSplice.Project.Basic
Purpose: Work on the files of a project: reading its configuration, and patching or formatting its target
  file. A trial writes nothing and tells what would be written.
Main exports: Config.load, patchFile, formatFile, inject
-/
import CodeSplice.Config.Reading
import CodeSplice.Files.Tree
import CodeSplice.Patch.Source
import CodeSplice.Project.Outcome

namespace CodeSplice

/-- The name of the configuration file in the directory of a project. -/
def configFile : String := "graft.toml"

/-- The configuration of the project in a directory; all defaults if it has none. -/
def Config.load (tree : FileTree) (directory : String) : Except Fault Config :=
  let path := joinPath directory configFile
  match tree.read path with
  | .missing => .ok {}
  | .unreadable => .error (.unreadable path)
  | .text text => Config.ofText text

/-- The document at a path, if there is a file. -/
def Document.load (tree : FileTree) (path : String) : Except Fault (Option Document) :=
  match tree.read path with
  | .missing => .ok none
  | .unreadable => .error (.unreadable path)
  | .text text => (Document.ofSource path text).map some

/-- Save a document at a path. -/
def Document.save (document : Document) (tree : FileTree) (path : String) (style : Layout.Style) :
    Except Fault Saved × FileTree :=
  match tree.save path (document.render style) with
  | (some saved, tree) => (.ok saved, tree)
  | (none, tree) => (.error (.unwritable path), tree)

/-- A new content for a file, with what led to it. -/
structure Revision where
  content : String
  diagnostics : List Diagnostic := []
  applied : List AppliedEdit := []
deriving DecidableEq, Repr, Inhabited

/-- Revise the file at a path, or try it. -/
def reviseFile (tree : FileTree) (trial : Bool) (path : String)
    (revise : String → Except Fault Revision) : Except Fault FileOutcome × FileTree :=
  match tree.read path with
  | .missing => (.ok { path, action := .skipped }, tree)
  | .unreadable => (.error (.unreadable path), tree)
  | .text source =>
    match revise source with
    | .error fault => (.error fault, tree)
    | .ok result =>
      let outcome (action : FileAction) : FileOutcome :=
        { path, diagnostics := result.diagnostics, action }
      if trial then
        if result.content = source then (.ok (outcome .unchanged), tree)
        else (.ok (outcome (.pending result.applied result.content)), tree)
      else
        match tree.save path result.content with
        | (none, tree) => (.error (.unpatched path), tree)
        | (some .unchanged, tree) => (.ok (outcome .unchanged), tree)
        | (some .written, tree) => (.ok (outcome (.written result.applied)), tree)

/-- Add a feature to the file at a path. -/
def patchFile (tree : FileTree) (config : Config) (feature : Feature) (trial : Bool)
    (path : String) : Except Fault FileOutcome × FileTree :=
  reviseFile tree trial path fun source =>
    (feature.addTo config path source).map fun run =>
      { content := run.document.render config.style.toStyle
        diagnostics := run.diagnostics
        applied := run.applied }

/-- Bring the file at a path into canonical form. -/
def formatFile (tree : FileTree) (config : Config) (trial : Bool) (path : String) :
    Except Fault FileOutcome × FileTree :=
  reviseFile tree trial path fun source =>
    (Document.ofSource path source).map fun document =>
      { content := document.render config.style.toStyle }

/-- The path of the target file of the project in a directory. -/
def Config.targetPath (config : Config) (directory : String) : String :=
  joinPath directory config.target.file

/-- Add a feature to the target file of the project in a directory. -/
def inject (tree : FileTree) (config : Config) (feature : Feature) (trial : Bool)
    (directory : String) : Except Fault FileOutcome × FileTree :=
  patchFile tree config feature trial (config.targetPath directory)

end CodeSplice
