/-
Module: CodeSplice.Edit.Basic
Purpose: Structural edits of a document. Applying an edit to a document that has its result already
  changes nothing, and an anchor that is missing is never an error: each edit has places to fall back
  to. An edit of a class fails if the document has no class of that name.
Main exports: Edit, Edit.apply, Edit.describe, Edit.kind, Edit.tiers
-/
import CodeSplice.Edit.Class
import CodeSplice.Edit.Import
import CodeSplice.Fault

namespace CodeSplice

/-- A structural edit. -/
inductive Edit where
  /-- Put an import where it belongs. -/
  | placeImport (edit : ImportEdit)
  /-- Add a name to an import. -/
  | bindName (edit : BindingEdit)
  /-- Insert a method. -/
  | addMethod (edit : MethodEdit)
  /-- Insert a call into the constructor. -/
  | addCall (edit : CallEdit)
deriving DecidableEq, Repr, Inhabited

/-- What an edit is about. Edits of one kind are applied together. -/
inductive EditKind where
  | imports
  | method
  | constructor
deriving DecidableEq, Repr, Inhabited

namespace Edit

/-- The kind of an edit. -/
def kind : Edit → EditKind
  | placeImport _ => .imports
  | bindName _ => .imports
  | addMethod _ => .method
  | addCall _ => .constructor

/-- How messages refer to an edit. -/
def describe : Edit → String
  | placeImport edit => (Anchor.mk .imported edit.declaration.specifier).describe
  | bindName edit => "bind " ++ edit.name ++ " from '" ++ edit.specifier ++ "'"
  | addMethod edit => (Anchor.mk .method edit.draft.name).describe
  | addCall edit => "constructor " ++ (Anchor.mk .call edit.draft.method).describe

/-- Apply an edit of a class to the first class of the given name. -/
def applyToClass (document : Document) (name : String)
    (edit : ClassDeclaration → Outcome × ClassDeclaration) : Except Fault (Outcome × Document) :=
  match document.class? name with
  | none => .error (.missingClass name)
  | some declaration =>
    let (outcome, declaration) := edit declaration
    .ok (outcome, document.setClass name declaration)

/-- Apply an edit to a document; `target` names the class that edits of a class are about. -/
def apply (edit : Edit) (document : Document) (target : String) :
    Except Fault (Outcome × Document) :=
  match edit with
  | placeImport edit => .ok (edit.apply document)
  | bindName edit => .ok (edit.apply document)
  | addMethod edit => applyToClass document target edit.apply
  | addCall edit => applyToClass document target edit.apply

/-- The placement that an edit has if its anchor of first choice exists. -/
def preferred? : Edit → Option Placement
  | placeImport edit => edit.after.map .after
  | bindName _ => none
  | addMethod edit => edit.before.map .before
  | addCall edit =>
    match edit.before with
    | some name => some (.before name)
    | none => edit.after.map .after

/-- Where an edit goes, in words, in the order of its choices. -/
def tiers : Edit → List String
  | placeImport edit =>
    (edit.after.map fun name => "after " ++ (Anchor.mk .imported name).describe).toList ++
      ["after the last import", "at the top of the file"]
  | bindName edit => ["into " ++ (Anchor.mk .imported edit.specifier).describe]
  | addMethod edit =>
    (edit.before.map fun name => "before " ++ (Anchor.mk .method name).describe).toList ++
      ["at the end of the class"]
  | addCall edit =>
    (edit.before.map fun name => "before " ++ (Anchor.mk .call name).describe).toList ++
      (edit.after.map fun name => "after " ++ (Anchor.mk .call name).describe).toList ++
      ["at the end of the constructor"]

end Edit

end CodeSplice
