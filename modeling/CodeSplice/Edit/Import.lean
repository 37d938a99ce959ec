/-
Module: CodeSplice.Edit.Import
Purpose: The edits of imports. One puts the import of a module where it belongs, so that no other one of
  that module remains; one adds a name to an import that exists.
Main exports: ImportEdit, ImportEdit.apply, BindingEdit, BindingEdit.apply
-/
import CodeSplice.Edit.Anchor
import CodeSplice.Edit.Insertion
import CodeSplice.Edit.Outcome

namespace CodeSplice

/-- Insert an import, or move an import of the same module to where it belongs. -/
structure ImportEdit where
  declaration : ImportDeclaration
  /-- The module whose import it follows. -/
  after : Option String := none
deriving DecidableEq, Repr, Inhabited

namespace ImportEdit

/-- The items that remain when the imports of the edit's own module are taken away. -/
def others (edit : ImportEdit) (document : Document) : List (Entry Item) :=
  document.items.filter fun entry => !entry.node.imports edit.declaration.specifier

/-- The first import of the edit's own module. -/
def previous? (edit : ImportEdit) (document : Document) : Option (Entry Item) :=
  document.items.find? (·.node.imports edit.declaration.specifier)

/-- The position among the other items, and the rule that gives it: behind the anchor, else behind the
last import, else at the start. -/
def place (edit : ImportEdit) (others : List (Entry Item)) : Nat × Placement :=
  let anchored := edit.after.bind fun name =>
    (resolve (·.answers ⟨.imported, name⟩) others).map fun index => (index + 1, Placement.after name)
  match anchored with
  | some found => found
  | none =>
    match lastIndex? (·.node.import?.isSome) others with
    | some last => (last + 1, .atEnd)
    | none => (0, .atStart)

/-- The entry to insert. It keeps the comments of the import that it replaces. -/
def entry (edit : ImportEdit) (previous : Option (Entry Item)) : Entry Item where
  comments := (previous.map (·.comments)).getD []
  node := .importing edit.declaration
  trailing := previous.bind (·.trailing)

/-- Apply the edit. -/
def apply (edit : ImportEdit) (document : Document) : Outcome × Document :=
  let others := edit.others document
  let previous := edit.previous? document
  let (index, placement) := edit.place others
  let items := others.insertIdx index (edit.entry previous)
  let outcome : Outcome :=
    if previous.isNone then .inserted placement
    else if items = document.items then .alreadyPresent
    else .moved placement
  (outcome, { document with items })

end ImportEdit

/-- Add a name to the bindings of an import. -/
structure BindingEdit where
  specifier : String
  name : String
deriving DecidableEq, Repr, Inhabited

namespace BindingEdit

/-- Why an import cannot take one more name. -/
def obstacle? (declaration : ImportDeclaration) : Option String :=
  if declaration.namespaceName.isSome then some "is a namespace import"
  else if declaration.isRequire then some "is a require import"
  else if declaration.verbatim.isSome then some "has comments outside its bindings"
  else none

/-- Apply the edit to the first import of the module. -/
def apply (edit : BindingEdit) (document : Document) : Outcome × Document :=
  match document.import? edit.specifier with
  | none => (.skipped ("no import of '" ++ edit.specifier ++ "'"), document)
  | some declaration =>
    if declaration.binds edit.name then (.alreadyPresent, document)
    else
      match obstacle? declaration with
      | some reason =>
        (.skipped ("import of '" ++ edit.specifier ++ "' " ++ reason), document)
      | none =>
        (.inserted .atEnd, document.setImport edit.specifier (declaration.pushNamed edit.name))

end BindingEdit

end CodeSplice
