/-
Module: CodeSplice.Edit.Insertion
Purpose: How an entry is put between others. Inserting keeps the order and the content of the entries
  that are there; only the blank line in front of a neighbour may change.
Main exports: insertEntry, takeOver, updateFirst
-/
import CodeSplice.Document.Basic

namespace CodeSplice

variable {α : Type}

/-- Insert an entry at a position. A first entry that is displaced is set off by a blank line. -/
def insertEntry (entries : List (Entry α)) (index : Nat) (entry : Entry α) : List (Entry α) :=
  match index, entries with
  | 0, first :: rest => entry :: first.setLeadingBlank true :: rest
  | index, entries => entries.insertIdx index entry

/-- Insert an entry at the position of another one, whose blank line passes to it. -/
def takeOver (entry : Entry α) : Nat → List (Entry α) → List (Entry α)
  | _, [] => [entry]
  | 0, successor :: rest =>
    { entry with blankBefore := successor.leadingBlank } :: successor.setLeadingBlank false :: rest
  | index + 1, other :: rest => other :: takeOver entry index rest

/-- Change the node of the first entry that has a property. -/
def updateFirst (p : α → Bool) (f : α → α) : List (Entry α) → List (Entry α)
  | [] => []
  | entry :: entries =>
    if p entry.node then { entry with node := f entry.node } :: entries
    else entry :: updateFirst p f entries

@[simp] theorem length_updateFirst (p : α → Bool) (f : α → α) (entries : List (Entry α)) :
    (updateFirst p f entries).length = entries.length := by
  induction entries with
  | nil => rfl
  | cons entry entries ih =>
    simp only [updateFirst]
    split <;> simp [ih]

/-- Put another constructor in the place of the first one. -/
def ClassDeclaration.setConstructor (declaration : ClassDeclaration) (constructor : Constructor) :
    ClassDeclaration :=
  { declaration with
    members := updateFirst (·.constructor?.isSome) (fun _ => .constructor constructor)
      declaration.members }

namespace Document

/-- Put another class in the place of the first one of the given name. -/
def setClass (document : Document) (name : String) (declaration : ClassDeclaration) : Document :=
  { document with
    items := updateFirst (·.isClass name) (fun _ => .classlike declaration) document.items }

/-- Put another declaration in the place of the first import of a module. -/
def setImport (document : Document) (specifier : String) (declaration : ImportDeclaration) :
    Document :=
  { document with
    items := updateFirst (·.imports specifier) (fun _ => .importing declaration) document.items }

end Document

end CodeSplice
