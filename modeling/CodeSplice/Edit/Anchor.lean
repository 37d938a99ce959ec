/-
Module: CodeSplice.Edit.Anchor
Purpose: Anchors. An anchor names a child of a container by kind and name; edits use it as the place
  next to which they insert. Where several children answer to a name, the first one counts.
Main exports: Anchor, Anchor.describe, resolve, lastIndex?
-/
import CodeSplice.Document.Basic

namespace CodeSplice

/-- What the name of an anchor is compared with. -/
inductive AnchorKind where
  /-- The specifier of an import declaration. -/
  | imported
  /-- The name of a method. -/
  | method
  /-- The method that a statement calls on the object. -/
  | call
deriving DecidableEq, Repr, Inhabited

/-- The child of the given kind and name. -/
structure Anchor where
  kind : AnchorKind
  name : String
deriving DecidableEq, Repr, Inhabited

namespace Anchor

/-- How messages refer to an anchor. -/
def describe (anchor : Anchor) : String :=
  match anchor.kind with
  | .imported => "import '" ++ anchor.name ++ "'"
  | .method => "method " ++ anchor.name ++ "()"
  | .call => "call this." ++ anchor.name ++ "()"

end Anchor

/-! ### Who answers to an anchor

Kinds do not cross: an item answers to imports only, a member to methods only and a statement to calls
only. -/

/-- Whether an item answers to an anchor. -/
def Item.answers (item : Item) (anchor : Anchor) : Bool :=
  anchor.kind == .imported && item.imports anchor.name

/-- Whether a member answers to an anchor. -/
def Member.answers (member : Member) (anchor : Anchor) : Bool :=
  anchor.kind == .method && member.method?.any (·.name == anchor.name)

/-- Whether a statement answers to an anchor. -/
def Statement.answers (statement : Statement) (anchor : Anchor) : Bool :=
  anchor.kind == .call && statement.calls anchor.name

/-- The position of the first entry whose node has a property. -/
def resolve {α : Type} (answers : α → Bool) (entries : List (Entry α)) : Option Nat :=
  entries.findIdx? fun entry => answers entry.node

/-- The position of the last element that has a property. -/
def lastIndex? {α : Type} (p : α → Bool) : List α → Option Nat
  | [] => none
  | a :: as =>
    match lastIndex? p as with
    | some i => some (i + 1)
    | none => if p a then some 0 else none

namespace Document

/-- The position of the item that an anchor names. -/
def resolve (document : Document) (anchor : Anchor) : Option Nat :=
  CodeSplice.resolve (·.answers anchor) document.items

end Document

/-- The position of the member that an anchor names. -/
def ClassDeclaration.resolve (declaration : ClassDeclaration) (anchor : Anchor) : Option Nat :=
  CodeSplice.resolve (·.answers anchor) declaration.members

/-- The position of the statement that an anchor names. -/
def Constructor.resolve (constructor : Constructor) (anchor : Anchor) : Option Nat :=
  CodeSplice.resolve (·.answers anchor) constructor.statements

end CodeSplice
