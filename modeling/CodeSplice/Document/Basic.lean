/-
Module: CodeSplice.Document.Basic
Purpose: The model of a source file: its imports and classes in structured form, everything else as
  blocks, in source order. Rendering writes the items in exactly this order.
Main exports: Item, Document, Document.import?, Document.class?, Document.render
-/
import CodeSplice.Document.Class
import CodeSplice.Document.Import

namespace CodeSplice

open Layout

/-- An item at the top level of a source file. -/
inductive Item where
  | importing (declaration : ImportDeclaration)
  | classlike (declaration : ClassDeclaration)
  | other (block : Block)
deriving DecidableEq, Repr, Inhabited

namespace Item

/-- The import that an item is. -/
def import? : Item → Option ImportDeclaration
  | importing declaration => some declaration
  | _ => none

/-- The class that an item is. -/
def class? : Item → Option ClassDeclaration
  | classlike declaration => some declaration
  | _ => none

/-- Whether an item imports the given module. -/
def imports (item : Item) (specifier : String) : Bool :=
  item.import?.any (·.specifier == specifier)

/-- Whether an item is the class of the given name. -/
def isClass (item : Item) (name : String) : Bool :=
  item.class?.any (·.name == name)

/-- Whether a blank line always stands between two neighbours: behind the last of several imports. -/
def apart (item next : Item) : Bool :=
  item.import?.isSome && next.import?.isNone

/-- Render an item. -/
def render (style : Style) : Item → Writer → Writer
  | importing declaration => declaration.render style
  | classlike declaration => declaration.render
  | other block => block.render

end Item

/-- A source file. -/
structure Document where
  /-- The name under which messages mention the file. -/
  name : String
  items : List (Entry Item) := []
  /-- The comments behind the last item. -/
  dangling : List Comment := []
deriving DecidableEq, Repr, Inhabited

namespace Document

/-- The import declarations, in source order. -/
def imports (document : Document) : List ImportDeclaration :=
  document.items.filterMap (·.node.import?)

/-- The first import of a module. -/
def import? (document : Document) (specifier : String) : Option ImportDeclaration :=
  document.imports.find? (·.specifier == specifier)

/-- The classes, in source order. -/
def classes (document : Document) : List ClassDeclaration :=
  document.items.filterMap (·.node.class?)

/-- The first class of the given name. -/
def class? (document : Document) (name : String) : Option ClassDeclaration :=
  document.classes.find? (·.name == name)

/-- The document in canonical form. -/
def render (document : Document) (style : Style) : String :=
  (renderEntries Item.apart (Item.render style) document.items document.dangling
    { indent := style.indent }).text

end Document

end CodeSplice
