/-
Module: CodeSplice.Document.Class
Purpose: Class declarations. Methods and the constructor are known by name and shape, the statements
  of a constructor by the method they call; every other member is a block.
Main exports: Visibility, Statement, Method, Constructor, Member, ClassDeclaration
-/
import CodeSplice.Layout.Measure
import CodeSplice.Document.Entry

namespace CodeSplice

open Layout

/-- Who may use a member. -/
inductive Visibility where
  | isPublic
  | isProtected
  | isPrivate
deriving DecidableEq, Repr, Inhabited

namespace Visibility

/-- The keyword. -/
def keyword : Visibility → String
  | isPublic => "public"
  | isProtected => "protected"
  | isPrivate => "private"

/-- The visibility that a keyword stands for. -/
def ofKeyword? : String → Option Visibility
  | "public" => some isPublic
  | "protected" => some isProtected
  | "private" => some isPrivate
  | _ => none

end Visibility

/-- A statement of a constructor. -/
structure Statement where
  text : Block
  /-- The method of a statement of the form `this.name(…);`, awaited or not. -/
  call : Option String := none
deriving DecidableEq, Repr, Inhabited

/-- Whether a statement calls the given method of the object. -/
def Statement.calls (statement : Statement) (method : String) : Bool :=
  statement.call == some method

/-- A method with a body. -/
structure Method where
  name : String
  visibility : Option Visibility := none
  isStatic : Bool := false
  /-- What stands before the body's opening brace. -/
  head : Block
  /-- The comments on or before the line of the opening brace. -/
  braceComment : Option String := none
  body : Block := .empty
deriving DecidableEq, Repr, Inhabited

/-- A constructor with a body. -/
structure Constructor where
  head : Block
  braceComment : Option String := none
  statements : List (Entry Statement) := []
  /-- The comments behind the last statement. -/
  dangling : List Comment := []
deriving DecidableEq, Repr, Inhabited

/-- Whether a statement of a constructor calls the given method of the object. -/
def Constructor.calls (constructor : Constructor) (method : String) : Bool :=
  constructor.statements.any (·.node.calls method)

/-- A member of a class. -/
inductive Member where
  | constructor (constructor : Constructor)
  | method (method : Method)
  /-- A property, an accessor, a signature, a static block. -/
  | other (block : Block)
deriving DecidableEq, Repr, Inhabited

namespace Member

/-- The constructor that a member is. -/
def constructor? : Member → Option Constructor
  | constructor c => some c
  | _ => none

/-- The method that a member is. -/
def method? : Member → Option Method
  | method m => some m
  | _ => none

end Member

/-- A class declaration, with the export in front of it. -/
structure ClassDeclaration where
  name : String
  /-- What stands before the body's opening brace. -/
  header : Block
  braceComment : Option String := none
  members : List (Entry Member) := []
  /-- The comments behind the last member. -/
  dangling : List Comment := []
deriving DecidableEq, Repr, Inhabited

namespace ClassDeclaration

/-- The methods, in source order. -/
def methods (declaration : ClassDeclaration) : List Method :=
  declaration.members.filterMap (·.node.method?)

/-- The first method of the given name. -/
def method? (declaration : ClassDeclaration) (name : String) : Option Method :=
  declaration.methods.find? (·.name == name)

/-- The first constructor. -/
def constructor? (declaration : ClassDeclaration) : Option Constructor :=
  declaration.members.findSome? (·.node.constructor?)

/-- The position of the first method among the members. -/
def firstMethodIndex? (declaration : ClassDeclaration) : Option Nat :=
  declaration.members.findIdx? (·.node.method?.isSome)

end ClassDeclaration

/-! ### Rendering -/

/-- Render a head with a body in braces. A body without content closes on the line of its brace;
`comment` stands behind the brace. -/
def renderBraced (head : Block) (comment : Option String) (hollow : Bool)
    (body : Writer → Writer) (w : Writer) : Writer :=
  let w := appendComment (head.renderOpen (if hollow then " \x7b\x7d" else " \x7b") w) comment
  if hollow then w else (body w.deeper).shallower.line "\x7d"

/-- Render a constructor. -/
def Constructor.render (constructor : Constructor) : Writer → Writer :=
  renderBraced constructor.head constructor.braceComment
    (constructor.statements.isEmpty && constructor.dangling.isEmpty)
    (renderEntries (fun _ _ => false) (·.text.render) constructor.statements constructor.dangling)

/-- Render a method. -/
def Method.render (method : Method) : Writer → Writer :=
  renderBraced method.head method.braceComment method.body.isEmpty method.body.render

/-- Render a member. -/
def Member.render : Member → Writer → Writer
  | constructor c => c.render
  | method m => m.render
  | other block => block.render

/-- Render a class. -/
def ClassDeclaration.render (declaration : ClassDeclaration) : Writer → Writer :=
  renderBraced declaration.header declaration.braceComment
    (declaration.members.isEmpty && declaration.dangling.isEmpty)
    (renderEntries (fun _ _ => false) (·.render) declaration.members declaration.dangling)

end CodeSplice
