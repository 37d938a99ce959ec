/-
Module: CodeSplice.Document.Import
Purpose: Import declarations. The module specifier identifies an import; what it binds is kept as
  data and printed anew, on one line if that is narrow enough and one binding a line otherwise. If
  comments stand outside the list of bindings, the declaration also keeps its own text.
Main exports: NamedBinding, ImportDeclaration, ImportDeclaration.render, ImportDeclaration.toSource
-/
import CodeSplice.Layout.Measure
import CodeSplice.Layout.Style
import CodeSplice.Document.Entry

namespace CodeSplice

open Layout

/-- A binding in the braces of an import. -/
structure NamedBinding where
  name : String
  asName : Option String := none
  typeOnly : Bool := false
  /-- The comments above the binding. -/
  comments : List String := []
  /-- The comment behind the binding's comma. -/
  trailing : Option String := none
deriving DecidableEq, Repr, Inhabited

namespace NamedBinding

/-- The name under which the importing module sees the binding. -/
def localName (binding : NamedBinding) : String :=
  binding.asName.getD binding.name

/-- Whether a comment belongs to the binding. -/
def commented (binding : NamedBinding) : Bool :=
  !binding.comments.isEmpty || binding.trailing.isSome

/-- The binding as it is written, without its comments. -/
def toSource (binding : NamedBinding) : String :=
  (if binding.typeOnly then "type " else "") ++ binding.name ++
    match binding.asName with
    | some other => " as " ++ other
    | none => ""

end NamedBinding

/-- An import declaration: `import … from '…'` or `import x = require('…')`. -/
structure ImportDeclaration where
  specifier : String
  typeOnly : Bool := false
  default : Option String := none
  namespaceName : Option String := none
  named : List NamedBinding := []
  /-- The comments between the last binding and the closing brace. -/
  braceComments : List String := []
  /-- The attributes as they are written, `with` included. -/
  attributes : Option String := none
  /-- Whether the declaration has the form `import x = require('…')`. -/
  isRequire : Bool := false
  /-- The text of a declaration that is rendered as it is. -/
  verbatim : Option Block := none
deriving DecidableEq, Repr, Inhabited

namespace ImportDeclaration

/-- Whether a named binding of this name is imported. An alias does not count. -/
def binds (declaration : ImportDeclaration) (name : String) : Bool :=
  declaration.named.any (·.name == name)

/-- Import one more name. -/
def pushNamed (declaration : ImportDeclaration) (name : String) : ImportDeclaration :=
  { declaration with named := declaration.named ++ [{ name }] }

/-- The specifier in quotes. -/
def quoted (declaration : ImportDeclaration) (style : Style) : String :=
  let quote := String.singleton (style.quote.forText declaration.specifier)
  quote ++ declaration.specifier ++ quote

/-- What follows the bindings: the specifier and the attributes. -/
def tail (declaration : ImportDeclaration) (style : Style) : String :=
  declaration.quoted style ++
    (match declaration.attributes with
      | some attributes => " " ++ attributes
      | none => "") ++ ";"

/-- The keyword of an import that binds types only. -/
def typeKeyword (declaration : ImportDeclaration) : String :=
  if declaration.typeOnly then "type " else ""

/-- The bindings in front of the braces. -/
def head (declaration : ImportDeclaration) : List String :=
  declaration.default.toList ++ (declaration.namespaceName.map ("* as " ++ ·)).toList

/-- The declaration on one line. -/
def oneLine (declaration : ImportDeclaration) (style : Style) : String :=
  let named := declaration.named.map (·.toSource)
  let clause := declaration.head ++
    if named.isEmpty then [] else ["\x7b " ++ ", ".intercalate named ++ " \x7d"]
  "import " ++ declaration.typeKeyword ++ ", ".intercalate clause ++ " from " ++
    declaration.tail style

/-- Whether comments stand between the bindings. -/
def commented (declaration : ImportDeclaration) : Bool :=
  !declaration.braceComments.isEmpty || declaration.named.any (·.commented)

/-- Write comments, each on lines of its own. -/
def renderLines (comments : List String) (w : Writer) : Writer :=
  comments.foldl (fun w comment => (Block.ofText comment).render w) w

/-- Write one binding on a line of its own. -/
def renderBinding (binding : NamedBinding) (w : Writer) : Writer :=
  appendComment ((renderLines binding.comments w).line (binding.toSource ++ ",")) binding.trailing

/-- The declaration with one binding a line. -/
def renderBroken (declaration : ImportDeclaration) (style : Style) (w : Writer) : Writer :=
  let opening := "import " ++ declaration.typeKeyword ++
    String.join (declaration.head.map (· ++ ", ")) ++ "\x7b"
  let w := declaration.named.foldl (fun w binding => renderBinding binding w) (w.line opening).deeper
  (renderLines declaration.braceComments w).shallower.line ("\x7d from " ++ declaration.tail style)

/-- Render a declaration. One that binds several names is broken up when it is wider than the style
allows; the width is counted in bytes. -/
def render (declaration : ImportDeclaration) (style : Style) (w : Writer) : Writer :=
  match declaration.verbatim with
  | some block => block.render w
  | none =>
    if declaration.isRequire then
      w.line ("import " ++ declaration.typeKeyword ++ declaration.default.getD "" ++ " = require(" ++
        declaration.quoted style ++ ");")
    else if declaration.head.isEmpty && declaration.named.isEmpty then
      w.line ("import " ++ declaration.tail style)
    else
      let source := declaration.oneLine style
      let width := w.level * style.indent.width + source.utf8ByteSize
      if !declaration.commented &&
          (decide (width ≤ style.printWidth) || decide (declaration.named.length < 2)) then
        w.line source
      else
        declaration.renderBroken style w

/-- The declaration as text of its own. -/
def toSource (declaration : ImportDeclaration) (style : Style) : String :=
  (declaration.render style { indent := style.indent }).text

end ImportDeclaration

end CodeSplice
