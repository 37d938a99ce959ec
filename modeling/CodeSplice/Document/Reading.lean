/-
Module: CodeSplice.Document.Reading
Purpose: How the document of a source text is read from its syntax trees. Imports and classes get
  their structured form; everything else becomes a block. Template literals are protected from any
  change of their text.
Main exports: Source, callTarget?, Document.ofSource?, Document.ofSource
-/
import CodeSplice.Document.Attach
import CodeSplice.Document.Basic
import CodeSplice.Fault
import CodeSplice.Syntax.Parse

namespace CodeSplice

open Layout Syntax

/-- A source text with what reading blocks from it needs to know. -/
structure Source where
  text : List Char
  /-- The spans of the template literals. -/
  literals : List Span
  /-- The indentation unit of the text. -/
  unit : Nat
  /-- All comments of the text. -/
  remarks : List Token
deriving Repr, Inhabited

namespace Source

/-- A source text, given its tree. -/
def ofTree (text : List Char) (tree : Tree) : Source :=
  let literals := (tree.outermost .template).map (·.extent.span)
  { text
    literals
    unit := unitOf text literals
    remarks := tree.comments }

/-- The block of a stretch of the source. -/
def block (source : Source) (span : Span) : Block :=
  .ofRange source.text span source.literals source.unit

/-- The text of a stretch of the source. -/
def slice (source : Source) (span : Span) : String :=
  String.ofList (Text.slice source.text span.start span.stop)

/-- The text of a tree. -/
def textOf (source : Source) (tree : Tree) : String :=
  source.slice tree.extent.span

/-- The end of the text between two positions, without the white space at its end. -/
def trimmedStop (source : Source) (start stop : Nat) : Nat :=
  start + (Text.trimEnd (Text.slice source.text start stop)).length

/-- Remove the line comments from the end of the text between two positions. The result is where the
text ends without them, and the comments in source order; `remarks` are those that come into
question, the last one first. -/
def splitLineComments (source : Source) (start : Nat) (comments : List String) (stop : Nat) :
    List Token → Nat × List String
  | [] => (stop, comments)
  | remark :: remarks =>
    if start < stop && remark.extent.start < stop && stop ≤ remark.extent.stop &&
        "//".toList.isPrefixOf remark.text.toList && start ≤ remark.extent.start then
      source.splitLineComments start (Attached.trimmed remark :: comments)
        (source.trimmedStop start remark.extent.start) remarks
    else (stop, comments)

/-- The text before an opening brace at `brace`, as a block, and the line comments at its end, which
would swallow the brace. -/
def head (source : Source) (start brace : Nat) : Block × Option String :=
  let before := source.remarks.filter fun remark => decide (remark.extent.start < brace)
  let (stop, comments) :=
    source.splitLineComments start [] (source.trimmedStop start brace) before.reverse
  (source.block ⟨start, stop⟩, if comments.isEmpty then none else some (" ".intercalate comments))

end Source

/-- Two comments behind a brace, as one. -/
def joinComments : Option String → Option String → Option String
  | some first, some second => some (first ++ " " ++ second)
  | first, second => first.or second

/-! ### Imports -/

/-- The bindings read from the braces of an import so far. -/
structure Bindings where
  /-- The bindings, the last one first. -/
  reversed : List NamedBinding := []
  comments : List String := []
  /-- The row on which the last binding or its comma ended. -/
  lastRow : Option Nat := none
deriving Repr, Inhabited

namespace Bindings

/-- Place a comment: behind the last binding if that ends on its row, otherwise in front of the next
one. -/
def remark (bindings : Bindings) (remark : Token) : Bindings :=
  let text := Attached.trimmed remark
  match bindings.reversed with
  | last :: others =>
    if bindings.comments.isEmpty && last.trailing.isNone && remark.extent.oneRow &&
        bindings.lastRow == some remark.extent.row then
      { bindings with reversed := { last with trailing := some text } :: others }
    else { bindings with comments := bindings.comments ++ [text] }
  | [] => { bindings with comments := bindings.comments ++ [text] }

/-- The binding that a specifier in braces makes. Its parts are the name, with a modifier in front of
it and another name behind `as`, or without either. -/
def binding (source : Source) (tree : Tree) (comments : List String) : NamedBinding :=
  match tree.codeChildren.map source.textOf with
  | [name] => { name, comments }
  | [modifier, name] => { name, typeOnly := modifier == "type", comments }
  | [name, _, asName] => { name, asName := some asName, comments }
  | [modifier, name, _, asName] =>
    { name, asName := some asName, typeOnly := modifier == "type", comments }
  | _ => { name := "", comments }

/-- Read one part of the braces. -/
def part (source : Source) (bindings : Bindings) (tree : Tree) : Bindings :=
  match tree with
  | .node .importSpecifier extent _ _ =>
    { reversed := binding source tree bindings.comments :: bindings.reversed
      comments := []
      lastRow := some extent.endRow }
  | .leaf token =>
    if token.is .comment then bindings.remark token
    else if tree.isSpelled "," then
      { bindings with lastRow := bindings.lastRow.map fun _ => token.extent.endRow }
    else bindings
  | _ => bindings

end Bindings

namespace ImportDeclaration

/-- Add what one part of an import clause binds. -/
def addClausePart (source : Source) (declaration : ImportDeclaration) (tree : Tree) :
    ImportDeclaration :=
  match tree with
  | .leaf token =>
    if token.is .word || tree.isSpelled "type" then
      { declaration with default := some token.text }
    else declaration
  | .node .namespaceImport _ _ _ =>
    { declaration with namespaceName := tree.name?.map (·.text) }
  | .node .namedImports _ _ _ =>
    let bindings := tree.children.foldl (Bindings.part source) {}
    { declaration with
      named := bindings.reversed.reverse
      braceComments := bindings.comments }
  | _ => declaration

/-- Whether a part of an import clause is a line that begins as an HTML comment does. The clause is not
read beyond such a line. -/
def interrupts (tree : Tree) : Bool :=
  tree.isKind .markup

/-- Add what one part of an import statement says. -/
def addPart (source : Source) (declaration : ImportDeclaration) (tree : Tree) :
    ImportDeclaration :=
  match tree with
  | .leaf _ => if tree.isSpelled "type" then { declaration with typeOnly := true } else declaration
  | .node .importClause _ _ _ =>
    (tree.children.takeWhile (!interrupts ·)).foldl (addClausePart source) declaration
  | .node .requireClause _ _ _ =>
    { declaration with default := tree.name?.map (·.text), isRequire := true }
  | .node .importAttributes _ _ _ => { declaration with attributes := some (source.textOf tree) }
  | _ => declaration

/-- Whether an import that ends at `stop` has a comment inside it that does not stand among the bindings
in braces. -/
def hasStrayComment (tree : Tree) (stop : Nat) : Bool :=
  let inside := tree.comments.filter fun remark => remark.extent.start < stop
  let bindings := (tree.child? .importClause).bind (·.child? .namedImports)
  let placed := ((bindings.map (·.children)).getD []).filter (·.isKind .comment)
  inside.length != placed.length

/-- Whether the clause of an import is read to its end. -/
def isReadable (tree : Tree) : Bool :=
  (tree.child? .importClause).all fun clause => !clause.children.any interrupts

/-- The string that an import names its module by. -/
def specifier? (tree : Tree) : Option Tree :=
  (tree.child? .string).or ((tree.child? .requireClause).bind (·.child? .string))

/-- The import that a statement makes. -/
def ofTree? (source : Source) (tree : Tree) (extent : Extent) : Option ImportDeclaration :=
  (specifier? tree).map fun string =>
    let specifier := String.ofList ((source.textOf string).toList.drop 1).dropLast
    let declaration := tree.children.foldl (addPart source) { specifier }
    if hasStrayComment tree extent.stop || !isReadable tree then
      { declaration with verbatim := some (source.block extent.span) }
    else declaration

end ImportDeclaration

/-! ### Statements of a constructor -/

/-- The method that an expression calls on the object: the name in `this.name(…)`. -/
def calledMethod? (tree : Tree) : Option String :=
  match tree with
  | .node .call _ _ _ =>
    match tree.children with
    | function :: _ =>
      if function.isPhrase .member then
        match function.codeChildren with
        | [object, _, .leaf property] =>
          if object.isSpelled "this" && property.is .word then some property.text else none
        | _ => none
      else none
    | [] => none
  | _ => none

/-- The method that a statement calls on the object, awaited or not. A comment directly behind
`await` hides the call. -/
def callTarget? (tree : Tree) : Option String :=
  match tree with
  | .node .expressionStatement _ _ _ =>
    match tree.children with
    | expression :: _ =>
      if expression.isPhrase .awaitExpression then (expression.children[1]?).bind calledMethod?
      else calledMethod? expression
    | [] => none
  | _ => none

/-! ### Classes -/

namespace Source

/-- The children of a body from its opening brace up to its closing one. -/
def enclosed (body : Tree) : List Tree :=
  ((body.children.reverse.dropWhile fun child => !child.isSpelled "\x7d").drop 1).reverse

/-- Attach the comments in the braces of a body to its children. -/
def attachBody {α : Type} (source : Source) (convert : Tree → Extent → α) (body : Tree) :
    Attached α :=
  attach (fun extent => source.block extent.span) convert (some body.extent.row) (enclosed body)

/-- A statement of a constructor. -/
def statement (source : Source) (tree : Tree) (extent : Extent) : Statement where
  text := source.block extent.span
  call := callTarget? tree

/-- The constructor with the given head and body. -/
def constructor (source : Source) (head : Block × Option String) (body : Tree) : Constructor :=
  let attached := source.attachBody source.statement body
  { head := head.1
    braceComment := joinComments head.2 attached.opening
    statements := attached.entries
    dangling := attached.comments }

/-- The comment on the row of a method's opening brace, which is not part of the body. -/
def openingComment? (body : Tree) : Option Token :=
  match enclosed body with
  | brace :: .leaf remark :: _ =>
    if remark.is .comment && remark.extent.oneRow && remark.extent.row == brace.extent.endRow then
      some remark
    else none
  | _ => none

/-- The block between the braces of a method, `opening` left out. -/
def methodBody (source : Source) (body : Tree) (opening : Option Token) : Block :=
  let start := (opening.map (·.extent.stop)).getD (body.extent.start + 1)
  match body.children.reverse.find? (·.isSpelled "\x7d") with
  | some close => source.block ⟨start, close.extent.start⟩
  | none => .empty

/-- The name of a member, if it is plain. -/
def plainName? (tree : Tree) : Option String :=
  match tree.parts with
  | [.leaf token] => if token.is .number then none else some token.text
  | _ => none

/-- The member that a definition with a body makes, unless it is an accessor or its name is not
plain. The definition begins at `start`, its decorators included. -/
def definition? (source : Source) (tree : Tree) (start : Nat) : Option Member :=
  let modifiers := (tree.children.takeWhile fun child => !child.isPhrase .propertyName).map
    source.textOf
  match (tree.child? .propertyName).bind plainName?, tree.child? .block with
  | some name, some body =>
    if !modifiers.contains "get" && !modifiers.contains "set" then
      let head := source.head start body.extent.start
      let isStatic := modifiers.contains "static"
      if name == "constructor" && !isStatic then
        some (.constructor (source.constructor head body))
      else
        let opening := openingComment? body
        some (.method
          { name
            visibility := modifiers.findSome? Visibility.ofKeyword?
            isStatic
            head := head.1
            braceComment := joinComments head.2 (opening.map Attached.trimmed)
            body := source.methodBody body opening })
    else none
  | _, _ => none

/-- A member of a class. -/
def member (source : Source) (tree : Tree) (extent : Extent) : Member :=
  match tree with
  | .node .methodDefinition _ _ _ =>
    (source.definition? tree extent.start).getD (.other (source.block extent.span))
  | _ => .other (source.block extent.span)

/-- The class that a declaration makes. The declaration begins at `start`, an export in front of it
included. -/
def class? (source : Source) (tree : Tree) (start : Nat) : Option ClassDeclaration :=
  match tree.name?, tree.child? .classBody with
  | some name, some body =>
    let head := source.head start body.extent.start
    let attached := source.attachBody source.member body
    some
      { name := name.text
        header := head.1
        braceComment := joinComments head.2 attached.opening
        members := attached.entries
        dangling := attached.comments }
  | _, _ => none

/-! ### Items -/

/-- The class that an export statement exports: a declared one, or the value of a default export. -/
def exportedClass? (tree : Tree) : Option Tree :=
  let isDefault := tree.children.any (·.isSpelled "default")
  tree.children.find? fun child =>
    child.isPhrase .classDeclaration || child.isPhrase .abstractClassDeclaration ||
      (isDefault && child.isPhrase .classExpression)

/-- An item of a file. -/
def item (source : Source) (tree : Tree) (extent : Extent) : Item :=
  let found : Option Item :=
    match tree with
    | .node .importStatement _ _ _ => (ImportDeclaration.ofTree? source tree extent).map .importing
    | .node .classDeclaration _ _ _ | .node .abstractClassDeclaration _ _ _ =>
      (source.class? tree extent.start).map .classlike
    | .node .exportStatement _ _ _ =>
      ((exportedClass? tree).bind fun declaration =>
        source.class? declaration extent.start).map .classlike
    | _ => none
  found.getD (.other (source.block extent.span))

end Source

/-- The document of a source text, unless the text has a syntax error. -/
def Document.ofSource? (name text : String) : Option Document :=
  let cs := text.toList
  (parse? cs).map fun tree =>
    let source := Source.ofTree cs tree
    let attached := attach (fun extent => source.block extent.span) source.item none tree.children
    { name, items := attached.entries, dangling := attached.comments }

/-- The document of a source text, or the fault that its syntax is wrong. -/
def Document.ofSource (name text : String) : Except Fault Document :=
  match Document.ofSource? name text with
  | some document => .ok document
  | none => .error (.syntaxError name)

end CodeSplice
