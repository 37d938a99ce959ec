/-
Module: CodeSplice.Edit.Class
Purpose: The edits of a class. One inserts a method, one inserts a call into the constructor. Neither
  inserts anything that the class has already.
Main exports: MethodEdit, MethodEdit.apply, CallEdit, CallEdit.apply
-/
import CodeSplice.Edit.Anchor
import CodeSplice.Edit.Draft
import CodeSplice.Edit.Insertion
import CodeSplice.Edit.Outcome

namespace CodeSplice

/-- Insert a method. -/
structure MethodEdit where
  draft : MethodDraft
  /-- The method that it precedes. -/
  before : Option String := none
deriving DecidableEq, Repr, Inhabited

namespace MethodEdit

/-- The position among the members, and the rule that gives it: before the anchor, else at the end. -/
def place (edit : MethodEdit) (declaration : ClassDeclaration) : Nat × Placement :=
  let anchored := edit.before.bind fun name =>
    (declaration.resolve ⟨.method, name⟩).map fun index => (index, Placement.before name)
  anchored.getD (declaration.members.length, .atEnd)

/-- Apply the edit to a class. -/
def apply (edit : MethodEdit) (declaration : ClassDeclaration) : Outcome × ClassDeclaration :=
  if (declaration.method? edit.draft.name).isSome then (.alreadyPresent, declaration)
  else
    let (index, placement) := edit.place declaration
    let entry : Entry Member := { blankBefore := true, node := .method edit.draft.toMethod }
    (.inserted placement,
      { declaration with members := insertEntry declaration.members index entry })

end MethodEdit

/-- Insert a call into the constructor. -/
structure CallEdit where
  draft : CallDraft
  /-- The call that it precedes. -/
  before : Option String := none
  /-- The call that it follows if there is none that it precedes. -/
  after : Option String := none
deriving DecidableEq, Repr, Inhabited

namespace CallEdit

/-- Insert the call into a constructor: before the first anchor, else behind the second, else at the
end. A call that takes a place before another one takes over the blank line in front of it. -/
def addTo (edit : CallEdit) (constructor : Constructor) : Outcome × Constructor :=
  let statements := constructor.statements
  let entry : Entry Statement := { node := edit.draft.toStatement }
  let find (anchor : Option String) : Option (String × Nat) :=
    anchor.bind fun name => (constructor.resolve ⟨.call, name⟩).map (name, ·)
  match find edit.before with
  | some (name, index) =>
    (.inserted (.before name), { constructor with statements := takeOver entry index statements })
  | none =>
    match find edit.after with
    | some (name, index) =>
      (.inserted (.after name),
        { constructor with statements := statements.insertIdx (index + 1) entry })
    | none => (.inserted .atEnd, { constructor with statements := statements ++ [entry] })

/-- Give a class a constructor that makes the call. It stands before the first method. -/
def addConstructor (edit : CallEdit) (declaration : ClassDeclaration) : ClassDeclaration :=
  let index := declaration.firstMethodIndex?.getD declaration.members.length
  let entry : Entry Member :=
    { blankBefore := true, node := .constructor edit.draft.toConstructor }
  { declaration with members := insertEntry declaration.members index entry }

/-- Apply the edit to a class. -/
def apply (edit : CallEdit) (declaration : ClassDeclaration) : Outcome × ClassDeclaration :=
  match declaration.constructor? with
  | none => (.inserted .newConstructor, edit.addConstructor declaration)
  | some constructor =>
    if constructor.calls edit.draft.method then (.alreadyPresent, declaration)
    else
      let (outcome, constructor) := edit.addTo constructor
      (outcome, declaration.setConstructor constructor)

end CallEdit

end CodeSplice
