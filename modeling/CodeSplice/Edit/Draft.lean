/-
Module: CodeSplice.Edit.Draft
Purpose: Drafts of the nodes that edits insert: a method with its signature and body, and the call of a
  method on the object. A call can forward parameters, which a constructor made for it declares.
Main exports: Parameter, MethodDraft, MethodDraft.signature, CallDraft, CallDraft.toSource
-/
import CodeSplice.Document.Class

namespace CodeSplice

open Layout

/-- A parameter of a method or constructor. -/
structure Parameter where
  name : String
  type : Option String := none
  default : Option String := none
deriving DecidableEq, Repr, Inhabited

namespace Parameter

/-- The parameter as it is declared. -/
def toSource (parameter : Parameter) : String :=
  parameter.name ++ ((parameter.type.map (": " ++ ·)).getD "") ++
    ((parameter.default.map (" = " ++ ·)).getD "")

/-- Parameters as they are declared, separated by commas. -/
def listToSource (parameters : List Parameter) : String :=
  ", ".intercalate (parameters.map (·.toSource))

end Parameter

/-- A method to be inserted. -/
structure MethodDraft where
  name : String
  visibility : Option Visibility := none
  parameters : List Parameter := []
  returnType : Option String := none
  body : Block := .empty
deriving DecidableEq, Repr, Inhabited

namespace MethodDraft

/-- What stands before the body. -/
def signature (draft : MethodDraft) : String :=
  ((draft.visibility.map (·.keyword ++ " ")).getD "") ++ draft.name ++ "(" ++
    Parameter.listToSource draft.parameters ++ ")" ++ ((draft.returnType.map (": " ++ ·)).getD "")

/-- The method that a draft describes. -/
def toMethod (draft : MethodDraft) : Method where
  name := draft.name
  visibility := draft.visibility
  head := .ofText draft.signature
  body := draft.body

end MethodDraft

/-- A call `this.method(…);` to be inserted. -/
structure CallDraft where
  method : String
  arguments : List String := []
  /-- The constructor parameters that the arguments refer to. -/
  parameters : List Parameter := []
deriving DecidableEq, Repr, Inhabited

namespace CallDraft

/-- Pass one more argument. -/
def argument (draft : CallDraft) (text : String) : CallDraft :=
  { draft with arguments := draft.arguments ++ [text] }

/-- Pass a constructor parameter as one more argument. -/
def forward (draft : CallDraft) (parameter : Parameter) : CallDraft :=
  { draft with
    arguments := draft.arguments ++ [parameter.name]
    parameters := draft.parameters ++ [parameter] }

/-- The call as it is written. -/
def toSource (draft : CallDraft) : String :=
  "this." ++ draft.method ++ "(" ++ ", ".intercalate draft.arguments ++ ");"

/-- The statement that a draft describes. -/
def toStatement (draft : CallDraft) : Statement where
  text := .ofText draft.toSource
  call := some draft.method

/-- A constructor that makes the call and nothing else. -/
def toConstructor (draft : CallDraft) : Constructor where
  head := .ofText ("constructor(" ++ Parameter.listToSource draft.parameters ++ ")")
  statements := [{ node := draft.toStatement }]

end CallDraft

end CodeSplice
