/-
Module: CodeSplice.Feature.Basic
Purpose: The features that can be added to a project. A feature is known by name and stands for a plan:
  the edits to make, in order.
Main exports: Feature, Feature.ofName?, Plan, Feature.plan
-/
import CodeSplice.Feature.ApiDocs

namespace CodeSplice

/-- Something that can be added to a project. -/
inductive Feature where
  /-- API documentation that the server itself serves. -/
  | apiDocs
deriving DecidableEq, Repr, Inhabited

/-- The edits that add a feature. -/
structure Plan where
  feature : Feature
  edits : List Edit
deriving DecidableEq, Repr, Inhabited

/-- The edits of one kind, in the order of the plan. -/
def Plan.editsOf (plan : Plan) (kind : EditKind) : List Edit :=
  plan.edits.filter (·.kind == kind)

namespace Feature

/-- The name of a feature. -/
def name : Feature → String
  | apiDocs => "api-docs"

/-- The feature of the given name; upper and lower case are the same. It is enough to fold the letters
of ASCII, because no other letter becomes one of those in the names when it is lowered. -/
def ofName? (name : String) : Option Feature :=
  if ["api-docs", "apidocs", "swagger"].contains (name.map Char.toLower) then some apiDocs else none

/-- What is wrong with a name that no feature has. -/
def unknown (name : String) : String :=
  "unknown feature '" ++ name ++ "', expected 'api-docs'"

/-- The plan of a feature. -/
def plan (feature : Feature) (config : Config) : Plan :=
  match feature with
  | apiDocs => { feature, edits := config.apiDocs.edits config.style.toStyle.indent }

/-- A feature goes by its own name. -/
theorem ofName?_name (feature : Feature) : ofName? feature.name = some feature := by
  cases feature
  decide +kernel

end Feature

end CodeSplice
