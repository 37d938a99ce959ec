/-
Module: CodeSplice.Config.Settings
Purpose: The settings of a project. Every setting has a default, so a project without a configuration
  is one with all defaults.
Main exports: Config, TargetSettings, StyleSettings, ApiDocsSettings, AnchorSettings
-/
import CodeSplice.Layout.Style

namespace CodeSplice

open Layout

/-- The file and the class to patch. -/
structure TargetSettings where
  /-- The path of the file, relative to the project directory. -/
  file : String := "src/app.ts"
  className : String := "App"
deriving DecidableEq, Repr, Inhabited

/-- The style of the output, as it is set. Widths are checked apart. -/
structure StyleSettings where
  indent : Nat := 2
  quote : Quote := .single
  printWidth : Nat := 100
deriving DecidableEq, Repr, Inhabited

/-- The anchors of the edits for API documentation. An empty text stands for no anchor. -/
structure AnchorSettings where
  /-- The module whose import the new imports follow. -/
  importAfter : String := "morgan"
  /-- The method that the new method precedes. -/
  methodBefore : String := "initializeErrorHandling"
  /-- The call that the new call precedes. -/
  callBefore : String := "initializeErrorHandling"
  /-- The call that the new call follows if there is none that it precedes. -/
  callAfter : String := "initializeRoutes"
deriving DecidableEq, Repr, Inhabited

/-- The settings of the API documentation. -/
structure ApiDocsSettings where
  /-- The name of the method that sets the documentation up. -/
  method : String := "initializeSwagger"
  /-- The route under which the documentation is served. -/
  route : String := "/api-docs"
  openapi : String := "3.0.0"
  title : String := "REST API"
  version : String := "1.0.0"
  description : String := "Example API Documentation"
  /-- The patterns of the files that are searched for descriptions. -/
  apis : List String := ["swagger.yaml", "src/controllers/*.ts"]
  /-- Whether requests carry a bearer token. -/
  bearerAuth : Bool := true
  /-- The binding that holds the public address of the server. -/
  serverUrlVar : String := "API_SERVER_URL"
  /-- The module that exports this binding. -/
  envModule : String := "@config/env"
  anchors : AnchorSettings := {}
deriving DecidableEq, Repr, Inhabited

/-- The settings of a project. -/
structure Config where
  target : TargetSettings := {}
  style : StyleSettings := {}
  apiDocs : ApiDocsSettings := {}
deriving DecidableEq, Repr, Inhabited

/-- The anchor that a setting names, if it names one. -/
def anchorName? (setting : String) : Option String :=
  if setting.isEmpty then none else some setting

/-- The style that the settings describe. -/
def StyleSettings.toStyle (settings : StyleSettings) : Style where
  indent := .ofWidth settings.indent
  quote := settings.quote
  printWidth := settings.printWidth

end CodeSplice
