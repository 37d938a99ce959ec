/-
Module: CodeSplice.Feature.ApiDocs
Purpose: The API documentation of a server class: a method that builds the specification from comments
  in the sources and serves it under a route. The method's body depends on the settings only.
Main exports: stringLiteral, ApiDocsSettings.body, ApiDocsSettings.edits
-/
import CodeSplice.Config.Settings
import CodeSplice.Edit.Basic

namespace CodeSplice

open Layout

/-- Write a character within single quotes. -/
def escaped (c : Char) : List Char :=
  if c == '\\' || c == '\'' then ['\\', c] else [c]

/-- A string literal in single quotes. Backslashes and single quotes are escaped, nothing else. -/
def stringLiteral (value : String) : String :=
  "'" ++ String.ofList (value.toList.flatMap escaped) ++ "'"

namespace ApiDocs

/-- The module that builds the specification, and the name it is imported under. -/
def builderModule : String := "swagger-jsdoc"

@[inherit_doc builderModule]
def builderName : String := "swaggerJSDoc"

/-- The module that serves the specification, and the name it is imported under. -/
def viewerModule : String := "swagger-ui-express"

@[inherit_doc viewerModule]
def viewerName : String := "swaggerUi"

/-- The parameter that holds the common beginning of all routes. -/
def routePrefix : Parameter where
  name := "apiPrefix"
  type := some "string"

/-- The same parameter where a constructor is made for the edit. -/
def routePrefixWithDefault : Parameter :=
  { routePrefix with default := some "'/api/v1'" }

end ApiDocs

namespace ApiDocsSettings

open ApiDocs

/-- A property with a string for its value. -/
def property (name value : String) : Step :=
  .line (name ++ ": " ++ stringLiteral value ++ ",")

/-- An object that is the value of a property. -/
def object (name : String) (body : List Step) : Step :=
  .enclosed (name ++ ": \x7b") "\x7d," body

/-- The address of the server: the configured one, else one on this machine. -/
def serverUrl (settings : ApiDocsSettings) : String :=
  settings.serverUrlVar ++ " || \x60http://localhost:$\x7bthis.port\x7d$\x7b" ++ routePrefix.name ++
    "\x7d\x60"

/-- The definition that the specification starts from. -/
def definition (settings : ApiDocsSettings) : List Step :=
  [ property "openapi" settings.openapi,
    object "info"
      [ property "title" settings.title,
        property "version" settings.version,
        property "description" settings.description ],
    .enclosed "servers: [" "],"
      [ .enclosed "\x7b" "\x7d,"
        [ .line ("url: " ++ settings.serverUrl ++ ","),
          .line ("description: this.env === 'production' ? 'Production server' : " ++
            "'Local server',") ] ],
    .onlyIf settings.bearerAuth
      [ object "components"
        [ object "securitySchemes"
          [ object "bearerAuth"
            [ property "type" "http",
              property "scheme" "bearer",
              property "bearerFormat" "JWT" ] ] ] ] ]

/-- The body of the method, as a writer program. -/
def steps (settings : ApiDocsSettings) : List Step :=
  [ .enclosed "const options = \x7b" "\x7d;"
      [ object "swaggerDefinition" settings.definition,
        .line ("apis: [" ++ ", ".intercalate (settings.apis.map stringLiteral) ++ "],") ],
    .blank,
    .line ("const specs = " ++ builderName ++ "(options);"),
    .line ("this.app.use(" ++ stringLiteral settings.route ++ ", " ++ viewerName ++ ".serve, " ++
      viewerName ++ ".setup(specs));") ]

/-- The body of the method as text. -/
def body (settings : ApiDocsSettings) (indent : Indent) : String :=
  (Writer.run { indent } settings.steps).text

/-- The edits that add the documentation to a class: two imports, a name to bind, the method, and a
call of it in the constructor. -/
def edits (settings : ApiDocsSettings) (indent : Indent) : List Edit :=
  let anchors := settings.anchors
  [ .placeImport
      { declaration := { specifier := builderModule, default := some builderName }
        after := anchorName? anchors.importAfter },
    .placeImport
      { declaration := { specifier := viewerModule, default := some viewerName }
        after := some builderModule },
    .bindName { specifier := settings.envModule, name := settings.serverUrlVar },
    .addMethod
      { draft :=
          { name := settings.method
            visibility := some .isPrivate
            parameters := [routePrefix]
            body := .ofText (settings.body indent) }
        before := anchorName? anchors.methodBefore },
    .addCall
      { draft := ({ method := settings.method } : CallDraft).forward routePrefixWithDefault
        before := anchorName? anchors.callBefore
        after := anchorName? anchors.callAfter } ]

end ApiDocsSettings

end CodeSplice
