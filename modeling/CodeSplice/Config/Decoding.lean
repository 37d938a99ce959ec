/-
Module: CodeSplice.Config.Decoding
Purpose: The settings that a TOML table describes. A key that is missing leaves its default, a key that is
  unknown is a fault, and so is a value of the wrong kind. Keys are looked at in alphabetical order, and
  the first fault counts. An array in the place of a table gives the settings of that table in order.
Main exports: Config.ofTable
-/
import CodeSplice.Config.Settings
import CodeSplice.Text.Visible
import CodeSplice.Toml.Range

namespace CodeSplice

open Layout Toml

namespace Setting

/-- What a setting is read as, or the fault of its value. -/
abbrev Decoded (α : Type) := Except ConfigFault α

/-! ### What a value is called -/

/-- What a number with a point or an exponent is called. A number is called by its shortest decimal, or as
it stands if it is too great to have one. -/
def realName : Toml.Real → String
  | .finite value =>
    match value.toBinary? with
    | some binary => Decimal.positional { binary.shortest with negative := value.negative }
    | none => value.positional
  | .infinite negative => if negative then "-inf" else "inf"
  | .notANumber => "NaN"

/-- What an integer is called. -/
def integerName (n : Int) : String :=
  "integer `" ++ toString n ++ "`"

/-- Say that a value is not of the kind that is wanted. -/
def wrongKind {α : Type} (wanted : String) (located : Located) : Decoded α :=
  let (span, value) := located
  let fault (found : String) : Decoded α :=
    .error (.mismatch ("invalid type: " ++ found ++ ", expected " ++ wanted) span)
  match value with
  | .string text => fault ("string " ++ Text.visible text)
  | .integer n => fault (integerName n)
  | .real x => fault ("floating point `" ++ realName x ++ "`")
  | .boolean b => fault ("boolean `" ++ (if b then "true" else "false") ++ "`")
  | .moment => fault "map"
  | .array _ _ => fault "sequence"
  | .table _ _ => fault "map"

/-! ### Values -/

/-- Read a text. -/
def string (wanted : String) (located : Located) : Decoded String :=
  match located.2 with
  | .string text => .ok text
  | _ => wrongKind wanted located

/-- Read a truth value. -/
def boolean (located : Located) : Decoded Bool :=
  match located.2 with
  | .boolean b => .ok b
  | _ => wrongKind "a boolean" located

/-- Read a natural number of so many bits. -/
def natural (wanted : String) (bits : Nat) (located : Located) : Decoded Nat :=
  match located.2 with
  | .integer n =>
    if 0 ≤ n ∧ n.toNat < Nat.pow 2 bits then .ok n.toNat
    else
      .error (.mismatch ("invalid value: " ++ integerName n ++ ", expected " ++ wanted) located.1)
  | _ => wrongKind wanted located

/-- Read a list of texts. -/
def strings (located : Located) : Decoded (List String) :=
  match located.2 with
  | .array _ items => items.mapM (string "a string")
  | _ => wrongKind "a sequence" located

/-- Read the name of a quote. -/
def quoteName (name : String) (span : ByteSpan) : Decoded Quote :=
  match name with
  | "single" => .ok .single
  | "double" => .ok .double
  | _ =>
    .error (.mismatch ("unknown variant `" ++ name ++ "`, expected `single` or `double`") span)

/-- Read a quote. It may also be given as a table with the quote for its one key and nothing for its
value. -/
def quote (located : Located) : Decoded Quote :=
  let (span, value) := located
  let fault {α : Type} (span : ByteSpan) (detail : String) : Decoded α :=
    .error (.mismatch detail span)
  match value with
  | .string name => quoteName name span
  | .table _ [] => fault span "wanted exactly 1 element, found 0 elements"
  | .table _ [(key, inner, content)] => do
    let quote ← quoteName key.name key.span
    match content with
    | .table _ [] | .array _ [] => .ok quote
    | .table _ _ => fault inner "expected empty table"
    | .array _ _ => fault inner "expected empty array"
    | .string _ => fault inner "expected table, found string"
    | .integer _ => fault inner "expected table, found integer"
    | .real _ => fault inner "expected table, found float"
    | .boolean _ => fault inner "expected table, found boolean"
    | .moment => fault inner "expected table, found datetime"
  | .table _ _ => fault span "wanted exactly 1 element, more than 1 element"
  | _ => fault span "wanted string or table"

/-! ### Tables -/

/-- A setting within a table: its key, and how its value changes the settings. -/
structure Field (σ : Type) where
  key : String
  set : Located → σ → Decoded σ

/-- A setting that is read by `read` and put in place by `put`. -/
def field {σ α : Type} (key : String) (read : Located → Decoded α) (put : σ → α → σ) : Field σ where
  key := key
  set located settings := (read located).map (put settings)

/-- The keys that a table may have, in words. -/
def expected (keys : List String) : String :=
  match keys.map fun key => "`" ++ key ++ "`" with
  | [a] => a
  | [a, b] => a ++ " or " ++ b
  | keys => "one of " ++ ", ".intercalate keys

/-- Say that a key is unknown. -/
def unknownKey {σ : Type} (fields : List (Field σ)) (name : String) (span : ByteSpan) : Decoded σ :=
  .error (.mismatch
    ("unknown field `" ++ name ++ "`, expected " ++ expected (fields.map (·.key))) span)

/-- Read the settings of a table, from what they are without it. -/
def settings {σ : Type} (kind : String) (fields : List (Field σ)) (start : σ) (located : Located) :
    Decoded σ :=
  match located.2 with
  | .table _ entries =>
    entries.foldlM
      (fun settings (key, value) =>
        match fields.find? (·.key == key.name) with
        | some field => field.set value settings
        | none => unknownKey fields key.name key.span)
      start
  | .array _ items =>
    (fields.zip items).foldlM (fun settings (field, value) => field.set value settings) start
  | .moment => unknownKey fields momentKey located.1
  | _ => wrongKind ("struct " ++ kind) located

/-- Read the target. -/
def target : Located → Decoded TargetSettings :=
  settings "TargetConfig"
    [ field "file" (string "path string") fun s file => { s with file },
      field "class" (string "a string") fun s className => { s with className } ]
    {}

/-- Read the style. -/
def style : Located → Decoded StyleSettings :=
  settings "StyleConfig"
    [ field "indent" (natural "u8" 8) fun s indent => { s with indent },
      field "quote" quote fun s quote => { s with quote },
      field "print_width" (natural "usize" 64) fun s printWidth => { s with printWidth } ]
    {}

/-- Read the anchors. -/
def anchors : Located → Decoded AnchorSettings :=
  settings "AnchorsConfig"
    [ field "import_after" (string "a string") fun s importAfter => { s with importAfter },
      field "method_before" (string "a string") fun s methodBefore => { s with methodBefore },
      field "call_before" (string "a string") fun s callBefore => { s with callBefore },
      field "call_after" (string "a string") fun s callAfter => { s with callAfter } ]
    {}

/-- Read the settings of the API documentation. -/
def apiDocs : Located → Decoded ApiDocsSettings :=
  settings "ApiDocsConfig"
    [ field "method" (string "a string") fun s method => { s with method },
      field "route" (string "a string") fun s route => { s with route },
      field "openapi" (string "a string") fun s openapi => { s with openapi },
      field "title" (string "a string") fun s title => { s with title },
      field "version" (string "a string") fun s version => { s with version },
      field "description" (string "a string") fun s description => { s with description },
      field "apis" strings fun s apis => { s with apis },
      field "bearer_auth" boolean fun s bearerAuth => { s with bearerAuth },
      field "server_url_var" (string "a string") fun s serverUrlVar => { s with serverUrlVar },
      field "env_module" (string "a string") fun s envModule => { s with envModule },
      field "anchors" anchors fun s anchors => { s with anchors } ]
    {}

/-- Read the settings of a project. -/
def config : Located → Decoded Config :=
  settings "Config"
    [ field "target" target fun s target => { s with target },
      field "style" style fun s style => { s with style },
      field "api_docs" apiDocs fun s apiDocs => { s with apiDocs } ]
    {}

end Setting

/-- The settings that the table of a whole text describes. -/
def Config.ofTable (table : Table) : Except ConfigFault Config :=
  Setting.config (⟨0, 0⟩, table.toValue)

end CodeSplice
