/-
Module: CodeSplice.Config.Reading
Purpose: The configuration of a project, read from its text. Settings of the right kind still have to be
  allowed: names have to be names, and widths have to lie within bounds. The checks have a fixed order,
  and the first that fails gives the fault, which points at the text that caused it.
Main exports: Config.check, Config.ofText
-/
import CodeSplice.Config.Decoding
import CodeSplice.Config.Name
import CodeSplice.Text.Search
import CodeSplice.Toml.Reading

namespace CodeSplice

open Layout Toml

namespace Config

/-- The settings that are names, each with its key. A setting that stands for no anchor is none. -/
def names (config : Config) : List (String × String) :=
  let anchors := config.apiDocs.anchors
  [ ("target.class", config.target.className),
    ("api_docs.method", config.apiDocs.method),
    ("api_docs.server_url_var", config.apiDocs.serverUrlVar) ] ++
  [ ("api_docs.anchors.method_before", anchors.methodBefore),
    ("api_docs.anchors.call_before", anchors.callBefore),
    ("api_docs.anchors.call_after", anchors.callAfter) ].filter fun entry => !entry.2.isEmpty

/-- A complaint about a setting: what is wrong, what to do about it, and the text to point at. -/
structure Complaint where
  message : String
  advice : Option String := none
  cause : String
deriving DecidableEq, Repr, Inhabited

/-- The complaint about a name. -/
def nameComplaint? (entry : String × String) : Option Complaint :=
  let (key, name) := entry
  (nameFault? name).map fun fault =>
    { message := "invalid " ++ key ++ " '" ++ name ++ "'"
      advice := some fault.advice
      cause := "\"" ++ name ++ "\"" }

/-- The least width of a line that can be set. -/
def minPrintWidth : Nat := 40

/-- The first complaint about the settings. -/
def complaint? (config : Config) : Option Complaint :=
  (config.names.findSome? nameComplaint?).or <|
    if config.target.file.isEmpty then
      some { message := "target.file must not be empty", cause := "file" }
    else if config.style.indent < 1 ∨ 8 < config.style.indent then
      some
        { message := "style.indent must be between 1 and 8"
          advice := some "two spaces is the usual TypeScript indentation"
          cause := "indent" }
    else if config.style.printWidth < minPrintWidth then
      some { message := "style.print_width must be at least 40", cause := "print_width" }
    else none

/-- The fault that a complaint is. It points at the first place in the text that may be its cause. -/
def Complaint.toFault (complaint : Complaint) (text : String) : ConfigFault :=
  .invalid complaint.message complaint.advice <|
    (Text.byteIndex? complaint.cause.toList text.toList).map fun start =>
      ⟨start, complaint.cause.utf8ByteSize⟩

/-- The settings, unless something is wrong with them. -/
def check (config : Config) (text : String) : Except ConfigFault Config :=
  match config.complaint? with
  | some complaint => .error (complaint.toFault text)
  | none => .ok config

/-- The configuration that a text describes. Where the settings cannot be read, a number out of range
anywhere in the text makes the text malformed. -/
def ofText (text : String) : Except Fault Config :=
  match Table.ofText? text with
  | none => .error (.config .malformed)
  | some table =>
    match ofTable table with
    | .error fault => .error (.config (if table.inRange then fault else .malformed))
    | .ok config => (config.check text).mapError .config

end Config

end CodeSplice
