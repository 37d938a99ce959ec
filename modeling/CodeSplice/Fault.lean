/-
Module: CodeSplice.Fault
Purpose: The causes for which a request fails, with the message, the code and the advice that are
  shown for each.
Main exports: Fault, Fault.message, Fault.code, Fault.help
-/

namespace CodeSplice

/-- A stretch of bytes of a text. -/
structure ByteSpan where
  offset : Nat
  length : Nat
deriving DecidableEq, Repr, Inhabited

/-- Why a configuration text is no configuration. -/
inductive ConfigFault where
  /-- The text is not well-formed. -/
  | malformed
  /-- A well-formed text has an unknown key or a value of the wrong kind. -/
  | mismatch (detail : String) (span : ByteSpan)
  /-- A setting has a value that is not allowed. `span` points into the text, if the cause is found
  there. -/
  | invalid (message : String) (help : Option String) (span : Option ByteSpan)
deriving DecidableEq, Repr, Inhabited

/-- Why a request fails. -/
inductive Fault where
  /-- The document of that name has a syntax error. -/
  | syntaxError (name : String)
  /-- The document has no class of that name. -/
  | missingClass (name : String)
  /-- A run cannot start because the document has no class of that name. -/
  | missingTarget (name document : String)
  /-- The file exists but cannot be read as text. -/
  | unreadable (path : String)
  /-- The document cannot be saved. -/
  | unwritable (path : String)
  /-- The patched file cannot be saved. -/
  | unpatched (path : String)
  /-- The configuration cannot be used. -/
  | config (fault : ConfigFault)
deriving DecidableEq, Repr, Inhabited

namespace Fault

/-- The message. -/
def message : Fault → String
  | syntaxError name => "failed to parse " ++ name
  | missingClass name => "class '" ++ name ++ "' not found"
  | missingTarget name document =>
    "structural precondition failed in source-injection: class '" ++ name ++ "' not found in '" ++
      document ++ "'"
  | unreadable path => "failed to read '" ++ path ++ "'"
  | unwritable path => "failed to write '" ++ path ++ "'"
  | unpatched path => "failed to write '" ++ path ++ "'"
  | config (.invalid message _ _) => message
  | config _ => "failed to parse graft.toml"

/-- The code under which a cause is documented. -/
def code : Fault → String
  | syntaxError _ => "graft::parse_error"
  | missingClass _ => "graft::missing_class"
  | missingTarget _ _ => "graft::structural_precondition"
  | unreadable _ => "graft::read"
  | unwritable _ => "graft::write"
  | unpatched _ => "graft::write"
  | config (.invalid _ _ _) => "graft::config_validation"
  | config _ => "graft::config_parse"

/-- What to do about a missing class. -/
def classAdvice : String :=
  "set `class` under [target] in graft.toml to the class that should be patched"

/-- What to do about a cause, or what need not be worried about. -/
def help : Fault → Option String
  | syntaxError _ => some "only syntactically valid TypeScript can be patched"
  | missingClass _ => some classAdvice
  | missingTarget _ _ => some classAdvice
  | unreadable _ => none
  | unwritable _ => some "check that the destination directory exists and is writable"
  | unpatched _ => some "the original file was left untouched"
  | config (.invalid _ help _) => help
  | config _ => none

end Fault

end CodeSplice
