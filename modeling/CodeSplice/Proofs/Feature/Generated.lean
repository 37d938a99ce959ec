/-
Module: CodeSplice.Proofs.Feature.Generated
Purpose: What reading the generated code should give back: the generated method and a constructor that
  calls it. It does not for every configuration without a complaint: the name of the constructor is no
  reserved word, but a method of that name is read as a second constructor.
Main exports: ApiDocsSettings.isOnOneLine, ReadsBack, not_readsBack_of_method_eq
-/
import CodeSplice.Proofs.Document.Members
import CodeSplice.Proofs.Feature.ApiDocs
import CodeSplice.Proofs.Patch.Source

namespace CodeSplice

/-- The characters that end a line of code. -/
def lineEnds : List Char := ['\n', '\r', '\u2028', '\u2029']

/-- The texts among the settings of the documentation. -/
def ApiDocsSettings.texts (settings : ApiDocsSettings) : List String :=
  [ settings.method, settings.route, settings.openapi, settings.title, settings.version,
    settings.description, settings.serverUrlVar, settings.envModule, settings.anchors.importAfter,
    settings.anchors.methodBefore, settings.anchors.callBefore, settings.anchors.callAfter ] ++
  settings.apis

/-- Whether no text among the settings of the documentation breaks a line. -/
def ApiDocsSettings.isOnOneLine (settings : ApiDocsSettings) : Bool :=
  settings.texts.all fun text => text.toList.all fun c => !lineEnds.contains c

/-- When the documentation is added to an empty class, the text that comes out is read again, and the
class in it has exactly one method of the configured name, which is the generated one, private and with
the generated head and body, and exactly one constructor, which calls this method and does nothing
else. -/
def ReadsBack (config : Config) : Prop :=
  ∃ text document declaration constructor statement,
    Feature.apiDocs.added? config "" ("class " ++ config.target.className ++ " \x7b\x7d") = some text ∧
    Document.ofSource? "" text = some document ∧
    document.class? config.target.className = some declaration ∧
    declaration.methods.filter (·.name == config.apiDocs.method) =
      [(config.apiDocs.methodEdit config.style.toStyle.indent).draft.toMethod] ∧
    declaration.members.filterMap (·.node.constructor?) = [constructor] ∧
    constructor.statements = [statement] ∧ statement.node.call = some config.apiDocs.method

/-- A method by the name of the constructor is generated, but never read back: the generated method is
not static. -/
theorem not_readsBack_of_method_eq {config : Config} (h : config.apiDocs.method = "constructor") :
    ¬ ReadsBack config := by
  rintro ⟨text, document, declaration, -, -, -, hdocument, hclass, hmethods, -⟩
  have hmem : (config.apiDocs.methodEdit config.style.toStyle.indent).draft.toMethod ∈
      declaration.methods :=
    (List.mem_filter.1 (hmethods ▸ List.mem_singleton_self _)).1
  have hstatic := isStatic_of_name_eq_constructor hdocument (List.mem_of_find?_eq_some hclass) hmem h
  exact absurd hstatic (by simp [MethodDraft.toMethod])

/-- A configuration that names the method like the constructor. -/
def constructorToml : String :=
  "[api_docs]\nmethod = \"constructor\"\n"

/-- There is no complaint about a method that has the name of the constructor. -/
theorem not_forall_readsBack :
    ¬ ∀ toml config, Config.ofText toml = .ok config → config.apiDocs.isOnOneLine = true →
      ReadsBack config := by
  intro h
  have hconfig : Config.ofText constructorToml =
      .ok { apiDocs := { method := "constructor" } } := by
    decide +kernel
  exact not_readsBack_of_method_eq rfl (h _ _ hconfig (by decide +kernel))

end CodeSplice
