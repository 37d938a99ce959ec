/-
Module: CodeSplice.Proofs.Feature.Body
Purpose: The body of the generated method, line by line: which lines it has, that it keeps its layout
  when it is read as a block and written at another level, and where the configured strings stand in
  it.
Main exports: ApiDocsSettings.stepped, ApiDocsSettings.ofText_body, ApiDocsSettings.keeps_layout,
  ApiDocsSettings.exists_literal_line
-/
import CodeSplice.Proofs.Document.Neat
import CodeSplice.Proofs.Feature.Generated
import CodeSplice.Proofs.Feature.Literal
import CodeSplice.Proofs.Layout.Reread

namespace CodeSplice

open Layout Text ApiDocs

/-! ### The lines of the body -/

theorem isFirm_append {front back : String} (hfirst : standsOut front.toList = true)
    (hline : Flat (front ++ back)) (hlast : endsVisibly back.toList = true) :
    isFirm (front ++ back).toList = true := by
  refine isFirm_iff.2 ⟨hline, ?_, ?_⟩
  · rw [String.toList_append]
    exact standsOut_append hfirst _
  · rw [String.toList_append]
    exact endsVisibly_append _ hlast

theorem flat_stringLiteral {value : String} (h : Flat value) : Flat (stringLiteral value) :=
  fun hmem => h (by simpa using mem_stringLiteral hmem)

namespace ApiDocsSettings

/-- The lines of the body. -/
def bodyLines (settings : ApiDocsSettings) : List Block.Line :=
  Step.linesOf 0 settings.steps

theorem areStructured_steps (settings : ApiDocsSettings) :
    Step.areStructured settings.steps = true :=
  rfl

/-- The body is written line by line. -/
theorem body_eq (settings : ApiDocsSettings) (indent : Indent) :
    settings.body indent = String.ofList (Block.written { indent } settings.bodyLines) := by
  rw [body, Writer.run_eq_paste _ settings.areStructured_steps]
  exact String.empty_append ..

section

variable {settings : ApiDocsSettings} (h : ∀ text ∈ settings.texts, Flat text)
include h

theorem isFirm_property (name : String) {value : String} (hname : standsOut name.toList = true)
    (hflat : Flat name) (hvalue : value ∈ settings.texts) :
    ∀ text ∈ (property name value).texts, isFirm text.toList = true := by
  intro text htext
  obtain rfl := List.mem_singleton.1 htext
  have hquoted := flat_stringLiteral (h value hvalue)
  refine isFirm_append ?_ ?_ (by decide)
  · rw [String.toList_append, String.toList_append, List.append_assoc]
    exact standsOut_append hname _
  · simp only [flat_append]
    exact ⟨⟨⟨hflat, by decide⟩, hquoted⟩, by decide⟩

/-- What the definition of the specification is made of. -/
theorem isFirm_definition :
    ∀ text ∈ Step.textsOf settings.definition, isFirm text.toList = true := by
  have hopenapi := isFirm_property h "openapi" (by decide) (by decide)
    (show settings.openapi ∈ settings.texts by simp [texts])
  have htitle := isFirm_property h "title" (by decide) (by decide)
    (show settings.title ∈ settings.texts by simp [texts])
  have hversion := isFirm_property h "version" (by decide) (by decide)
    (show settings.version ∈ settings.texts by simp [texts])
  have hdescription := isFirm_property h "description" (by decide) (by decide)
    (show settings.description ∈ settings.texts by simp [texts])
  have hurl : isFirm ("url: " ++ settings.serverUrl ++ ",").toList = true := by
    have hvariable : Flat settings.serverUrlVar := h _ (by simp [texts])
    refine isFirm_append ?_ ?_ (by decide)
    · rw [String.toList_append]
      exact standsOut_append (by decide) _
    · simp only [serverUrl, flat_append]
      exact ⟨⟨by decide, ⟨⟨hvariable, by decide⟩, by decide⟩,
        by decide⟩, by decide⟩
  have hsecurity : ∀ text ∈ Step.textsOf [object "components" [object "securitySchemes"
      [object "bearerAuth" [property "type" "http", property "scheme" "bearer",
        property "bearerFormat" "JWT"]]]], isFirm text.toList = true := by
    decide
  simp only [definition, object, Step.textsOf, Step.texts, List.forall_mem_cons,
    List.forall_mem_append] at hsecurity ⊢
  exact ⟨hopenapi, ⟨by decide, by decide, htitle, hversion, hdescription, nofun⟩,
    ⟨by decide, by decide, ⟨by decide, by decide,
      ⟨hurl, nofun⟩, ⟨by decide, nofun⟩, nofun⟩, nofun⟩, hsecurity, nofun⟩

theorem isFirm_texts : ∀ text ∈ Step.textsOf settings.steps, isFirm text.toList = true := by
  have hdefinition := isFirm_definition h
  have hapis : isFirm ("apis: [" ++ ", ".intercalate (settings.apis.map stringLiteral) ++
      "],").toList = true := by
    have hlist : Flat (", ".intercalate (settings.apis.map stringLiteral)) := by
      refine flat_intercalate (by decide) fun text htext => ?_
      obtain ⟨api, hapi, rfl⟩ := List.mem_map.1 htext
      exact flat_stringLiteral (h api (by simp [texts, hapi]))
    refine isFirm_append ?_ ?_ (by decide)
    · rw [String.toList_append]
      exact standsOut_append (by decide) _
    · simp only [flat_append]
      exact ⟨⟨by decide, hlist⟩, by decide⟩
  have hroute : isFirm ("this.app.use(" ++ stringLiteral settings.route ++ ", " ++ viewerName ++
      ".serve, " ++ viewerName ++ ".setup(specs));").toList = true := by
    have hquoted := flat_stringLiteral (h settings.route (by simp [texts]))
    refine isFirm_append ?_ ?_ (by decide)
    · simp only [String.toList_append, List.append_assoc]
      exact standsOut_append (by decide) _
    · simp only [flat_append]
      exact ⟨⟨⟨⟨⟨⟨by decide, hquoted⟩, by decide⟩, by decide⟩,
        by decide⟩, by decide⟩, by decide⟩
  simp only [steps, object, Step.textsOf, Step.texts, List.forall_mem_cons,
    List.forall_mem_append]
  exact ⟨⟨by decide, by decide, ⟨by decide, by decide, hdefinition⟩,
    ⟨hapis, nofun⟩, nofun⟩, nofun, ⟨by decide, nofun⟩, ⟨hroute, nofun⟩, nofun⟩

end

/-- The only blank line stands between the options and what is done with them. -/
theorem spaced_bodyLines (settings : ApiDocsSettings) : Spaced .blank settings.bodyLines := by
  obtain ⟨options, rest, hlines, hoptions, hrest⟩ : ∃ options rest,
      settings.bodyLines = options ++ .blank :: rest ∧
      (.blank ∉ options ∧ options ≠ []) ∧ .blank ∉ rest ∧ rest ≠ [] := by
    refine ⟨Step.lines 0 (.enclosed "const options = \x7b" "\x7d;" _), Step.linesOf 0 _, rfl,
      ⟨?_, nofun⟩, ?_, nofun⟩
    · cases hauth : settings.bearerAuth <;>
        simp [Step.lines, Step.linesOf, definition, object, property, hauth]
    · simp [Step.lines, Step.linesOf]
  rw [hlines]
  exact (Spaced.of_not_mem hoptions.1).separate (.of_not_mem hrest.1) hoptions.2 hrest.2

/-- The lines of the body are told apart from their margins and rise by one level at a time. -/
theorem stepped {settings : ApiDocsSettings} (h : ∀ text ∈ settings.texts, Flat text) :
    Block.Stepped settings.bodyLines where
  firm _ hline := Step.firm_of_mem_linesOf (isFirm_texts h) hline
  steady := steady_linesOf 0 settings.steps
  spaced := settings.spaced_bodyLines

/-- The body is read as the block of its lines, whatever indentation it is written with. -/
theorem ofText_body {settings : ApiDocsSettings} (h : ∀ text ∈ settings.texts, Flat text)
    (indent : Indent) : Block.ofText (settings.body indent) = ⟨settings.bodyLines⟩ := by
  rw [body_eq, (stepped h).ofText_written]

/-- At every level and with every indentation the block of the body is rendered as the lines of the
body, each but the blank ones with the margin of the level in front of it. -/
theorem keeps_layout {settings : ApiDocsSettings} (h : ∀ text ∈ settings.texts, Flat text)
    (indent : Indent) (level : Nat) :
    splitLines ((Block.ofText (settings.body indent)).render { indent, level }).text.toList =
      (splitLines (settings.body indent).toList).map fun line =>
        if White line then [] else List.replicate (level * indent.width) ' ' ++ line := by
  have hrendered : ((Block.ofText (settings.body indent)).render { indent, level }).text.toList =
      Block.written { indent, level } settings.bodyLines := by
    rw [ofText_body h, Block.toList_text_render]
    rfl
  rw [hrendered, (stepped h).splitLines_deeper, body_eq, String.toList_ofList]

theorem keeps_layout_defaults :
    (∀ text ∈ ({ route := "/it's" } : ApiDocsSettings).texts, Flat text) ∧
      splitLines ((Block.ofText (({ route := "/it's" } : ApiDocsSettings).body .two)).render
        { indent := .two, level := 2 }).text.toList =
        (splitLines (({ route := "/it's" } : ApiDocsSettings).body .two).toList).map fun line =>
          if White line then [] else List.replicate 4 ' ' ++ line :=
  have h : ∀ text ∈ ({ route := "/it's" } : ApiDocsSettings).texts, Flat text := by
    decide +kernel
  ⟨h, keeps_layout h .two 2⟩

/-! ### Where the configured strings stand -/

/-- Each line of code of the body is found in its text, behind a margin. -/
theorem exists_margin {settings : ApiDocsSettings} (h : ∀ text ∈ settings.texts, Flat text)
    (indent : Indent) {depth : Nat} {text : String}
    (hline : .code depth 0 text ∈ settings.bodyLines) :
    ∃ margin, White margin ∧ margin ++ text.toList ∈ splitLines (settings.body indent).toList := by
  refine ⟨List.replicate (depth * indent.width) ' ', white_replicate (by decide) _, ?_⟩
  rw [body_eq, String.toList_ofList, (stepped h).splitLines_written, ← Block.Line.written_code]
  exact List.mem_append_left _ (List.mem_map_of_mem hline)

theorem mem_bodyLines_of_definition {settings : ApiDocsSettings} {line : Block.Line}
    (h : line ∈ Step.linesOf 2 settings.definition) : line ∈ settings.bodyLines := by
  simp [bodyLines, steps, Step.linesOf, Step.lines, object, h]

/-- The configured strings that have a line of their own in the body, each with what stands in front
of it there. -/
def quoted (settings : ApiDocsSettings) : List (String × String) :=
  [ ("openapi: ", settings.openapi), ("title: ", settings.title), ("version: ", settings.version),
    ("description: ", settings.description), ("this.app.use(", settings.route) ]

section

variable {settings : ApiDocsSettings} (h : ∀ text ∈ settings.texts, Flat text)
  (hreturn : ∀ text ∈ settings.texts, '\r' ∉ text.toList) (indent : Indent)
include h hreturn

/-- Without line ends in the settings, each of these strings stands in its line as a literal that
stands for it. -/
theorem exists_literal_line {front value : String} (hquoted : (front, value) ∈ settings.quoted) :
    Denotes (stringLiteral value) value ∧ ∃ margin back, White margin ∧
      margin ++ (front ++ stringLiteral value ++ back).toList ∈
        splitLines (settings.body indent).toList := by
  have hvalue : value ∈ settings.texts := by
    simp only [quoted, List.mem_cons, Prod.mk.injEq, List.not_mem_nil, or_false] at hquoted
    obtain ⟨-, rfl⟩ | ⟨-, rfl⟩ | ⟨-, rfl⟩ | ⟨-, rfl⟩ | ⟨-, rfl⟩ := hquoted <;> simp [texts]
  obtain ⟨depth, back, hline⟩ : ∃ depth back,
      .code depth 0 (front ++ stringLiteral value ++ back) ∈ settings.bodyLines := by
    simp only [quoted, List.mem_cons, Prod.mk.injEq, List.not_mem_nil, or_false] at hquoted
    obtain ⟨rfl, rfl⟩ | ⟨rfl, rfl⟩ | ⟨rfl, rfl⟩ | ⟨rfl, rfl⟩ | ⟨rfl, rfl⟩ := hquoted
    · exact ⟨2, ",", mem_bodyLines_of_definition (by simp [definition, Step.linesOf, Step.lines,
        property])⟩
    · exact ⟨3, ",", mem_bodyLines_of_definition (by simp [definition, Step.linesOf, Step.lines,
        object, property])⟩
    · exact ⟨3, ",", mem_bodyLines_of_definition (by simp [definition, Step.linesOf, Step.lines,
        object, property])⟩
    · exact ⟨3, ",", mem_bodyLines_of_definition (by simp [definition, Step.linesOf, Step.lines,
        object, property])⟩
    · exact ⟨0, ", " ++ viewerName ++ ".serve, " ++ viewerName ++ ".setup(specs));",
        by simp [bodyLines, steps, Step.linesOf, Step.lines, String.append_assoc]⟩
  obtain ⟨margin, hwhite, hmem⟩ := exists_margin h indent hline
  exact ⟨(denotes_stringLiteral_iff value).2 ⟨h value hvalue, hreturn value hvalue⟩, margin, back,
    hwhite, hmem⟩

/-- The patterns stand side by side in one line, each as a literal that stands for it. -/
theorem exists_apis_line :
    (∀ api ∈ settings.apis, Denotes (stringLiteral api) api) ∧ ∃ margin, White margin ∧
      margin ++ ("apis: [" ++ ", ".intercalate (settings.apis.map stringLiteral) ++ "],").toList ∈
        splitLines (settings.body indent).toList := by
  have hline : .code 1 0 ("apis: [" ++ ", ".intercalate (settings.apis.map stringLiteral) ++
      "],") ∈ settings.bodyLines := by
    simp [bodyLines, steps, Step.linesOf, Step.lines, object]
  refine ⟨fun api hapi => ?_, exists_margin h indent hline⟩
  have htext : api ∈ settings.texts := by simp [texts, hapi]
  exact (denotes_stringLiteral_iff api).2 ⟨h api htext, hreturn api htext⟩

end

end ApiDocsSettings

end CodeSplice
