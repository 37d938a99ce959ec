/-
Module: CodeSplice.Proofs.Feature.ApiDocs
Purpose: What adding the API documentation does to a document. The two imports stand side by side,
  the class has the method and its constructor calls it; everything else stays, but for one name
  that an import may bind in addition.
Main exports: ApiDocsSettings.edits_eq, Paired, ApiDocsSettings.Adds, ApiDocsSettings.Keeps,
  exists_patch_apiDocs, patch_adds_keeps
-/
import CodeSplice.Proofs.Edit.Neighbours
import CodeSplice.Proofs.Patch.Order

namespace CodeSplice

/-! ### The edits by name -/

namespace ApiDocsSettings

open ApiDocs

variable (settings : ApiDocsSettings)

/-- The import of the module that builds the specification. -/
def builderEdit : ImportEdit where
  declaration := { specifier := builderModule, default := some builderName }
  after := anchorName? settings.anchors.importAfter

/-- The import of the module that serves the specification. -/
def viewerEdit : ImportEdit where
  declaration := { specifier := viewerModule, default := some viewerName }
  after := some builderModule

/-- The name that holds the address of the server. -/
def bindingEdit : BindingEdit where
  specifier := settings.envModule
  name := settings.serverUrlVar

/-- The method that sets the documentation up. -/
def methodEdit (indent : Layout.Indent) : MethodEdit where
  draft :=
    { name := settings.method
      visibility := some .isPrivate
      parameters := [routePrefix]
      body := .ofText (settings.body indent) }
  before := anchorName? settings.anchors.methodBefore

/-- The call of that method. -/
def callEdit : CallEdit where
  draft := ({ method := settings.method } : CallDraft).forward routePrefixWithDefault
  before := anchorName? settings.anchors.callBefore
  after := anchorName? settings.anchors.callAfter

theorem edits_eq (indent : Layout.Indent) :
    settings.edits indent =
      [.placeImport settings.builderEdit, .placeImport viewerEdit,
          .bindName settings.bindingEdit] ++
        [.addMethod (settings.methodEdit indent), .addCall settings.callEdit] :=
  rfl

theorem builderModule_ne_viewerModule : builderModule ≠ viewerModule := by
  decide

end ApiDocsSettings

/-! ### Imports side by side -/

section

variable {first second : ImportEdit} {document after : Document} {front back : List (Entry Item)}

/-- Two modules are imported once each, the second directly behind the first, in front of `back` and
behind `front`. -/
structure Paired (first second : ImportEdit) (document : Document)
    (front back : List (Entry Item)) : Prop where
  exists_items : ∃ entry entry' : Entry Item, document.items = front ++ entry :: entry' :: back ∧
    entry.node.imports first.declaration.specifier = true ∧
    entry'.node.imports second.declaration.specifier = true
  others : ∀ e ∈ front ++ back, isOther first second e.node = true

/-- The entries end with the first import of a module. -/
def EndWithFirst (name : String) (entries : List (Entry Item)) : Prop :=
  ∃ others anchor, entries = others ++ [anchor] ∧ anchor.node.imports name = true ∧
    ∀ e ∈ others, e.node.imports name = false

theorem forall_of_map_eq {entries others : List (Entry Item)} {q : Item → Bool}
    (hq : ∀ item other : Item, item.specifier? = other.specifier? → q item = q other)
    (h : entries.map (·.node.specifier?) = others.map (·.node.specifier?)) {b : Bool}
    (hothers : ∀ e ∈ others, q e.node = b) : ∀ e ∈ entries, q e.node = b := by
  intro e he
  have hmem : e.node.specifier? ∈ others.map (·.node.specifier?) := by
    rw [← h]
    exact List.mem_map_of_mem he
  obtain ⟨other, hother, heq⟩ := List.mem_map.1 hmem
  rw [hq _ _ heq.symm, hothers other hother]

/-- Whether imports stand side by side can be seen from the modules that the items import. -/
theorem Paired.of_map_eq (h : Paired first second document front back)
    (hmap : after.items.map (·.node.specifier?) = document.items.map (·.node.specifier?)) :
    ∃ front' back', Paired first second after front' back' ∧
      front'.map (·.node.specifier?) = front.map (·.node.specifier?) := by
  obtain ⟨⟨entry, entry', hitems, hentry, hentry'⟩, hothers⟩ := h
  rw [hitems, List.map_append, List.map_eq_append_iff] at hmap
  obtain ⟨front', rest, hafter, hfront, hrest⟩ := hmap
  obtain ⟨new, rest, rfl, hnew, hrest⟩ := List.map_eq_cons_iff.1 hrest
  obtain ⟨new', back', rfl, hnew', hback⟩ := List.map_eq_cons_iff.1 hrest
  refine ⟨front', back', ⟨⟨new, new', hafter, ?_, ?_⟩, ?_⟩, hfront⟩
  · rw [Item.imports_congr _ hnew, hentry]
  · rw [Item.imports_congr _ hnew', hentry']
  · refine forall_of_map_eq (fun _ _ => isOther_congr) ?_ hothers
    rw [List.map_append, List.map_append, hfront, hback]

theorem SideBySide.paired {previous previous' : Option (Entry Item)}
    (h : SideBySide first second front back previous previous' document) :
    Paired first second document front back where
  exists_items := ⟨_, _, h.items_eq, ImportEdit.imports_entry.2 rfl, ImportEdit.imports_entry.2 rfl⟩
  others := fun e he => (List.mem_append.1 he).elim (h.front_others e) (h.back_others e)

/-- The other items are those in front of the two imports and those behind them. -/
theorem Paired.filter_isOther (h : Paired first second document front back) :
    document.items.filter (isOther first second ·.node) = front ++ back := by
  obtain ⟨⟨entry, entry', hitems, hentry, hentry'⟩, hothers⟩ := h
  have hfront := List.filter_eq_self.2 fun e he => hothers e (List.mem_append_left back he)
  have hback := List.filter_eq_self.2 fun e he => hothers e (List.mem_append_right front he)
  rw [hitems, List.filter_append, hfront,
    List.filter_cons_of_neg (by simp [isOther, hentry]),
    List.filter_cons_of_neg (by simp [isOther, hentry']), hback]

theorem Spot.endWithFirst {after : Option String} {name : String}
    (h : Spot after front back (.after name)) : after = some name ∧ EndWithFirst name front := by
  cases h with
  | anchored follows first answers => exact ⟨follows, _, _, rfl, answers, first⟩

theorem EndWithFirst.of_map_eq {name : String} {entries others : List (Entry Item)}
    (h : EndWithFirst name others)
    (hmap : entries.map (·.node.specifier?) = others.map (·.node.specifier?)) :
    EndWithFirst name entries := by
  obtain ⟨others, anchor, rfl, hanchor, hothers⟩ := h
  rw [List.map_append, List.map_eq_append_iff] at hmap
  obtain ⟨entries, last, rfl, hentries, hlast⟩ := hmap
  obtain ⟨new, rest, rfl, hnew, hrest⟩ := List.map_eq_cons_iff.1 hlast
  obtain rfl := List.map_eq_nil_iff.1 hrest
  exact ⟨entries, new, rfl, by rw [Item.imports_congr _ hnew, hanchor],
    forall_of_map_eq (fun _ _ => Item.imports_congr name) hentries hothers⟩

end

/-! ### What a run makes of a document -/

namespace ApiDocsSettings

open ApiDocs

/-- A class that may have got a method, and a call in its constructor. -/
def Extended (method : MethodEdit) (call : CallEdit) (before after : Item) : Prop :=
  ∃ old middle new : ClassDeclaration, before = .classlike old ∧ method.Applied old middle ∧
    call.Applied middle new ∧ after = .classlike new

/-- What a document has when the documentation has been added to it: the two imports, directly
behind the first import of the anchor if that is another module, and the method with a call of it.
-/
structure Adds (settings : ApiDocsSettings) (target : String) (before after : Document) : Prop where
  imports : ∃ front back, Paired settings.builderEdit viewerEdit after front back ∧
    ∀ name, anchorName? settings.anchors.importAfter = some name → name ≠ builderModule →
      name ≠ viewerModule → (before.import? name).isSome = true → EndWithFirst name front
  calls : ∃ declaration constructor, after.class? target = some declaration ∧
    (declaration.method? settings.method).isSome = true ∧
    declaration.constructor? = some constructor ∧ constructor.calls settings.method = true

/-- What stays as it is: every item but the imports of the two modules, in its order and with what
stands around it. One of the imports may bind one more name, and the class may be extended. -/
structure Keeps (settings : ApiDocsSettings) (indent : Layout.Indent) (target : String)
    (before after : Document) : Prop where
  name : after.name = before.name
  dangling : after.dangling = before.dangling
  items : ∃ middle,
    ChangesFirst (·.imports settings.envModule) (BindingEdit.BindsMore settings.serverUrlVar)
      (before.items.filter (isOther settings.builderEdit viewerEdit ·.node)) middle ∧
    ChangesFirst (·.isClass target) (Extended (settings.methodEdit indent) settings.callEdit) middle
      (after.items.filter (isOther settings.builderEdit viewerEdit ·.node))

variable (settings : ApiDocsSettings) (document : Document)

/-- The document with the imports and the name. -/
def imported : Document :=
  (settings.bindingEdit.apply
    (viewerEdit.apply (settings.builderEdit.apply document).2).2).2

/-- Nothing but the items changes. -/
theorem imported_eq :
    settings.imported document =
      { document with items := (settings.imported document).items } := by
  unfold imported
  rcases settings.bindingEdit.apply_cases
      (viewerEdit.apply (settings.builderEdit.apply document).2).2 with
    ⟨_, -, happly⟩ | ⟨_, -, -, -, happly⟩ <;>
  · rw [happly]
    rfl

theorem class?_imported (name : String) :
    (settings.imported document).class? name = document.class? name := by
  rw [imported, settings.bindingEdit.keepsClasses.class?_eq, viewerEdit.keepsClasses.class?_eq,
    settings.builderEdit.keepsClasses.class?_eq]

/-- The class with the method and the call. -/
def extended (indent : Layout.Indent) (declaration : ClassDeclaration) : ClassDeclaration :=
  (settings.callEdit.apply ((settings.methodEdit indent).apply declaration).2).2

theorem name_extended (indent : Layout.Indent) (declaration : ClassDeclaration) :
    (settings.extended indent declaration).name = declaration.name := by
  rw [extended, settings.callEdit.name_apply, (settings.methodEdit indent).name_apply]

variable {settings document} {target : String} {declaration : ClassDeclaration}

theorem adds_of_class? (h : document.class? target = some declaration)
    (indent : Layout.Indent) :
    settings.Adds target document
      ((settings.imported document).setClass target (settings.extended indent declaration)) := by
  have hclass : (settings.imported document).class? target = some declaration := by
    rw [class?_imported, h]
  have hname := (settings.name_extended indent declaration).trans
    (Document.firstNode_of_class? h).2
  constructor
  · obtain ⟨front, back, previous, previous', hside, -, -, hspot⟩ :=
      @exists_sideBySide settings.builderEdit viewerEdit rfl builderModule_ne_viewerModule document
    -- Binding a name and changing the class leave the modules that the items import.
    have hmap : ((settings.imported document).setClass target
        (settings.extended indent declaration)).items.map (·.node.specifier?) =
          (viewerEdit.apply (settings.builderEdit.apply document).2).2.items.map
            (·.node.specifier?) := by
      rw [Document.map_specifier?_setClass, imported, BindingEdit.map_specifier?_apply]
    obtain ⟨front', back', hpaired, hfront⟩ := hside.paired.of_map_eq hmap
    refine ⟨front', back', hpaired, fun name hafter hbuilder hviewer himport => ?_⟩
    rcases hspot with ⟨-, other, -, -, hspot⟩ | ⟨hnot, -⟩
    · obtain ⟨hother, hends⟩ := hspot.endWithFirst
      obtain rfl := Option.some.inj (hother.symm.trans hafter)
      exact hends.of_map_eq hfront
    · exact absurd ⟨name, hafter, hbuilder, hviewer, himport⟩ hnot
  · obtain ⟨constructor, hconstructor, hcalls⟩ :=
      settings.callEdit.calls_apply ((settings.methodEdit indent).apply declaration).2
    refine ⟨_, constructor, Document.class?_setClass (by rw [hclass]; rfl) hname, ?_,
      hconstructor, hcalls⟩
    rw [extended, ClassDeclaration.method?, settings.callEdit.methods_apply]
    exact (settings.methodEdit indent).isSome_method?_apply declaration

theorem keeps_of_class? (h : document.class? target = some declaration) (indent : Layout.Indent) :
    settings.Keeps indent target document
      ((settings.imported document).setClass target (settings.extended indent declaration)) := by
  have hclass : (settings.imported document).class? target = some declaration := by
    rw [class?_imported, h]
  obtain ⟨front, back, previous, previous', hside, -, hfilter, -⟩ :=
    @exists_sideBySide settings.builderEdit viewerEdit rfl builderModule_ne_viewerModule document
  constructor
  · rw [Document.name_setClass, settings.imported_eq]
  · rw [Document.dangling_setClass, settings.imported_eq]
  refine ⟨(settings.imported document).items.filter
    (isOther settings.builderEdit viewerEdit ·.node), ?_, ?_⟩
  · rw [← hfilter, ← hside.paired.filter_isOther]
    exact settings.bindingEdit.changesFirst_apply _ fun _ _ => isOther_congr
  · exact Document.changesFirst_setClass _ (fun _ _ => isOther_congr) hclass
      ⟨declaration, _, _, rfl, (settings.methodEdit indent).applied declaration,
        settings.callEdit.applied _, rfl⟩

end ApiDocsSettings

open ApiDocs ApiDocsSettings

/-- What a run comes to. -/
theorem exists_patch_apiDocs {document : Document} {target : String}
    {declaration : ClassDeclaration} (h : document.class? target = some declaration)
    (config : Config) :
    ∃ run, patch document (Feature.apiDocs.plan config) target = .ok run ∧
      run.document = (config.apiDocs.imported document).setClass target
        (config.apiDocs.extended config.style.toStyle.indent declaration) := by
  set method := config.apiDocs.methodEdit config.style.toStyle.indent
  set bound := config.apiDocs.imported document with hbound
  have hclass : bound.class? target = some declaration := by
    rw [hbound, config.apiDocs.class?_imported, h]
  have hname : (method.apply declaration).2.name = target :=
    (method.name_apply declaration).trans (Document.firstNode_of_class? h).2
  have hmethod : (Edit.addMethod method).apply bound target =
      .ok ((method.apply declaration).1, bound.setClass target (method.apply declaration).2) :=
    Edit.applyToClass_eq_ok_iff.2 ⟨declaration, hclass, rfl, rfl⟩
  have hcall : (Edit.addCall config.apiDocs.callEdit).apply
      (bound.setClass target (method.apply declaration).2) target =
        .ok ((config.apiDocs.callEdit.apply (method.apply declaration).2).1,
          bound.setClass target
            (config.apiDocs.extended config.style.toStyle.indent declaration)) :=
    Edit.applyToClass_eq_ok_iff.2
      ⟨_, Document.class?_setClass (by rw [hclass]; rfl) hname, rfl,
        Document.setClass_setClass hname⟩
  have himports : InTurn target document
      [⟨.placeImport config.apiDocs.builderEdit, (config.apiDocs.builderEdit.apply document).1⟩,
        ⟨.placeImport viewerEdit,
          (viewerEdit.apply (config.apiDocs.builderEdit.apply document).2).1⟩,
        ⟨.bindName config.apiDocs.bindingEdit, (config.apiDocs.bindingEdit.apply
          (viewerEdit.apply (config.apiDocs.builderEdit.apply document).2).2).1⟩] bound :=
    .cons rfl (.cons rfl (.cons rfl .nil))
  have hsome : (document.class? target).isSome = true := by rw [h]; rfl
  obtain ⟨run, hrun, hdocument, -, -⟩ :=
    @patch_of_inTurn _ _ (Feature.apiDocs.plan config) _ _ hsome rfl
      (himports.append (.cons hmethod (.cons hcall .nil)))
  exact ⟨run, hrun, hdocument⟩

/-- A run adds the documentation to a document that has the class, and keeps everything else. -/
theorem patch_adds_keeps (document : Document) (config : Config) (target : String)
    (h : (document.class? target).isSome = true) :
    ∃ run, patch document (Feature.apiDocs.plan config) target = .ok run ∧
      config.apiDocs.Adds target document run.document ∧
      config.apiDocs.Keeps config.style.toStyle.indent target document run.document := by
  obtain ⟨declaration, hclass⟩ := Option.isSome_iff_exists.1 h
  obtain ⟨run, hrun, hdocument⟩ := exists_patch_apiDocs hclass config
  refine ⟨run, hrun, ?_, ?_⟩
  · rw [hdocument]
    exact adds_of_class? hclass config.style.toStyle.indent
  · rw [hdocument]
    exact keeps_of_class? hclass config.style.toStyle.indent

/-- A class with nothing in it gets the method and a constructor, and the imports stand in front of
it. -/
theorem patch_adds_keeps_bareClass :
    ((bareClass "App").class? "App").isSome = true ∧
      ∃ run, patch (bareClass "App") (Feature.apiDocs.plan {}) "App" = .ok run ∧
        ({} : ApiDocsSettings).Adds "App" (bareClass "App") run.document ∧
        ({} : ApiDocsSettings).Keeps (.ofWidth 2) "App" (bareClass "App") run.document := by
  have hclass : ((bareClass "App").class? "App").isSome = true := by decide +kernel
  exact ⟨hclass, patch_adds_keeps (bareClass "App") {} "App" hclass⟩

end CodeSplice
