/-
Module: CodeSplice.Proofs.Patch.Rerun
Purpose: The feature is added to a document to which it has been added already. The document stays
  as it is. Whether the second run knows that it has done nothing is another matter: without an
  anchor among the other imports, it moves the two imports of the feature past each other and back
  and reports both moves; and if the name is bound from one of the two modules, it puts that import
  there anew without the name and binds the name again.
Main exports: exists_imports_again, exists_rerun, patch_patch_apiDocs, changed_rerun_eq_false_iff,
  not_forall_unchanged_rerun
-/
import CodeSplice.Proofs.Edit.Outcome
import CodeSplice.Proofs.Feature.ApiDocs

namespace CodeSplice

/-! ### Imports and a name to bind -/

section

variable {first second : ImportEdit} {binding : BindingEdit} {target : String}
  {document : Document} {front back : List (Entry Item)} {previous previous' : Option (Entry Item)}

theorem SideBySide.import?_first
    (h : SideBySide first second front back previous previous' document) :
    document.import? first.declaration.specifier = some first.declaration := by
  rw [Document.import?_eq_bind, h.items_eq,
    firstNode_append_cons (p := (Item.imports · first.declaration.specifier))
      (fun e he => (isOther_iff.1 (h.front_others e he)).1) (ImportEdit.imports_entry.2 rfl)]
  rfl

theorem SideBySide.import?_second
    (h : SideBySide first second front back previous previous' document)
    (hne : first.declaration.specifier ≠ second.declaration.specifier) :
    document.import? second.declaration.specifier = some second.declaration := by
  have hitems : document.items =
      (front ++ [first.entry previous]) ++ second.entry previous' :: back := by
    simpa using h.items_eq
  rw [Document.import?_eq_bind, hitems,
    firstNode_append_cons (p := (Item.imports · second.declaration.specifier)) (fun e he => ?_)
      (ImportEdit.imports_entry.2 rfl)]
  · rfl
  · rcases List.mem_append.1 he with he | he
    · exact (isOther_iff.1 (h.front_others e he)).2
    · rw [List.mem_singleton.1 he]
      exact ImportEdit.not_imports_entry.2 hne

/-- A name that is bound from one of the two modules is gone when both imports have been put there
anew. -/
theorem apply_apply_of_bound (hne : first.declaration.specifier ≠ second.declaration.specifier)
    (hmodule : binding.specifier = first.declaration.specifier ∨
      binding.specifier = second.declaration.specifier)
    (hsame : (second.apply (first.apply document).2).2 = document) :
    (second.apply (first.apply (binding.apply document).2).2).2 = document := by
  rcases binding.apply_cases document with ⟨_, -, happly⟩ | ⟨declaration, found, -, -, happly⟩
  · rw [happly, hsame]
  · rw [happly]
    rcases hmodule with hfirst | hsecond
    · rw [hfirst] at found ⊢
      rw [first.apply_setImport_pushNamed_self found, hsame]
    · rw [hsecond] at found ⊢
      -- The first import is put in its place in front of the change, the second one undoes it.
      have found' : (first.apply document).2.import? second.declaration.specifier =
          some declaration := by
        rw [first.import?_apply document hne, found]
      rw [first.apply_setImport_pushNamed found binding.name hne,
        second.apply_setImport_pushNamed_self found', hsame]

/-- A name that can be bound from one of the two modules is bound. -/
theorem SideBySide.changed_bindName
    (h : SideBySide first second front back previous previous' document)
    (hne : first.declaration.specifier ≠ second.declaration.specifier)
    (hmodule : binding.specifier = first.declaration.specifier ∨
      binding.specifier = second.declaration.specifier)
    (hbinds : first.declaration.binds binding.name = false ∧
      second.declaration.binds binding.name = false)
    (hpossible : BindingEdit.obstacle? first.declaration = none ∧
      BindingEdit.obstacle? second.declaration = none) :
    (binding.apply document).1.changed = true := by
  rcases hmodule with hfirst | hsecond
  · have hfound := h.import?_first
    rw [← hfirst] at hfound
    rw [BindingEdit.apply_of_possible hfound hbinds.1 hpossible.1]
    rfl
  · have hfound := h.import?_second hne
    rw [← hsecond] at hfound
    rw [BindingEdit.apply_of_possible hfound hbinds.2 hpossible.2]
    rfl

/-- A name from one of the two modules is bound anew each time, as it was the first time. -/
theorem exists_bound_again (target : String)
    (hne : first.declaration.specifier ≠ second.declaration.specifier)
    (hmodule : binding.specifier = first.declaration.specifier ∨
      binding.specifier = second.declaration.specifier)
    (hsame : (second.apply (first.apply document).2).2 = document) :
    ∃ outcome outcome', InTurn target (binding.apply document).2
      [⟨.placeImport first, outcome⟩, ⟨.placeImport second, outcome'⟩,
        ⟨.bindName binding, (binding.apply document).1⟩] (binding.apply document).2 := by
  have hlast : InTurn target (second.apply (first.apply (binding.apply document).2).2).2
      [⟨.bindName binding, (binding.apply document).1⟩] (binding.apply document).2 := by
    rw [apply_apply_of_bound hne hmodule hsame]
    exact .cons rfl .nil
  exact ⟨_, _, .cons rfl (.cons rfl hlast)⟩

/-- A name from another module does not matter to the imports, and is bound once. -/
theorem exists_idle_again {outcome outcome' : Outcome}
    (hfirst : first.declaration.specifier ≠ binding.specifier)
    (hsecond : second.declaration.specifier ≠ binding.specifier)
    (h : InTurn target document
      [⟨.placeImport first, outcome⟩, ⟨.placeImport second, outcome'⟩] document) :
    ∃ idle : Outcome, idle.changed = false ∧ InTurn target (binding.apply document).2
      [⟨.placeImport first, outcome⟩, ⟨.placeImport second, outcome'⟩, ⟨.bindName binding, idle⟩]
      (binding.apply document).2 := by
  have hagain := binding.honest.again document
  have hbind : InTurn target document [⟨.bindName binding, (binding.apply document).1⟩]
      (binding.apply document).2 := .cons rfl .nil
  have hsettled := InTurn.of_settled (fun a ha b hb => by
    rw [List.mem_singleton.1 hb]
    simp only [List.mem_cons, List.not_mem_nil, or_false] at ha
    rcases ha with rfl | rfl
    · exact (Edit.exchanges_of_specifier_ne target hfirst).1
    · exact (Edit.exchanges_of_specifier_ne target hsecond).1) h hbind
  exact ⟨_, Outcome.changed_again _, hsettled.append (.cons (congrArg Except.ok hagain) .nil)⟩

/-- Two imports side by side and a name to bind, and the same again. The items stay as they are;
nothing is reported to have changed exactly if the first import has an anchor and the name is bound
from a third module. -/
theorem exists_imports_again (hfollows : second.after = some first.declaration.specifier)
    (hne : first.declaration.specifier ≠ second.declaration.specifier)
    (hbinds : first.declaration.binds binding.name = false ∧
      second.declaration.binds binding.name = false)
    (hpossible : BindingEdit.obstacle? first.declaration = none ∧
      BindingEdit.obstacle? second.declaration = none)
    (target : String) (document : Document) :
    ∃ once again after,
      once.map (·.edit) = [.placeImport first, .placeImport second, .bindName binding] ∧
      again.map (·.edit) = [.placeImport first, .placeImport second, .bindName binding] ∧
      InTurn target document once after ∧ InTurn target after again after ∧
      ((∀ a ∈ again, a.outcome.changed = false) ↔
        Anchored first second document ∧ binding.specifier ≠ first.declaration.specifier ∧
          binding.specifier ≠ second.declaration.specifier) := by
  obtain ⟨front, back, previous, previous', hside, -⟩ := exists_sideBySide hfollows hne document
  obtain ⟨outcome, outcome', middle, hmiddle, hpair, hchanged⟩ :=
    exists_apply_again hfollows hne document
  set paired := (second.apply (first.apply document).2).2
  have honce : InTurn target document
      [⟨.placeImport first, (first.apply document).1⟩,
        ⟨.placeImport second, (second.apply (first.apply document).2).1⟩,
        ⟨.bindName binding, (binding.apply paired).1⟩] (binding.apply paired).2 :=
    .cons rfl (.cons rfl (.cons rfl .nil))
  by_cases hmodule : binding.specifier = first.declaration.specifier ∨
      binding.specifier = second.declaration.specifier
  · have hbound := hside.changed_bindName hne hmodule hbinds hpossible
    obtain ⟨outcome, outcome', hagain⟩ :=
      exists_bound_again target hne hmodule (by rw [hmiddle, hpair])
    refine ⟨_, _, _, rfl, rfl, honce, hagain, ?_⟩
    constructor
    · intro hall
      have hidle : (binding.apply paired).1.changed = false :=
        hall ⟨.bindName binding, _⟩ (by simp)
      rw [hbound] at hidle
      cases hidle
    · rintro ⟨-, hother, hother'⟩
      exact absurd hmodule (not_or.2 ⟨hother, hother'⟩)
  · obtain ⟨hother, hother'⟩ := not_or.1 hmodule
    obtain ⟨idle, hidle, hagain⟩ := exists_idle_again (Ne.symm hother) (Ne.symm hother')
      (.cons (congrArg Except.ok hmiddle) (.cons (congrArg Except.ok hpair) .nil))
    refine ⟨_, _, _, rfl, rfl, honce, hagain, ?_⟩
    simp [hidle, hother, hother', ← hchanged]

end

/-! ### A method and a call -/

/-- A method and a call, and the same again: they are there already. -/
theorem exists_class_again (method : MethodEdit) (call : CallEdit) {target : String}
    {document : Document} (hclass : (document.class? target).isSome = true) :
    ∃ once again after, once.map (·.edit) = [.addMethod method, .addCall call] ∧
      again.map (·.edit) = [.addMethod method, .addCall call] ∧
      (∀ a ∈ again, a.outcome = .alreadyPresent) ∧
      InTurn target document once after ∧ InTurn target after again after := by
  obtain ⟨outcome, next, hmethod, hnext⟩ := (Edit.addMethod method).exists_apply hclass
  obtain ⟨outcome', after, hcall, -⟩ := (Edit.addCall call).exists_apply hnext
  refine ⟨[⟨.addMethod method, outcome⟩, ⟨.addCall call, outcome'⟩],
    [⟨.addMethod method, .alreadyPresent⟩, ⟨.addCall call, .alreadyPresent⟩], after, rfl, rfl,
    by simp, .cons hmethod (.cons hcall .nil), ?_⟩
  have hmethodAgain : InTurn target next [⟨.addMethod method, .alreadyPresent⟩] next :=
    InTurn.singleton_iff.2
      (Edit.applyToClass_again method.name_apply (fun c _ => method.apply_apply c) hmethod)
  have hcallAgain : InTurn target after [⟨.addCall call, .alreadyPresent⟩] after :=
    InTurn.singleton_iff.2
      (Edit.applyToClass_again call.name_apply (fun c _ => call.apply_apply c) hcall)
  have hsettled := InTurn.of_settled (fun a ha b hb => by
    rw [List.mem_singleton.1 ha, List.mem_singleton.1 hb]
    exact Edit.exchanges_of_kind_ne target (by simp [Edit.kind])) hmethodAgain
    (InTurn.singleton_iff.2 hcall : InTurn target next [⟨.addCall call, outcome'⟩] after)
  exact hsettled.append hcallAgain

/-! ### The whole plan -/

open ApiDocs ApiDocsSettings

/-- Adding the feature to a document that has the class, and adding it again: the document stays as
it is, and the second run has changed nothing exactly if the imports have an anchor and the name is
bound from a third module. -/
theorem exists_rerun (document : Document) (config : Config) (target : String)
    (h : (document.class? target).isSome = true) :
    ∃ first second, patch document (Feature.apiDocs.plan config) target = .ok first ∧
      patch first.document (Feature.apiDocs.plan config) target = .ok second ∧
      second.document = first.document ∧
      (second.changed = false ↔
        Anchored config.apiDocs.builderEdit viewerEdit document ∧
          config.apiDocs.envModule ≠ builderModule ∧ config.apiDocs.envModule ≠ viewerModule) := by
  obtain ⟨once, again, middle, honce, hagain, hturn, hturnAgain, hchanged⟩ :=
    @exists_imports_again config.apiDocs.builderEdit viewerEdit config.apiDocs.bindingEdit rfl
      builderModule_ne_viewerModule ⟨rfl, rfl⟩ ⟨rfl, rfl⟩ target document
  obtain ⟨once', again', after, honce', hagain', hpresent, hturn', hturnAgain'⟩ :=
    exists_class_again (config.apiDocs.methodEdit config.style.toStyle.indent)
      config.apiDocs.callEdit (hturn.isSome_class? h)
  -- The imports settle in front of the method and the call, and so behind them.
  have hsettled := InTurn.of_settled (fun a ha b hb => by
    refine Edit.exchanges_of_kind_ne target ?_
    have ha' := hagain ▸ List.mem_map_of_mem (f := AppliedEdit.edit) ha
    have hb' := honce' ▸ List.mem_map_of_mem (f := AppliedEdit.edit) hb
    simp only [List.mem_cons, List.not_mem_nil, or_false] at ha' hb'
    rcases ha' with ha' | ha' | ha' <;> rcases hb' with hb' | hb' <;>
      simp [ha', hb', Edit.kind]) hturnAgain hturn'
  have hall := hturn.append hturn'
  have hallAgain := hsettled.append hturnAgain'
  have hedits : (once ++ once').map (·.edit) = (Feature.apiDocs.plan config).edits := by
    rw [List.map_append, honce, honce']
    exact (config.apiDocs.edits_eq _).symm
  have heditsAgain : (again ++ again').map (·.edit) = (Feature.apiDocs.plan config).edits := by
    rw [List.map_append, hagain, hagain']
    exact (config.apiDocs.edits_eq _).symm
  obtain ⟨first, hfirst, hdocument, -, -⟩ := patch_of_inTurn h hedits hall
  obtain ⟨second, hsecond, hdocument', -, happlied⟩ :=
    patch_of_inTurn (hall.isSome_class? h) heditsAgain hallAgain
  refine ⟨first, second, hfirst, by rw [hdocument, hsecond], by rw [hdocument, hdocument'], ?_⟩
  have hunchanged : ∀ a ∈ again', a.outcome.changed = false := fun a ha => by
    rw [hpresent a ha]
    rfl
  refine Iff.trans ?_ hchanged
  rw [Run.changed, happlied, (inPhases_perm _).any_eq]
  simpa using fun _ => hunchanged

/-- Adding the feature again to the document that adding it has made gives the same document. -/
theorem patch_patch_apiDocs (document : Document) (config : Config) (target : String)
    (h : (document.class? target).isSome = true) :
    ∃ first second, patch document (Feature.apiDocs.plan config) target = .ok first ∧
      patch first.document (Feature.apiDocs.plan config) target = .ok second ∧
      second.document = first.document := by
  obtain ⟨first, second, hfirst, hsecond, hdocument, -⟩ := exists_rerun document config target h
  exact ⟨first, second, hfirst, hsecond, hdocument⟩

/-- The imports are put there, put in their places again, and stand where they stood. -/
theorem patch_patch_apiDocs_bareClass :
    ((bareClass "App").class? "App").isSome = true ∧
      ∃ first second, patch (bareClass "App") (Feature.apiDocs.plan {}) "App" = .ok first ∧
        patch first.document (Feature.apiDocs.plan {}) "App" = .ok second ∧
        second.document = first.document := by
  have hclass : ((bareClass "App").class? "App").isSome = true := by decide +kernel
  exact ⟨hclass, patch_patch_apiDocs (bareClass "App") {} "App" hclass⟩

/-- The second run reports that it has changed nothing exactly if the import of the module that
builds the specification has an anchor, and the name is not bound from one of the two modules. -/
theorem changed_rerun_eq_false_iff {document : Document} {config : Config} {target : String}
    {first second : Run} (h : (document.class? target).isSome = true)
    (hfirst : patch document (Feature.apiDocs.plan config) target = .ok first)
    (hsecond : patch first.document (Feature.apiDocs.plan config) target = .ok second) :
    second.changed = false ↔
      Anchored config.apiDocs.builderEdit viewerEdit document ∧
        config.apiDocs.envModule ≠ builderModule ∧ config.apiDocs.envModule ≠ viewerModule := by
  obtain ⟨once, again, honce, hagain, -, hiff⟩ := exists_rerun document config target h
  obtain rfl : once = first := Except.ok.inj (honce.symm.trans hfirst)
  obtain rfl : again = second := Except.ok.inj (hagain.symm.trans hsecond)
  exact hiff

/-- A second run can report changes although the document stays as it is: without an import of the
module that the imports are to follow, both of them move. -/
theorem not_forall_unchanged_rerun :
    ¬ ∀ (document : Document) (config : Config) (target : String) (first second : Run),
      (document.class? target).isSome = true →
        patch document (Feature.apiDocs.plan config) target = .ok first →
        patch first.document (Feature.apiDocs.plan config) target = .ok second →
        second.changed = false := by
  intro hall
  have hclass : ((bareClass "App").class? "App").isSome = true := by decide +kernel
  obtain ⟨first, second, hfirst, hsecond, -, hiff⟩ := exists_rerun (bareClass "App") {} "App" hclass
  obtain ⟨⟨name, -, -, -, himport⟩, -⟩ :=
    hiff.1 (hall (bareClass "App") {} "App" first second hclass hfirst hsecond)
  exact Bool.false_ne_true himport

end CodeSplice
