/-
Module: CodeSplice.Proofs.Edit.Outcome
Purpose: What an edit reports is what it has done. An edit is reported to have changed a document
  exactly if the document is another one afterwards. Applied again, an edit finds its own result; so
  does an edit of imports, which takes its import out and puts it in again, because it comes to the
  same place among the same items. An edit fails exactly if it is about a class that is missing, and
  then nothing has happened.
Main exports: Outcome.again, Honest, ImportEdit.apply_apply, Edit.honest, Edit.apply_again,
  Edit.changed_iff, Edit.apply_truthful
-/
import CodeSplice.Patch.Run
import CodeSplice.Proofs.Edit.Basic
import CodeSplice.Proofs.Edit.Neighbours

namespace CodeSplice

/-- What an edit reports when it is applied to its own result. -/
def Outcome.again : Outcome → Outcome
  | .skipped reason => .skipped reason
  | _ => .alreadyPresent

/-- A report that nothing has changed is made again. -/
theorem Outcome.again_of_unchanged {outcome : Outcome} (h : outcome.changed = false) :
    outcome.again = outcome := by
  cases outcome <;> simp_all [changed, again]

theorem Outcome.again_of_changed {outcome : Outcome} (h : outcome.changed = true) :
    outcome.again = .alreadyPresent := by
  cases outcome <;> simp_all [changed, again]

@[simp] theorem Outcome.changed_again (outcome : Outcome) : outcome.again.changed = false := by
  cases outcome <;> rfl

/-- A change that says what it does: it reports a change exactly if it has made one, and finds
what it has put there. -/
structure Honest {σ : Type} (f : σ → Outcome × σ) : Prop where
  changed_iff : ∀ s, (f s).1.changed = true ↔ (f s).2 ≠ s
  present : ∀ s, (f s).1.changed = true → f (f s).2 = (.alreadyPresent, (f s).2)

/-- What is there already, or cannot be there, is reported again. -/
theorem Honest.again {σ : Type} {f : σ → Outcome × σ} (hf : Honest f) (s : σ) :
    f (f s).2 = ((f s).1.again, (f s).2) := by
  cases hchanged : (f s).1.changed with
  | true => rw [hf.present s hchanged, Outcome.again_of_changed hchanged]
  | false =>
    have hsame : (f s).2 = s := by
      by_contra hne
      rw [(hf.changed_iff s).2 hne] at hchanged
      cases hchanged
    rw [hsame, Outcome.again_of_unchanged hchanged]
    exact Prod.ext rfl hsame

/-! ### Imports -/

namespace ImportEdit

variable (edit : ImportEdit) (document : Document)

/-- The other items are the same afterwards, and the import of the edit is the one that is found. -/
theorem others_apply :
    edit.others (edit.apply document).2 = edit.others document ∧
      edit.previous? (edit.apply document).2 = some (edit.entry (edit.previous? document)) := by
  obtain ⟨front, back, placement, hothers, hspot⟩ :=
    exists_spot edit.after (edit.others document)
  have hfree : ∀ e ∈ front ++ back, e.node.imports edit.declaration.specifier = false :=
    hothers ▸ edit.others_imports document
  rw [hothers]
  exact others_of_append (by rw [apply_of_spot hothers hspot])
    (fun e he => hfree e (by simp [he])) (imports_entry.2 rfl) fun e he => hfree e (by simp [he])

/-- An import is put in its place once: the others are the same again, so it goes to the same place
among them, with the comments that it had. -/
theorem apply_apply :
    edit.apply (edit.apply document).2 = (.alreadyPresent, (edit.apply document).2) := by
  obtain ⟨hsame, hprevious⟩ := edit.others_apply document
  obtain ⟨front, back, placement, hothers, hspot⟩ :=
    exists_spot edit.after (edit.others document)
  rw [apply_of_spot (hsame.trans hothers) hspot, hprevious, entry_entry]
  rw [apply_of_spot hothers hspot]
  simp

/-- An edit that has found an import of its module says whether it has moved it; an edit that has
found none has put one there. -/
theorem changed_apply_iff :
    (edit.apply document).1.changed = true ↔ (edit.apply document).2 ≠ document := by
  cases hprevious : edit.previous? document with
  | none =>
    -- The import that is there afterwards was not there before.
    have hne : (edit.apply document).2 ≠ document := fun hsame => by
      have hfound := (edit.others_apply document).2
      rw [hsame, hprevious] at hfound
      cases hfound
    simpa [apply, hprevious, Outcome.changed] using hne
  | some previous =>
    obtain ⟨_, items, _⟩ := document
    simp only [apply, hprevious, Option.isNone_some, Bool.false_eq_true, if_false, ne_eq,
      Document.mk.injEq, true_and, and_true]
    split
    · simp [Outcome.changed, *]
    · simp [Outcome.changed, *]

theorem honest : Honest edit.apply where
  changed_iff := edit.changed_apply_iff
  present document _ := edit.apply_apply document

end ImportEdit

theorem BindingEdit.honest (edit : BindingEdit) : Honest edit.apply where
  changed_iff document := by
    rcases edit.apply_cases document with
      ⟨outcome, unchanged, happly⟩ | ⟨declaration, found, unbound, -, happly⟩
    · simp [happly, unchanged]
    · have hagain := edit.apply_setImport_pushNamed found
      rw [happly]
      refine ⟨fun _ hsame => ?_, fun _ => rfl⟩
      -- In the same document the name could be bound once more.
      dsimp only at hsame
      rw [hsame, happly] at hagain
      cases hagain
  present document hchanged := by
    rcases edit.apply_cases document with
      ⟨outcome, unchanged, happly⟩ | ⟨declaration, found, unbound, -, happly⟩
    · rw [happly, unchanged] at hchanged
      cases hchanged
    · rw [happly]
      exact edit.apply_setImport_pushNamed found

/-! ### Classes -/

theorem MethodEdit.honest (edit : MethodEdit) : Honest edit.apply where
  changed_iff declaration := by
    cases h : (declaration.method? edit.draft.name).isSome with
    | true => simp [edit.apply_of_isSome declaration h, Outcome.changed]
    | false =>
      have hne : (edit.apply declaration).2 ≠ declaration := fun hsame => by
        have hfound := edit.isSome_method?_apply declaration
        rw [hsame, h] at hfound
        cases hfound
      have hchanged : (edit.apply declaration).1.changed = true := by
        rw [edit.apply_of_isNone declaration h]
        rfl
      simp [hchanged, hne]
  present declaration _ := edit.apply_apply declaration

namespace CallEdit

variable (edit : CallEdit) (declaration : ClassDeclaration)

theorem changed_addTo (constructor : Constructor) :
    (edit.addTo constructor).1.changed = true := by
  simp only [addTo]
  split
  · rfl
  · split <;> rfl

theorem honest : Honest edit.apply where
  changed_iff declaration := by
    -- The class that comes out has a constructor that makes the call.
    obtain ⟨constructor, hconstructor, hcalls⟩ := edit.calls_apply declaration
    cases h : declaration.constructor? with
    | none =>
      have hne : (edit.apply declaration).2 ≠ declaration := fun hsame => by
        rw [hsame, h] at hconstructor
        cases hconstructor
      simpa [edit.apply_of_constructor?_eq_none declaration h, Outcome.changed] using hne
    | some old =>
      cases hold : old.calls edit.draft.method with
      | true => simp [edit.apply_of_calls declaration h hold, Outcome.changed]
      | false =>
        have hne : (edit.apply declaration).2 ≠ declaration := fun hsame => by
          rw [hsame, h, Option.some.injEq] at hconstructor
          rw [hconstructor, hcalls] at hold
          cases hold
        rw [edit.apply_of_not_calls declaration h hold] at hne ⊢
        simpa [edit.changed_addTo] using hne
  present declaration _ := edit.apply_apply declaration

end CallEdit

namespace Edit

variable {edit : Edit} {document after : Document} {target : String} {outcome : Outcome}
  {f : ClassDeclaration → Outcome × ClassDeclaration}

/-- The class that a change has put in its place is the one that is found. -/
theorem class?_setClass_apply {declaration : ClassDeclaration} (hname : ∀ c, (f c).2.name = c.name)
    (h : document.class? target = some declaration) :
    (document.setClass target (f declaration).2).class? target = some (f declaration).2 :=
  Document.class?_setClass (by rw [h]; rfl)
    ((hname declaration).trans (Document.firstNode_of_class? h).2)

/-- A change of the class that leaves its own result as it is leaves the document with that result
as it is. -/
theorem applyToClass_again {again : Outcome} (hname : ∀ c, (f c).2.name = c.name)
    (hagain : ∀ c, (f c).1 = outcome → f (f c).2 = (again, (f c).2))
    (h : applyToClass document target f = .ok (outcome, after)) :
    applyToClass after target f = .ok (again, after) := by
  obtain ⟨declaration, hclass, hreport, rfl⟩ := applyToClass_eq_ok_iff.1 h
  have hclass' := class?_setClass_apply hname hclass
  have hsame := hagain declaration hreport
  refine applyToClass_eq_ok_iff.2 ⟨_, hclass', by rw [hsame], ?_⟩
  rw [hsame]
  exact Document.setClass_of_class? hclass'

/-- Another class in its place makes another document. -/
theorem applyToClass_changed_iff (hf : Honest f) (hname : ∀ c, (f c).2.name = c.name)
    (h : applyToClass document target f = .ok (outcome, after)) :
    outcome.changed = true ↔ after ≠ document := by
  obtain ⟨declaration, hclass, rfl, rfl⟩ := applyToClass_eq_ok_iff.1 h
  rw [hf.changed_iff, not_iff_not]
  constructor
  · intro hsame
    rw [hsame]
    exact Document.setClass_of_class? hclass
  · intro hsame
    have hclass' := class?_setClass_apply hname hclass
    rw [hsame, hclass] at hclass'
    exact (Option.some.inj hclass').symm

/-- An edit is an honest change of the document, or an honest change of the class that keeps its
name. -/
theorem honest (edit : Edit) :
    (∃ f : Document → Outcome × Document, Honest f ∧ edit.kind = .imports ∧
      ∀ document target, edit.apply document target = .ok (f document)) ∨
    ∃ f : ClassDeclaration → Outcome × ClassDeclaration, Honest f ∧ edit.kind ≠ .imports ∧
      (∀ c, (f c).2.name = c.name) ∧
      ∀ document target, edit.apply document target = applyToClass document target f := by
  cases edit with
  | placeImport edit => exact .inl ⟨_, edit.honest, rfl, fun _ _ => rfl⟩
  | bindName edit => exact .inl ⟨_, edit.honest, rfl, fun _ _ => rfl⟩
  | addMethod edit => exact .inr ⟨_, edit.honest, nofun, edit.name_apply, fun _ _ => rfl⟩
  | addCall edit => exact .inr ⟨_, edit.honest, nofun, edit.name_apply, fun _ _ => rfl⟩

/-- An edit that is applied to its own result leaves it as it is, and says that what it puts there
is there, or why it cannot be put there. -/
theorem apply_again (h : edit.apply document target = .ok (outcome, after)) :
    edit.apply after target = .ok (outcome.again, after) := by
  rcases edit.honest with ⟨f, hf, -, happly⟩ | ⟨f, hf, -, hname, happly⟩
  · rw [happly, Except.ok.injEq] at h ⊢
    have hagain := hf.again document
    rwa [h] at hagain
  · rw [happly] at h ⊢
    exact applyToClass_again hname (fun c hc => by rw [hf.again, hc]) h

/-- Two imports of a module, with one of another module between them. -/
def crossedImports : Document where
  name := "crossed"
  items :=
    [ { node := .importing { specifier := "express" }, trailing := some "// server" },
      { node := .importing { specifier := "morgan" } },
      { node := .importing { specifier := "express", default := some "express" } } ]

/-- An import that is to follow itself goes behind the other one, in the place of both imports of
its module, and stays there. -/
theorem apply_again_crossedImports :
    let edit : Edit :=
      .placeImport { declaration := { specifier := "express" }, after := some "express" }
    let after : Document := { crossedImports with
      items :=
        [ { node := .importing { specifier := "morgan" } },
          { node := .importing { specifier := "express" }, trailing := some "// server" } ] }
    edit.apply crossedImports "App" = .ok (.moved .atEnd, after) ∧
      edit.apply after "App" = .ok (.alreadyPresent, after) := by
  intro edit after
  have happly : edit.apply crossedImports "App" = .ok (.moved .atEnd, after) := by decide +kernel
  exact ⟨happly, apply_again happly⟩

/-- An edit is reported to have changed the document exactly if the document is another one. -/
theorem changed_iff (h : edit.apply document target = .ok (outcome, after)) :
    outcome.changed = true ↔ after ≠ document := by
  rcases edit.honest with ⟨f, hf, -, happly⟩ | ⟨f, hf, -, hname, happly⟩
  · rw [happly, Except.ok.injEq] at h
    have hchanged := hf.changed_iff document
    rwa [h] at hchanged
  · rw [happly] at h
    exact applyToClass_changed_iff hf hname h

end Edit

end CodeSplice
