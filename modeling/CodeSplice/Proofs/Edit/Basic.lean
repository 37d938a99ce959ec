/-
Module: CodeSplice.Proofs.Edit.Basic
Purpose: Which edits can change places. Edits of imports do not look into classes and leave them as
  they are, and the two edits of a class are independent; so edits of different kinds have the same
  outcomes and come to the same document in either order.
Main exports: Edit.exists_apply, Edit.Exchanges, Edit.exchanges_of_kind_ne,
  Edit.exchanges_of_specifier_ne
-/
import CodeSplice.Edit.Basic
import CodeSplice.Proofs.Edit.Class
import CodeSplice.Proofs.Edit.Import

namespace CodeSplice

variable {document after : Document} {name target : String} {outcome : Outcome}

/-! ### Another class in the place of the first one of a name -/

namespace Document

variable {declaration other : ClassDeclaration}

@[simp] theorem name_setClass (document : Document) (name : String)
    (declaration : ClassDeclaration) :
    (document.setClass name declaration).name = document.name := rfl

@[simp] theorem dangling_setClass (document : Document) (name : String)
    (declaration : ClassDeclaration) :
    (document.setClass name declaration).dangling = document.dangling := rfl

theorem isClass_classlike (h : declaration.name = name) :
    (Item.classlike declaration).isClass name = true := by
  simp [Item.isClass, Item.class?, h]

theorem class?_setClass (h : (document.class? name).isSome = true)
    (hname : declaration.name = name) :
    (document.setClass name declaration).class? name = some declaration := by
  obtain ⟨old, hold⟩ := Option.isSome_iff_exists.1 h
  rw [class?_eq_bind]
  simp only [setClass]
  rw [firstNode_updateFirst (p := (Item.isClass · name)) (isClass_classlike hname),
    (firstNode_of_class? hold).1]
  rfl

theorem setClass_setClass (hname : other.name = name) :
    (document.setClass name other).setClass name declaration =
      document.setClass name declaration := by
  simp only [setClass]
  rw [updateFirst_updateFirst (p := (Item.isClass · name)) (isClass_classlike hname)]

/-- The class that is there already changes nothing. -/
theorem setClass_of_class? (h : document.class? name = some declaration) :
    document.setClass name declaration = document := by
  simp only [setClass]
  rw [updateFirst_of_firstNode_eq_some (p := (Item.isClass · name)) (firstNode_of_class? h).1]

end Document

/-- Every item imports the module that it has imported before. -/
theorem Document.map_specifier?_setClass (document : Document) (name : String)
    (declaration : ClassDeclaration) :
    (document.setClass name declaration).items.map (·.node.specifier?) =
      document.items.map (·.node.specifier?) :=
  map_updateFirst (p := (Item.isClass · name)) (g := Item.specifier?) (a := .classlike declaration)
    (fun _ hother => Item.specifier?_of_isClass hother) document.items

/-- Among the items of some modules, or of all but some, the first class of the name is the only one
that may change. -/
theorem Document.changesFirst_setClass {declaration : ClassDeclaration} (other : ClassDeclaration)
    {R : Item → Item → Prop} {k : Item → Bool}
    (hk : ∀ item other : Item, item.specifier? = other.specifier? → k item = k other)
    (h : document.class? name = some declaration)
    (hR : R (.classlike declaration) (.classlike other)) :
    ChangesFirst (·.isClass name) R (document.items.filter (k ·.node))
      ((document.setClass name other).items.filter (k ·.node)) := by
  refine changesFirst_filter_updateFirst (p := (Item.isClass · name))
    (fun item hitem => hk _ _ (Item.specifier?_of_isClass hitem)) fun old hold => ?_
  obtain rfl := Option.some.inj (hold.symm.trans (Document.firstNode_of_class? h).1)
  exact hR

/-! ### Edits that leave the classes as they are -/

/-- A change of documents that does not look into classes and leaves them as they are. -/
structure KeepsClasses (f : Document → Outcome × Document) : Prop where
  class?_eq : ∀ document name, (f document).2.class? name = document.class? name
  setClass_eq : ∀ document (declaration : ClassDeclaration),
    f (document.setClass declaration.name declaration) =
      ((f document).1, (f document).2.setClass declaration.name declaration)

theorem ImportEdit.keepsClasses (edit : ImportEdit) : KeepsClasses edit.apply where
  class?_eq document name := by
    rw [Document.class?_eq_bind, Document.class?_eq_bind,
      edit.firstNode_apply document fun other hother => by
        simp [Item.specifier?_of_isClass hother]]
  setClass_eq document declaration :=
    edit.apply_update (p := (Item.isClass · declaration.name)) (Document.isClass_classlike rfl)
      (fun _ hother => Item.specifier?_of_isClass hother) (by simp)

theorem Item.not_imports_of_isClass {item : Item} {specifier : String}
    (h : item.isClass name = true) : item.imports specifier = false := by
  simp [Item.imports_eq_false_iff, Item.specifier?_of_isClass h]

theorem Item.not_isClass_of_imports {item : Item} {specifier : String}
    (h : item.imports specifier = true) : item.isClass name = false := by
  rw [Bool.eq_false_iff]
  intro hclass
  rw [Item.not_imports_of_isClass hclass] at h
  cases h

theorem BindingEdit.keepsClasses (edit : BindingEdit) : KeepsClasses edit.apply where
  class?_eq document name := by
    rcases edit.apply_cases document with ⟨_, -, happly⟩ | ⟨declaration, -, -, -, happly⟩
    · rw [happly]
    · rw [happly, Document.class?_eq_bind, Document.class?_eq_bind]
      simp only [Document.setImport]
      rw [firstNode_updateFirst_of_apart (q := (Item.isClass · name))
        (fun _ hother => Item.not_isClass_of_imports hother) rfl]
  setClass_eq document declaration :=
    edit.apply_update (p := (Item.isClass · declaration.name))
      (Item.not_imports_of_isClass (Document.isClass_classlike rfl))
      fun _ hother => Item.not_imports_of_isClass hother

namespace Edit

/-- An edit of imports is a change of the document that keeps the classes. -/
theorem exists_of_kind_imports {edit : Edit} (h : edit.kind = .imports) :
    ∃ f, KeepsClasses f ∧ ∀ document target, edit.apply document target = .ok (f document) := by
  cases edit with
  | placeImport edit => exact ⟨_, edit.keepsClasses, fun _ _ => rfl⟩
  | bindName edit => exact ⟨_, edit.keepsClasses, fun _ _ => rfl⟩
  | addMethod _ => cases h
  | addCall _ => cases h

/-- Every other edit is a change of the class that keeps its name. -/
theorem exists_of_kind_ne_imports {edit : Edit} (h : edit.kind ≠ .imports) :
    ∃ f : ClassDeclaration → Outcome × ClassDeclaration, (∀ c, (f c).2.name = c.name) ∧
      ∀ document target, edit.apply document target = applyToClass document target f := by
  cases edit with
  | placeImport _ => exact absurd rfl h
  | bindName _ => exact absurd rfl h
  | addMethod edit => exact ⟨_, edit.name_apply, fun _ _ => rfl⟩
  | addCall edit => exact ⟨_, edit.name_apply, fun _ _ => rfl⟩

theorem applyToClass_eq_ok_iff {f : ClassDeclaration → Outcome × ClassDeclaration} :
    applyToClass document name f = .ok (outcome, after) ↔
      ∃ declaration, document.class? name = some declaration ∧ (f declaration).1 = outcome ∧
        document.setClass name (f declaration).2 = after := by
  unfold applyToClass
  cases document.class? name <;> simp

/-! ### Every edit can be applied to a document with the class -/

/-- An edit can be applied to a document that has the class, and the document has it afterwards. -/
theorem exists_apply (edit : Edit) (h : (document.class? target).isSome = true) :
    ∃ outcome after, edit.apply document target = .ok (outcome, after) ∧
      (after.class? target).isSome = true := by
  by_cases hkind : edit.kind = .imports
  · obtain ⟨f, hf, happly⟩ := exists_of_kind_imports hkind
    exact ⟨_, _, happly document target, by rwa [hf.class?_eq]⟩
  · obtain ⟨f, hname, happly⟩ := exists_of_kind_ne_imports hkind
    obtain ⟨declaration, hdeclaration⟩ := Option.isSome_iff_exists.1 h
    have hclass := (Document.firstNode_of_class? hdeclaration).2
    refine ⟨_, _, (happly document target).trans
      (applyToClass_eq_ok_iff.2 ⟨declaration, hdeclaration, rfl, rfl⟩), ?_⟩
    rw [Document.class?_setClass h ((hname declaration).trans hclass)]
    rfl

/-! ### Edits that change places -/

/-- An edit behind which another one is applied can also be applied behind that one: each has the
outcome that it has in the other order, and the document that comes out is the same. -/
def Exchanges (target : String) (first second : Edit) : Prop :=
  ∀ ⦃document next after : Document⦄ ⦃outcome outcome' : Outcome⦄,
    first.apply document target = .ok (outcome, next) →
    second.apply next target = .ok (outcome', after) →
      ∃ middle, second.apply document target = .ok (outcome', middle) ∧
        first.apply middle target = .ok (outcome, after)

variable {first second : Edit}

/-- Independent changes of the document change places. -/
theorem exchanges_of_independent {f g : Document → Outcome × Document} (hfg : Independent f g)
    (hfirst : ∀ document, first.apply document target = .ok (f document))
    (hsecond : ∀ document, second.apply document target = .ok (g document)) :
    Exchanges target first second := by
  intro document next after outcome outcome' hnext hafter
  rw [hfirst, Except.ok.injEq] at hnext
  rw [hsecond, Except.ok.injEq] at hafter
  obtain rfl : (f document).2 = next := congrArg Prod.snd hnext
  refine ⟨(g document).2, ?_, ?_⟩
  · rw [hsecond, Except.ok.injEq, Prod.ext_iff]
    exact ⟨by rw [← hfg.snd document, hafter], rfl⟩
  · rw [hfirst, Except.ok.injEq, Prod.ext_iff]
    exact ⟨by rw [hfg.fst document, hnext], by rw [hfg.comm document, hafter]⟩

/-- Independent changes of the class change places. -/
theorem exchanges_of_independent_class {f g : ClassDeclaration → Outcome × ClassDeclaration}
    (hfg : Independent f g) (hf : ∀ c, (f c).2.name = c.name) (hg : ∀ c, (g c).2.name = c.name)
    (hfirst : ∀ document, first.apply document target = applyToClass document target f)
    (hsecond : ∀ document, second.apply document target = applyToClass document target g) :
    Exchanges target first second := by
  intro document next after outcome outcome' hnext hafter
  rw [hfirst, applyToClass_eq_ok_iff] at hnext
  obtain ⟨declaration, hclass, rfl, rfl⟩ := hnext
  have hsome : (document.class? target).isSome = true := by rw [hclass]; rfl
  have hname := (Document.firstNode_of_class? hclass).2
  have hfname := (hf declaration).trans hname
  have hgname := (hg declaration).trans hname
  rw [hsecond, applyToClass_eq_ok_iff] at hafter
  obtain ⟨changed, hchanged, rfl, rfl⟩ := hafter
  rw [Document.class?_setClass hsome hfname, Option.some.injEq] at hchanged
  subst hchanged
  refine ⟨document.setClass target (g declaration).2, ?_, ?_⟩
  · rw [hsecond, applyToClass_eq_ok_iff]
    exact ⟨declaration, hclass, (hfg.snd declaration).symm, rfl⟩
  · rw [hfirst, applyToClass_eq_ok_iff]
    refine ⟨_, Document.class?_setClass hsome hgname, hfg.fst declaration, ?_⟩
    rw [Document.setClass_setClass hgname, Document.setClass_setClass hfname, hfg.comm]

/-- An edit of imports and an edit of the class change places. -/
theorem exchanges_of_kind_imports (hfirst : first.kind = .imports)
    (hsecond : second.kind ≠ .imports) :
    Exchanges target first second ∧ Exchanges target second first := by
  obtain ⟨f, hf, hfapply⟩ := exists_of_kind_imports hfirst
  obtain ⟨g, hg, hgapply⟩ := exists_of_kind_ne_imports hsecond
  -- The class is the same before and after the edit of imports, so both orders put the same one
  -- there.
  have hset {document : Document} {declaration : ClassDeclaration}
      (hclass : document.class? target = some declaration) :
      f (document.setClass target (g declaration).2) =
        ((f document).1, (f document).2.setClass target (g declaration).2) := by
    have hname := (hg declaration).trans (Document.firstNode_of_class? hclass).2
    subst hname
    exact hf.setClass_eq document _
  constructor
  · intro document next after outcome outcome' hnext hafter
    rw [hfapply, Except.ok.injEq] at hnext
    rw [hgapply, applyToClass_eq_ok_iff] at hafter
    obtain ⟨declaration, hclass, rfl, rfl⟩ := hafter
    obtain rfl : (f document).2 = next := congrArg Prod.snd hnext
    rw [hf.class?_eq] at hclass
    refine ⟨document.setClass target (g declaration).2, ?_, ?_⟩
    · rw [hgapply, applyToClass_eq_ok_iff]
      exact ⟨declaration, hclass, rfl, rfl⟩
    · rw [hfapply, hset hclass, hnext]
  · intro document next after outcome outcome' hnext hafter
    rw [hgapply, applyToClass_eq_ok_iff] at hnext
    obtain ⟨declaration, hclass, rfl, rfl⟩ := hnext
    rw [hfapply, hset hclass, Except.ok.injEq, Prod.mk.injEq] at hafter
    obtain ⟨rfl, rfl⟩ := hafter
    refine ⟨(f document).2, hfapply document target, ?_⟩
    rw [hgapply, applyToClass_eq_ok_iff]
    exact ⟨declaration, by rw [hf.class?_eq, hclass], rfl, rfl⟩

/-- Edits of different kinds change places. -/
theorem exchanges_of_kind_ne (target : String) (h : first.kind ≠ second.kind) :
    Exchanges target first second := by
  by_cases hfirst : first.kind = .imports
  · exact (exchanges_of_kind_imports hfirst fun hsecond => h (hfirst.trans hsecond.symm)).1
  by_cases hsecond : second.kind = .imports
  · exact (exchanges_of_kind_imports hsecond hfirst).2
  have hclass (edit : MethodEdit) (call : CallEdit) :
      Exchanges target (.addMethod edit) (.addCall call) ∧
        Exchanges target (.addCall call) (.addMethod edit) :=
    ⟨exchanges_of_independent_class (independent_class edit call) edit.name_apply call.name_apply
        (fun _ => rfl) fun _ => rfl,
      exchanges_of_independent_class (independent_class edit call).symm call.name_apply
        edit.name_apply (fun _ => rfl) fun _ => rfl⟩
  cases first with
  | placeImport _ => exact absurd rfl hfirst
  | bindName _ => exact absurd rfl hfirst
  | addMethod edit =>
    cases second with
    | addCall call => exact (hclass edit call).1
    | addMethod _ => exact absurd rfl h
    | placeImport _ => exact absurd rfl hsecond
    | bindName _ => exact absurd rfl hsecond
  | addCall call =>
    cases second with
    | addMethod edit => exact (hclass edit call).2
    | addCall _ => exact absurd rfl h
    | placeImport _ => exact absurd rfl hsecond
    | bindName _ => exact absurd rfl hsecond

end Edit

/-- Putting an import in its place and binding a name of another module are independent. -/
theorem independent_imports {edit : ImportEdit} {binding : BindingEdit}
    (h : edit.declaration.specifier ≠ binding.specifier) :
    Independent edit.apply binding.apply := by
  have himport (document : Document) := edit.import?_apply document h
  -- Either nothing is bound, in both orders, or the same import is changed in both.
  have hboth (document : Document) :
      edit.apply (binding.apply document).2 =
          ((edit.apply document).1, (binding.apply (edit.apply document).2).2) ∧
        (binding.apply (edit.apply document).2).1 = (binding.apply document).1 := by
    cases hfound : document.import? binding.specifier with
    | none => simp [BindingEdit.apply, himport, hfound]
    | some declaration =>
      cases hbinds : declaration.binds binding.name with
      | true =>
        rw [BindingEdit.apply_of_binds hfound hbinds,
          BindingEdit.apply_of_binds ((himport document).trans hfound) hbinds]
        exact ⟨rfl, rfl⟩
      | false =>
        cases hobstacle : BindingEdit.obstacle? declaration with
        | some reason => simp [BindingEdit.apply, himport, hfound, hbinds, hobstacle]
        | none =>
          rw [BindingEdit.apply_of_possible hfound hbinds hobstacle,
            BindingEdit.apply_of_possible ((himport document).trans hfound) hbinds hobstacle]
          exact ⟨edit.apply_setImport_pushNamed hfound binding.name h, rfl⟩
  exact ⟨fun document => by rw [(hboth document).1], fun document => (hboth document).2,
    fun document => by rw [(hboth document).1]⟩

/-- Putting an import in its place and binding a name of another module change places. -/
theorem Edit.exchanges_of_specifier_ne (target : String) {edit : ImportEdit} {binding : BindingEdit}
    (h : edit.declaration.specifier ≠ binding.specifier) :
    Exchanges target (.placeImport edit) (.bindName binding) ∧
      Exchanges target (.bindName binding) (.placeImport edit) :=
  ⟨exchanges_of_independent (independent_imports h) (fun _ => rfl) fun _ => rfl,
    exchanges_of_independent (independent_imports h).symm (fun _ => rfl) fun _ => rfl⟩

end CodeSplice
