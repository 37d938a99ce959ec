/-
Module: CodeSplice.Proofs.Edit.Tiers
Purpose: The places that are announced for an edit, and the place that it takes. An announced text
  stands for one place only, and for a document one can say whether it has this place: whether the
  anchor is found, another import remains, or the class has a constructor. An edit that puts its node
  somewhere reports the first of the announced places that the document has.
Main exports: Tier, Tier.describe_injective, Edit.choices, Edit.finds, Tier.placement?,
  Edit.findSome?_choices, Edit.follows_tiers
-/
import CodeSplice.Proofs.Edit.Call
import CodeSplice.Proofs.Edit.Method
import Mathlib.Data.List.Basic

namespace CodeSplice

/-! ### Places and their texts -/

/-- A place that is announced for an edit. -/
inductive Tier where
  | after (anchor : Anchor)
  | before (anchor : Anchor)
  /-- Among the bindings of the import. -/
  | into (anchor : Anchor)
  | afterLastImport
  | topOfFile
  | endOfClass
  | endOfConstructor
deriving DecidableEq, Repr

/-- A place in words. -/
def Tier.describe : Tier → String
  | after anchor => "after " ++ anchor.describe
  | before anchor => "before " ++ anchor.describe
  | into anchor => "into " ++ anchor.describe
  | afterLastImport => "after the last import"
  | topOfFile => "at the top of the file"
  | endOfClass => "at the end of the class"
  | endOfConstructor => "at the end of the constructor"

/-- The words for an anchor tell its kind and its name. -/
theorem Anchor.describe_injective : Function.Injective Anchor.describe := by
  rintro ⟨kind, name⟩ ⟨kind', name'⟩ h
  cases kind <;> cases kind' <;> simp_all [describe, String.ext_iff]

/-- No anchor is the last import. -/
theorem Anchor.describe_ne_last (anchor : Anchor) : anchor.describe ≠ "the last import" := by
  obtain ⟨kind, name⟩ := anchor
  cases kind <;> simp [describe, String.ext_iff]

/-- The words for a place tell which place it is. -/
theorem Tier.describe_injective : Function.Injective Tier.describe := by
  intro tier other h
  have hanchor {a b : Anchor} (h : a.describe.toList = b.describe.toList) : a = b :=
    Anchor.describe_injective (String.ext h)
  have hlast (a : Anchor) : a.describe.toList ≠ "the last import".toList :=
    fun h => a.describe_ne_last (String.ext h)
  cases tier <;> cases other <;> simp [describe, String.ext_iff] at h ⊢
  case after.after => exact hanchor h
  case before.before => exact hanchor h
  case into.into => exact hanchor h
  case after.afterLastImport => exact hlast _ h
  case afterLastImport.after => exact hlast _ h.symm

/-- The places for an edit, in the order of its choices. -/
def Edit.choices : Edit → List Tier
  | placeImport edit =>
    (edit.after.map fun name => Tier.after ⟨.imported, name⟩).toList ++
      [.afterLastImport, .topOfFile]
  | bindName edit => [.into ⟨.imported, edit.specifier⟩]
  | addMethod edit =>
    (edit.before.map fun name => Tier.before ⟨.method, name⟩).toList ++ [.endOfClass]
  | addCall edit =>
    (edit.before.map fun name => Tier.before ⟨.call, name⟩).toList ++
      ((edit.after.map fun name => Tier.after ⟨.call, name⟩).toList ++ [.endOfConstructor])

theorem Edit.tiers_eq (edit : Edit) : edit.tiers = edit.choices.map Tier.describe := by
  cases edit with
  | placeImport edit => cases edit with | mk _ after => cases after <;> rfl
  | bindName _ => rfl
  | addMethod edit => cases edit with | mk _ before => cases before <;> rfl
  | addCall edit => cases edit with | mk _ before after => cases before <;> cases after <;> rfl

/-! ### Which places a document has -/

namespace Edit

/-- The items among which an edit of imports looks: an import that is put in its place does not see the
imports of its own module. -/
def seen (edit : Edit) (document : Document) : List (Entry Item) :=
  match edit with
  | placeImport edit =>
    document.items.filter fun e => !e.node.imports edit.declaration.specifier
  | _ => document.items

/-- Whether an anchor is found where an edit looks for it: among the items, the members of the class or
the statements of its constructor. -/
def finds (edit : Edit) (document : Document) (target : String) (anchor : Anchor) : Bool :=
  match edit.kind with
  | .imports => (resolve (·.answers anchor) (edit.seen document)).isSome
  | .method => (document.class? target).any fun declaration => (declaration.resolve anchor).isSome
  | .constructor => ((document.class? target).bind (·.constructor?)).any fun constructor =>
      (constructor.resolve anchor).isSome

end Edit

/-- The placement that an edit reports if it takes a place, if the document has that place for it. -/
def Tier.placement? (edit : Edit) (document : Document) (target : String) : Tier → Option Placement
  | after anchor => if edit.finds document target anchor then some (.after anchor.name) else none
  | before anchor => if edit.finds document target anchor then some (.before anchor.name) else none
  | into anchor => if edit.finds document target anchor then some .atEnd else none
  | afterLastImport =>
    if (edit.seen document).any (·.node.import?.isSome) then some .atEnd else none
  | topOfFile => some .atStart
  | endOfClass => some .atEnd
  | endOfConstructor =>
    if ((document.class? target).bind (·.constructor?)).isSome then some .atEnd
    else some .newConstructor

theorem isSome_resolve {α : Type} (p : α → Bool) (entries : List (Entry α)) :
    (resolve p entries).isSome = entries.any (p ·.node) := by
  rw [resolve, List.findIdx?_isSome]

namespace Edit

variable {document after : Document} {target : String} {outcome : Outcome} {placement : Placement}

/-! ### What is found -/

theorem finds_placeImport (edit : ImportEdit) (name : String) :
    (placeImport edit).finds document target ⟨.imported, name⟩ =
      (edit.others document).any (·.node.imports name) := by
  simp [finds, kind, isSome_resolve, seen, ImportEdit.others]

theorem finds_bindName (edit : BindingEdit) (name : String) :
    (bindName edit).finds document target ⟨.imported, name⟩ = (document.import? name).isSome := by
  rw [Bool.eq_iff_iff, Document.isSome_import?_iff]
  simp [finds, kind, isSome_resolve, seen]

theorem finds_addMethod {declaration : ClassDeclaration}
    (h : document.class? target = some declaration) (edit : MethodEdit) (name : String) :
    (addMethod edit).finds document target ⟨.method, name⟩ =
      declaration.members.any (·.node.isMethod name) := by
  simp [finds, kind, h, ClassDeclaration.resolve, isSome_resolve]

theorem finds_addCall {declaration : ClassDeclaration}
    (h : document.class? target = some declaration) (edit : CallEdit) (name : String) :
    (addCall edit).finds document target ⟨.call, name⟩ =
      declaration.constructor?.any (·.calls name) := by
  simp [finds, kind, h, Constructor.resolve, isSome_resolve, Constructor.calls]

/-! ### The first place that the document has -/

section

variable {place? : Tier → Option Placement} {anchor : Option String} {tier : String → Tier}
  {rest : List Tier}

/-- A place at an anchor that is not found is left out. -/
theorem findSome?_of_missing (h : ∀ name, anchor = some name → place? (tier name) = none) :
    ((anchor.map tier).toList ++ rest).findSome? place? = rest.findSome? place? := by
  cases anchor with
  | none => rfl
  | some name => simp [h name rfl]

theorem findSome?_of_found {name : String} (hname : anchor = some name)
    (h : place? (tier name) = some placement) :
    ((anchor.map tier).toList ++ rest).findSome? place? = some placement := by
  simp [hname, h]

end

theorem findSome?_choices_placeImport {edit : ImportEdit}
    (h : (edit.apply document).1.placement? = some placement) :
    (placeImport edit).choices.findSome? (Tier.placement? (placeImport edit) document target) =
      some placement := by
  obtain ⟨front, back, place, hothers, hspot⟩ := exists_spot edit.after (edit.others document)
  have hplace : place = placement := by
    rw [ImportEdit.apply_of_spot hothers hspot] at h
    dsimp only at h
    split at h
    · exact Option.some.inj h
    · split at h
      · cases h
      · exact Option.some.inj h
  have hfinds (name : String) : (placeImport edit).finds document target ⟨.imported, name⟩ =
      (edit.others document).any (·.node.imports name) := finds_placeImport edit name
  -- Without the anchor, the first place is the one behind the imports or the top.
  have hrest (missing : Missing edit.after (front ++ back)) :
      (placeImport edit).choices.findSome? (Tier.placement? (placeImport edit) document target) =
        if (front ++ back).any (·.node.specifier?.isSome) then some .atEnd else some .atStart := by
    have hseen : (placeImport edit).seen document = front ++ back := hothers
    refine (findSome?_of_missing fun name hname => ?_).trans ?_
    · have hnone : (front ++ back).any (·.node.imports name) = false :=
        List.any_eq_false.2 fun e he => by simp [missing name hname e he]
      simp only [Tier.placement?, hfinds, hothers, hnone, Bool.false_eq_true, if_false]
    · simp only [List.findSome?_cons, Tier.placement?, hseen, Item.isSome_import?]
      split <;> simp_all
  subst hplace
  cases hspot with
  | @anchored name front back anchor follows first answers =>
    exact findSome?_of_found follows (by simp [Tier.placement?, hfinds, hothers, answers])
  | @last front _ last missing isImport none_behind =>
    rw [hrest (by simpa using missing)]
    simp [isImport]
  | first no_import =>
    rw [hrest (Missing.of_no_import no_import)]
    simpa using no_import

/-- A name that is bound anywhere is bound at the end of the first import of its module. -/
theorem exists_import?_of_placement? {edit : BindingEdit}
    (h : (edit.apply document).1.placement? = some placement) :
    placement = .atEnd ∧ ∃ declaration, document.import? edit.specifier = some declaration ∧
      (edit.apply document).2 =
        document.setImport edit.specifier (declaration.pushNamed edit.name) := by
  rcases edit.apply_cases document with
    ⟨outcome, unchanged, happly⟩ | ⟨declaration, found, -, -, happly⟩
  · rw [happly] at h
    have hsome := outcome.isSome_placement?
    rw [h, unchanged] at hsome
    cases hsome
  · rw [happly] at h ⊢
    exact ⟨(Option.some.inj h).symm, declaration, found, rfl⟩

theorem findSome?_choices_bindName {edit : BindingEdit}
    (h : (edit.apply document).1.placement? = some placement) :
    (bindName edit).choices.findSome? (Tier.placement? (bindName edit) document target) =
      some placement := by
  obtain ⟨rfl, declaration, found, -⟩ := exists_import?_of_placement? h
  have hfinds : (bindName edit).finds document target ⟨.imported, edit.specifier⟩ = true := by
    rw [finds_bindName, found]
    rfl
  simp [choices, Tier.placement?, hfinds]

section

variable {declaration : ClassDeclaration} (hclass : document.class? target = some declaration)
include hclass

theorem findSome?_choices_addMethod {edit : MethodEdit}
    (h : (edit.apply declaration).1.placement? = some placement) :
    (addMethod edit).choices.findSome? (Tier.placement? (addMethod edit) document target) =
      some placement := by
  have hmissing : (declaration.method? edit.draft.name).isSome = false := by
    rw [Bool.eq_false_iff]
    intro hfound
    rw [edit.apply_of_isSome declaration hfound] at h
    cases h
  rw [edit.apply_of_isNone declaration hmissing] at h
  have hjoins := edit.joins_insertEntry declaration
  have hfinds := finds_addMethod hclass edit
  rw [Option.some.inj h] at hjoins
  generalize insertEntry _ _ _ = members at hjoins
  generalize declaration.members = before at hjoins hfinds
  cases hjoins with
  | atTop precedes answers =>
    exact findSome?_of_found precedes (by simp [Tier.placement?, hfinds, answers])
  | between precedes behind first answers =>
    exact findSome?_of_found precedes (by simp [Tier.placement?, hfinds, answers])
  | atEnd missing =>
    refine (findSome?_of_missing fun name hname => ?_).trans rfl
    have hnone : (addMethod edit).finds document target ⟨.method, name⟩ = false := by
      rw [hfinds]
      simpa using missing name hname
    simp [Tier.placement?, hnone]

theorem findSome?_choices_addCall {edit : CallEdit}
    (h : (edit.apply declaration).1.placement? = some placement) :
    (addCall edit).choices.findSome? (Tier.placement? (addCall edit) document target) =
      some placement := by
  have hfinds := finds_addCall hclass edit
  cases hconstructor : declaration.constructor? with
  | none =>
    rw [edit.apply_of_constructor?_eq_none declaration hconstructor] at h
    obtain rfl := Option.some.inj h
    simp only [hconstructor, Option.any_none] at hfinds
    refine (findSome?_of_missing fun name _ => by simp [Tier.placement?, hfinds]).trans <|
      (findSome?_of_missing fun name _ => by simp [Tier.placement?, hfinds]).trans ?_
    simp [Tier.placement?, hclass, hconstructor]
  | some constructor =>
    have hcalls : constructor.calls edit.draft.method = false := by
      rw [Bool.eq_false_iff]
      intro hfound
      rw [edit.apply_of_calls declaration hconstructor hfound] at h
      cases h
    obtain ⟨statements, place, hadd, hjoins⟩ := edit.exists_joins constructor
    rw [edit.apply_of_not_calls declaration hconstructor hcalls, hadd] at h
    obtain rfl := Option.some.inj h
    simp only [hconstructor, Option.any_some, Constructor.calls] at hfinds
    generalize constructor.statements = before at hjoins hfinds
    have hskip {anchor : Option String} (missing : CallEdit.NoneCalls anchor before) {name : String}
        (hname : anchor = some name) :
        (addCall edit).finds document target ⟨.call, name⟩ = false := by
      rw [hfinds]
      simpa using missing name hname
    cases hjoins with
    | before precedes first answers =>
      exact findSome?_of_found precedes (by simp [Tier.placement?, hfinds, answers])
    | after missing follows first answers =>
      refine (findSome?_of_missing fun name hname => ?_).trans
        (findSome?_of_found follows (by simp [Tier.placement?, hfinds, answers]))
      simp [Tier.placement?, hskip missing hname]
    | atEnd missing missing_after =>
      refine (findSome?_of_missing fun name hname => ?_).trans <|
        (findSome?_of_missing fun name hname => ?_).trans ?_
      · simp [Tier.placement?, hskip missing hname]
      · simp [Tier.placement?, hskip missing_after hname]
      · simp [Tier.placement?, hclass, hconstructor]

end

/-- An edit that puts its node somewhere puts it in the first of its places that the document has. -/
theorem findSome?_choices {edit : Edit} (h : edit.apply document target = .ok (outcome, after))
    (hplaced : outcome.placement? = some placement) :
    edit.choices.findSome? (Tier.placement? edit document target) = some placement := by
  cases edit with
  | placeImport edit =>
    have happly : edit.apply document = (outcome, after) := Except.ok.inj h
    exact findSome?_choices_placeImport (by rwa [happly])
  | bindName edit =>
    have happly : edit.apply document = (outcome, after) := Except.ok.inj h
    exact findSome?_choices_bindName (by rwa [happly])
  | addMethod edit =>
    obtain ⟨declaration, hclass, rfl, -⟩ := applyToClass_eq_ok_iff.1 h
    exact findSome?_choices_addMethod hclass hplaced
  | addCall edit =>
    obtain ⟨declaration, hclass, rfl, -⟩ := applyToClass_eq_ok_iff.1 h
    exact findSome?_choices_addCall hclass hplaced

/-- The announced texts stand for the places of an edit and for no others. An edit that puts its node
somewhere reports the first of these places that the document has; a name is bound at the end of the
first import of its module. -/
theorem follows_tiers {edit : Edit} (h : edit.apply document target = .ok (outcome, after))
    (hplaced : outcome.placement? = some placement) :
    (∀ tiers : List Tier, tiers.map Tier.describe = edit.tiers ↔ tiers = edit.choices) ∧
      edit.choices.findSome? (Tier.placement? edit document target) = some placement ∧
      ∀ binding, edit = .bindName binding →
        ∃ declaration, document.import? binding.specifier = some declaration ∧
          after = document.setImport binding.specifier (declaration.pushNamed binding.name) := by
  refine ⟨fun tiers => ?_, findSome?_choices h hplaced, ?_⟩
  · rw [edit.tiers_eq]
    exact (Tier.describe_injective.list_map).eq_iff
  · rintro binding rfl
    have happly : binding.apply document = (outcome, after) := Except.ok.inj h
    have hinto := (exists_import?_of_placement? (by rwa [happly])).2
    rwa [happly] at hinto

/-- A call whose first anchor is missing goes behind the second one. -/
theorem follows_tiers_serverDocument :
    let edit := Edit.addCall
      { draft := { method := "docs" }, before := some "listen", after := some "routes" }
    ∃ after, edit.apply CallEdit.serverDocument "App" = .ok (.inserted (.after "routes"), after) ∧
      (∀ tiers : List Tier, tiers.map Tier.describe = edit.tiers ↔ tiers = edit.choices) ∧
      edit.choices.findSome? (Tier.placement? edit CallEdit.serverDocument "App") =
        some (.after "routes") ∧
      ∀ binding, edit = .bindName binding →
        ∃ declaration, CallEdit.serverDocument.import? binding.specifier = some declaration ∧
          after =
            CallEdit.serverDocument.setImport binding.specifier
              (declaration.pushNamed binding.name) := by
  intro edit
  have h : edit.apply CallEdit.serverDocument "App" = .ok (.inserted (.after "routes"), _) := rfl
  exact ⟨_, h, follows_tiers h rfl⟩

end Edit

end CodeSplice
