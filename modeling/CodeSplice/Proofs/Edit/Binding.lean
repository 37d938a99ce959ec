/-
Module: CodeSplice.Proofs.Edit.Binding
Purpose: What adding a name to an import comes to. The import may bind one more name, and nothing
  else changes; but whether code can use the name afterwards is another matter. The edit looks for
  the name by which the module exports a value, in its first import only: a binding that gives the
  value another name counts as the name, a binding of something else by that name does not, and
  imports of types take the name like any others.
Main exports: Document.bindsValue, Document.timesBound, BindingEdit.BindsTruly,
  BindingEdit.bindsTruly_iff, BindingEdit.not_forall_bindsTruly
-/
import CodeSplice.Proofs.Edit.Names

namespace CodeSplice

/-! ### Names that code can use -/

/-- Whether a declaration binds a local name in its braces, and not only for types. -/
def ImportDeclaration.bindsValue (declaration : ImportDeclaration) (name : String) : Bool :=
  !declaration.typeOnly &&
    declaration.named.any fun binding => binding.localName == name && !binding.typeOnly

namespace Document

/-- The imports of a module, in source order. -/
def importsOf (document : Document) (specifier : String) : List ImportDeclaration :=
  document.imports.filter (·.specifier == specifier)

/-- Whether an import of a module binds a local name that code can use as a value. -/
def bindsValue (document : Document) (specifier name : String) : Bool :=
  (document.importsOf specifier).any (·.bindsValue name)

/-- How often the imports of a module bind a local name. -/
def timesBound (document : Document) (specifier name : String) : Nat :=
  ((document.importsOf specifier).flatMap (·.localNames)).count name

end Document

namespace ImportDeclaration

variable (declaration : ImportDeclaration) (name : String)

theorem mem_localNames_of_bindsValue {declaration : ImportDeclaration} {name : String}
    (h : declaration.bindsValue name = true) : name ∈ declaration.localNames := by
  simp only [bindsValue, Bool.and_eq_true, List.any_eq_true, beq_iff_eq] at h
  obtain ⟨-, binding, hbinding, hname, -⟩ := h
  exact List.mem_append_right _ (List.mem_map.2 ⟨binding, hbinding, hname⟩)

@[simp] theorem localNames_pushNamed :
    (declaration.pushNamed name).localNames = declaration.localNames ++ [name] := by
  simp [localNames, pushNamed, NamedBinding.localName]

@[simp] theorem bindsValue_pushNamed :
    (declaration.pushNamed name).bindsValue name = !declaration.typeOnly := by
  simp [bindsValue, pushNamed, NamedBinding.localName]

end ImportDeclaration

namespace Document

variable {document : Document} {specifier name : String} {declaration : ImportDeclaration}

theorem one_le_timesBound (h : document.bindsValue specifier name = true) :
    1 ≤ document.timesBound specifier name := by
  obtain ⟨declaration, hmem, hbinds⟩ := List.any_eq_true.1 h
  exact List.count_pos_iff.2 (List.mem_flatMap.2
    ⟨declaration, hmem, ImportDeclaration.mem_localNames_of_bindsValue hbinds⟩)

/-- Another declaration in the place of the first import of a module is the first import of it. -/
theorem exists_importsOf_setImport (other : ImportDeclaration)
    (found : document.import? specifier = some declaration) (hother : other.specifier = specifier) :
    ∃ rest, document.importsOf specifier = declaration :: rest ∧
      (document.setImport specifier other).importsOf specifier = other :: rest := by
  obtain ⟨hfirst, hspecifier⟩ := firstNode_of_import? found
  obtain ⟨front, entry, back, hitems, hfront, hentry, hupdate⟩ := exists_split_of_firstNode hfirst
  have hnone : (front.filterMap (·.node.import?)).filter (·.specifier == specifier) = [] := by
    rw [List.filter_filterMap, List.filterMap_eq_nil_iff]
    intro e he
    have himports := hfront e he
    simp only [Item.imports] at himports
    cases hnode : e.node.import? <;> simp_all
  refine ⟨(back.filterMap (·.node.import?)).filter (·.specifier == specifier), ?_, ?_⟩
  · simp only [importsOf, imports, hitems, List.filterMap_append, List.filter_append, hnone]
    simp [hentry, Item.import?, hspecifier]
  · simp only [importsOf, imports, setImport, hupdate, List.filterMap_append, List.filter_append,
      hnone]
    simp [Item.import?, hother]

/-- One more name in the first import of a module. -/
theorem timesBound_setImport_pushNamed (found : document.import? specifier = some declaration) :
    (document.setImport specifier (declaration.pushNamed name)).timesBound specifier name =
      document.timesBound specifier name + 1 := by
  obtain ⟨rest, hbefore, hafter⟩ :=
    exists_importsOf_setImport (declaration.pushNamed name) found (firstNode_of_import? found).2
  simp only [timesBound, hbefore, hafter, List.flatMap_cons, ImportDeclaration.localNames_pushNamed,
    List.count_append, List.count_singleton_self]
  omega

theorem bindsValue_setImport_pushNamed (found : document.import? specifier = some declaration) :
    (document.setImport specifier (declaration.pushNamed name)).bindsValue specifier name =
      (!declaration.typeOnly || document.bindsValue specifier name) := by
  obtain ⟨rest, hbefore, hafter⟩ :=
    exists_importsOf_setImport (declaration.pushNamed name) found (firstNode_of_import? found).2
  simp only [bindsValue, hbefore, hafter, List.any_cons, ImportDeclaration.bindsValue_pushNamed]
  cases htype : declaration.typeOnly <;> simp [ImportDeclaration.bindsValue, htype]

end Document

/-- Whether a document has what the edit puts there. -/
def Outcome.present : Outcome → Bool
  | .skipped _ => false
  | _ => true

namespace BindingEdit

/-- What one would like adding a name to come to. Unless the edit is skipped, code can use the name,
and it is bound only once if it was not bound twice before. Nothing changes but the first import of
the module, which may bind one name more. -/
structure BindsTruly (edit : BindingEdit) (document : Document) : Prop where
  value : (edit.apply document).1.present = true →
    (edit.apply document).2.bindsValue edit.specifier edit.name = true
  once : (edit.apply document).1.present = true →
    document.timesBound edit.specifier edit.name ≤ 1 →
      (edit.apply document).2.timesBound edit.specifier edit.name = 1
  others : ∃ items, (edit.apply document).2 = { document with items } ∧
    ChangesFirst (·.imports edit.specifier) (BindsMore edit.name) document.items items

variable {edit : BindingEdit} {document : Document}

/-- The last of the wishes is always granted. -/
theorem exists_items_apply (edit : BindingEdit) (document : Document) :
    ∃ items, (edit.apply document).2 = { document with items } ∧
      ChangesFirst (·.imports edit.specifier) (BindsMore edit.name) document.items items := by
  have hchanges := edit.changesFirst_apply document (k := fun _ => true) fun _ _ _ => rfl
  simp only [List.filter_eq_self.2 fun _ _ => rfl] at hchanges
  refine ⟨_, ?_, hchanges⟩
  rcases edit.apply_cases document with ⟨_, -, happly⟩ | ⟨_, -, -, -, happly⟩
  · rw [happly]
  · rw [happly]
    rfl

theorem bindsTruly_of_skipped (h : (edit.apply document).1.present = false) :
    edit.BindsTruly document := by
  refine ⟨?_, ?_, edit.exists_items_apply document⟩ <;> simp [h]

/-- A name that is found already has to be bound to a value under that name. -/
theorem bindsTruly_iff_of_alreadyPresent (h : edit.apply document = (.alreadyPresent, document)) :
    edit.BindsTruly document ↔ document.bindsValue edit.specifier edit.name = true := by
  constructor
  · intro htruly
    simpa [h, Outcome.present] using htruly.value
  · intro hvalue
    refine ⟨?_, fun _ hmost => ?_, edit.exists_items_apply document⟩
    · simpa [h] using fun _ => hvalue
    · have hleast := Document.one_le_timesBound hvalue
      rw [h]
      exact Nat.le_antisymm hmost hleast

/-- A name that is added has to be new to the imports of the module, and has to come into an import
of values unless another one binds it to a value. -/
theorem bindsTruly_iff_of_inserted {declaration : ImportDeclaration}
    (found : document.import? edit.specifier = some declaration)
    (h : edit.apply document = (.inserted .atEnd,
      document.setImport edit.specifier (declaration.pushNamed edit.name))) :
    edit.BindsTruly document ↔
      (declaration.typeOnly = false ∨ document.bindsValue edit.specifier edit.name = true) ∧
        document.timesBound edit.specifier edit.name ≠ 1 := by
  have hvalue : (edit.apply document).2.bindsValue edit.specifier edit.name =
      (!declaration.typeOnly || document.bindsValue edit.specifier edit.name) := by
    rw [h, Document.bindsValue_setImport_pushNamed found]
  have htimes : (edit.apply document).2.timesBound edit.specifier edit.name =
      document.timesBound edit.specifier edit.name + 1 := by
    rw [h, Document.timesBound_setImport_pushNamed found]
  have hpresent : (edit.apply document).1.present = true := by
    rw [h]
    rfl
  constructor
  · intro htruly
    have hbound := htruly.value hpresent
    rw [hvalue] at hbound
    refine ⟨by simpa using hbound, fun hone => ?_⟩
    have htwice := htruly.once hpresent (Nat.le_of_eq hone)
    omega
  · rintro ⟨hbound, hnew⟩
    refine ⟨fun _ => ?_, fun _ hmost => ?_, edit.exists_items_apply document⟩
    · rw [hvalue]
      simpa using hbound
    · omega

/-- When a name is added as one would like it: exactly if a name that is found already is bound to a
value under that name, and a name that is added is new to the imports of the module and comes into
an import of values. -/
theorem bindsTruly_iff : edit.BindsTruly document ↔
    ∀ declaration, document.import? edit.specifier = some declaration →
      (declaration.binds edit.name = true →
        document.bindsValue edit.specifier edit.name = true) ∧
      (declaration.binds edit.name = false → obstacle? declaration = none →
        (declaration.typeOnly = false ∨ document.bindsValue edit.specifier edit.name = true) ∧
          document.timesBound edit.specifier edit.name ≠ 1) := by
  cases found : document.import? edit.specifier with
  | none =>
    have hskipped : (edit.apply document).1.present = false := by
      simp [apply, found, Outcome.present]
    exact iff_of_true (bindsTruly_of_skipped hskipped) (by simp)
  | some declaration =>
    simp only [Option.some.injEq, forall_eq']
    cases hbinds : declaration.binds edit.name with
    | true => simpa using bindsTruly_iff_of_alreadyPresent (apply_of_binds found hbinds)
    | false =>
      cases hobstacle : obstacle? declaration with
      | some reason =>
        have hskipped : (edit.apply document).1.present = false := by
          simp [apply, found, hbinds, hobstacle, Outcome.present]
        simpa using bindsTruly_of_skipped hskipped
      | none =>
        simpa using bindsTruly_iff_of_inserted found (apply_of_possible found hbinds hobstacle)

/-- An import that gives the value another name. -/
def renamedImport : Document where
  name := "app.ts"
  items :=
    [ { node := .importing
          { specifier := "@config/env"
            named := [{ name := "API_SERVER_URL", asName := some "url" }] } } ]

/-- The name is taken to be bound although code cannot use it. -/
theorem not_forall_bindsTruly : ¬ ∀ edit document, BindsTruly edit document := by
  intro h
  have hvalue := (h { specifier := "@config/env", name := "API_SERVER_URL" } renamedImport).value
    (by decide)
  exact absurd hvalue (by decide)

end BindingEdit

end CodeSplice
