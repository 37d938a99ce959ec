/-
Module: CodeSplice.Proofs.Edit.Names
Purpose: The names that imports bind and the comments that belong to imports. An import that is put
  in its place takes the place of all other imports of its module: what those bind is bound
  afterwards only if the new one binds it too, and of their comments those around the first one are
  kept. The imports of other modules keep their names and comments.
Main exports: Document.localNames, Document.importComments, ImportEdit.KeepsNames,
  ImportEdit.KeepsComments, ImportEdit.imports_apply, ImportEdit.keeps_others
-/
import CodeSplice.Proofs.Edit.Placing

namespace CodeSplice

/-! ### Names -/

/-- The names under which the importing module sees what a declaration imports. -/
def ImportDeclaration.localNames (declaration : ImportDeclaration) : List String :=
  declaration.default.toList ++ declaration.namespaceName.toList ++
    declaration.named.map (·.localName)

/-- The names that the imports of a document bind. -/
def Document.localNames (document : Document) : List String :=
  document.imports.flatMap (·.localNames)

/-! ### Comments -/

/-- A comment that belongs to an import. -/
inductive ImportComment where
  /-- On lines of its own above the import. -/
  | above (comment : Comment)
  /-- On the line where the import ends. -/
  | behind (text : String)
  /-- In the braces, at a binding or behind the last one. -/
  | inside (text : String)
deriving DecidableEq, Repr, Inhabited

/-- The comments around a declaration. -/
def Entry.outerComments (entry : Entry Item) : List ImportComment :=
  entry.comments.map .above ++ entry.trailing.toList.map .behind

/-- The comments in the braces of a declaration. -/
def ImportDeclaration.innerComments (declaration : ImportDeclaration) : List ImportComment :=
  (declaration.named.flatMap (fun binding => binding.comments ++ binding.trailing.toList) ++
    declaration.braceComments).map .inside

/-- The comments that belong to an item, if it is an import. -/
def Entry.importComments (entry : Entry Item) : List ImportComment :=
  match entry.node.import? with
  | none => []
  | some declaration => entry.outerComments ++ declaration.innerComments

/-- The comments that belong to the imports of a document. -/
def Document.importComments (document : Document) : List ImportComment :=
  document.items.flatMap (·.importComments)

namespace ImportEdit

variable (edit : ImportEdit) (document : Document)

/-- Every name that an import binds is bound by an import afterwards. -/
def KeepsNames : Prop :=
  document.localNames ⊆ (edit.apply document).2.localNames

/-- Every comment that belongs to an import is there afterwards. -/
def KeepsComments : Prop :=
  document.importComments ⊆ (edit.apply document).2.importComments

/-- An import of two names and one of another module, with comments. -/
def serverImports : Document where
  name := "app.ts"
  items :=
    [ { node := .importing
          { specifier := "express"
            default := some "express"
            named := [{ name := "Router", trailing := some "// routes" }] }
        trailing := some "// server" },
      { comments := [{ blankBefore := false, text := .ofText "// requests" }]
        node := .importing { specifier := "morgan", default := some "morgan" } } ]

/-- An import that binds less takes the place of one that binds more: a name goes, and the comment
behind it. -/
theorem not_forall_keepsAll :
    (¬ ∀ edit document, KeepsNames edit document) ∧
      ¬ ∀ edit document, KeepsComments edit document := by
  let plain : ImportEdit := { declaration := { specifier := "express", default := some "express" } }
  have hrouter : "Router" ∈ serverImports.localNames := by decide
  have hroutes : .inside "// routes" ∈ serverImports.importComments := by decide
  exact ⟨fun h => absurd (h plain serverImports hrouter) (by decide),
    fun h => absurd (h plain serverImports hroutes) (by decide)⟩

/-- The declaration of the edit takes the place of the declarations of its module. -/
theorem imports_apply : (edit.apply document).2.imports.Perm
    (edit.declaration :: document.imports.filter (·.specifier != edit.declaration.specifier)) := by
  obtain ⟨front, back, placement, hothers, -, hafter⟩ := edit.exists_items_apply document
  have hsame : (front ++ back).filterMap (·.node.import?) =
      document.imports.filter (·.specifier != edit.declaration.specifier) := by
    rw [← hothers, others, List.filterMap_filter, Document.imports, List.filter_filterMap]
    congr 1
    funext e
    cases e.node <;> simp [Item.imports, Item.import?, Option.filter]
  rw [← hsame, Document.imports, hafter]
  simp [Item.import?]

/-- What is bound afterwards is what the declaration of the edit binds and what the imports of other
modules have bound before. -/
theorem mem_localNames_apply_iff {name : String} :
    name ∈ (edit.apply document).2.localNames ↔
      name ∈ edit.declaration.localNames ∨
        ∃ declaration ∈ document.imports,
          declaration.specifier ≠ edit.declaration.specifier ∧ name ∈ declaration.localNames := by
  have hperm := (edit.imports_apply document).flatMap_right (·.localNames)
  rw [Document.localNames, hperm.mem_iff]
  simp [and_assoc]

/-- The other items keep the comments that belong to them. -/
theorem importComments_subset_of_other {e : Entry Item} (he : e ∈ document.items)
    (hother : e.node.imports edit.declaration.specifier = false) :
    e.importComments ⊆ (edit.apply document).2.importComments := by
  obtain ⟨front, back, placement, hothers, -, hafter⟩ := edit.exists_items_apply document
  have hmem : e ∈ front ++ back := by
    rw [← hothers]
    exact List.mem_filter.2 ⟨he, by simp [hother]⟩
  have hstays : e ∈ (edit.apply document).2.items := by
    rw [hafter]
    exact (List.mem_append.1 hmem).elim (List.mem_append_left _)
      fun hback => List.mem_append_right _ (List.mem_cons_of_mem _ hback)
  exact fun comment hcomment => List.mem_flatMap.2 ⟨e, hstays, hcomment⟩

/-- The comments around the first import of the module stand around the new one. -/
theorem outerComments_subset_of_first {first : Entry Item}
    (hfirst : document.items.find? (·.node.imports edit.declaration.specifier) = some first) :
    first.outerComments ⊆ (edit.apply document).2.importComments := by
  obtain ⟨front, back, placement, -, -, hafter⟩ := edit.exists_items_apply document
  rw [previous?, hfirst] at hafter
  have hmem : edit.entry (some first) ∈ (edit.apply document).2.items := by
    rw [hafter]
    exact List.mem_append_right _ List.mem_cons_self
  intro comment hcomment
  refine List.mem_flatMap.2 ⟨_, hmem, ?_⟩
  exact List.mem_append_left _ hcomment

/-- What an edit keeps of names and comments. A name that the imports of a document bind is bound
afterwards exactly if the declaration of the edit binds it or the import of another module does. The
imports of other modules keep their comments, and the comments around the first import of the module
of the edit stay. -/
theorem keeps_others :
    (∀ name, name ∈ (edit.apply document).2.localNames ↔
      name ∈ edit.declaration.localNames ∨
        ∃ declaration ∈ document.imports,
          declaration.specifier ≠ edit.declaration.specifier ∧ name ∈ declaration.localNames) ∧
    (∀ e ∈ document.items, e.node.imports edit.declaration.specifier = false →
      e.importComments ⊆ (edit.apply document).2.importComments) ∧
    ∀ first, document.items.find? (·.node.imports edit.declaration.specifier) = some first →
      first.outerComments ⊆ (edit.apply document).2.importComments :=
  ⟨fun _ => edit.mem_localNames_apply_iff document,
    fun _ he hother => edit.importComments_subset_of_other document he hother,
    fun _ hfirst => edit.outerComments_subset_of_first document hfirst⟩

/-- The other module is imported as before, and the comment behind the import that is replaced
stands behind the new one. -/
theorem keeps_others_serverImports :
    let edit : ImportEdit := { declaration := { specifier := "express" }, after := some "morgan" }
    "morgan" ∈ (edit.apply serverImports).2.localNames ∧
      .above { blankBefore := false, text := .ofText "// requests" } ∈
        (edit.apply serverImports).2.importComments ∧
      .behind "// server" ∈ (edit.apply serverImports).2.importComments := by
  intro edit
  obtain ⟨hnames, hothers, hfirst⟩ := edit.keeps_others serverImports
  refine ⟨(hnames "morgan").2 (.inr ⟨_, List.mem_cons_of_mem _ List.mem_cons_self, ?_, ?_⟩),
    hothers _ (List.mem_cons_of_mem _ List.mem_cons_self) ?_ ?_, hfirst _ rfl ?_⟩
  · decide
  · decide
  · decide
  · exact List.mem_cons_self
  · exact List.mem_cons_self

end ImportEdit

end CodeSplice
