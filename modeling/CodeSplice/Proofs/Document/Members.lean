/-
Module: CodeSplice.Proofs.Document.Members
Purpose: Where the methods of a document come from. Each is read from a definition in the text, and the
  name and the modifiers of this definition decide what it is read as: a definition by the name of the
  constructor is read as a method only if it is static.
Main exports: exists_definition_of_mem_methods, isStatic_of_name_eq_constructor
-/
import CodeSplice.Document.Reading

namespace CodeSplice

open Layout Syntax

/-! ### What is attached -/

/-- A tree makes a child of nothing but itself. -/
theorem eq_of_child_mem_ofTree {tree other : Tree} {extent : Extent}
    (hmem : .child other extent ∈ Piece.ofTree tree) : other = tree := by
  unfold Piece.ofTree at hmem
  split at hmem
  · split at hmem
    · simp at hmem
    · split at hmem
      · simp only [List.mem_singleton, Piece.child.injEq] at hmem
        exact hmem.1
      · split at hmem <;> simp at hmem
  · simp at hmem
  · simp at hmem
    exact hmem.1

namespace Attached

variable {α : Type} {attached : Attached α} {block : Extent → Block} {convert : Tree → Extent → α}
  {known : Tree → Prop}

/-- All that has been attached so far has been converted from known children. -/
def Converted (attached : Attached α) (convert : Tree → Extent → α) (known : Tree → Prop) : Prop :=
  ∀ entry ∈ attached.reversed, ∃ tree, known tree ∧ ∃ extent, entry.node = convert tree extent

/-- A comment is attached to a child or waits, and no child is added or changed. -/
theorem Converted.remark (h : attached.Converted convert known) (openRow : Option Nat)
    (remark : Token) : (attached.remark block openRow remark).Converted convert known := by
  obtain ⟨reversed, comments, opening, lastRow, childRow, decorated⟩ := attached
  cases reversed with
  | nil =>
    simp only [Attached.remark]
    split <;> simp [Converted, wait]
  | cons last others =>
    simp only [Attached.remark]
    split
    · simpa [Converted] using h
    · exact h

theorem Converted.child (h : attached.Converted convert known) {tree : Tree} (hknown : known tree)
    (extent : Extent) : (attached.child convert tree extent).Converted convert known := by
  intro entry hentry
  rcases List.mem_cons.1 hentry with rfl | hentry
  · exact ⟨tree, hknown, _, rfl⟩
  · exact h entry hentry

theorem Converted.run (h : attached.Converted convert known) (openRow : Option Nat)
    {pieces : List Piece} (hpieces : ∀ tree extent, .child tree extent ∈ pieces → known tree) :
    (Attached.run block convert openRow attached pieces).Converted convert known := by
  fun_induction Attached.run block convert openRow attached pieces with
  | case1 => exact h
  | case2 attached remark pieces ih =>
    exact ih (h.remark openRow remark) fun tree extent hmem =>
      hpieces tree extent (List.mem_cons_of_mem _ hmem)
  | case3 attached extent pieces ih =>
    exact ih h fun tree extent hmem => hpieces tree extent (List.mem_cons_of_mem _ hmem)
  | case4 attached extent pieces ih =>
    exact ih h fun tree extent hmem => hpieces tree extent (List.mem_cons_of_mem _ hmem)
  | case5 attached tree extent stop pieces ih =>
    exact ih (h.child (hpieces tree extent List.mem_cons_self) _) fun tree extent hmem =>
      hpieces tree extent (List.mem_cons_of_mem _ (List.mem_cons_of_mem _ hmem))
  | case6 attached tree extent pieces _ ih =>
    exact ih (h.child (hpieces tree extent List.mem_cons_self) _) fun tree extent hmem =>
      hpieces tree extent (List.mem_cons_of_mem _ hmem)

end Attached

/-- What a container holds has been converted from its children. -/
theorem exists_convert_of_mem_entries {α : Type} {block : Extent → Block}
    {convert : Tree → Extent → α} {openRow : Option Nat} {children : List Tree} {entry : Entry α}
    (h : entry ∈ (attach block convert openRow children).entries) :
    ∃ tree ∈ children, ∃ extent, entry.node = convert tree extent := by
  have hnil : Attached.Converted { lastRow := openRow } convert (· ∈ children) := by
    simp [Attached.Converted]
  refine hnil.run openRow (fun tree extent hmem => ?_) entry (List.mem_reverse.1 h)
  obtain ⟨other, hother, hpiece⟩ := List.mem_flatMap.1 hmem
  exact eq_of_child_mem_ofTree hpiece ▸ hother

/-! ### Definitions -/

namespace Source

/-- The children in the braces of a body are children of the body. -/
theorem mem_of_mem_enclosed {body child : Tree} (h : child ∈ enclosed body) :
    child ∈ body.children := by
  have hdrop := List.mem_reverse.1 h
  exact List.mem_reverse.1 ((List.dropWhile_sublist _).mem (List.mem_of_mem_drop hdrop))

variable {source : Source}

/-- A definition by the name of the constructor is one, unless it is static. -/
theorem isStatic_of_definition? {tree : Tree} {start : Nat} {method : Method}
    (h : source.definition? tree start = some (.method method))
    (hname : method.name = "constructor") : method.isStatic = true := by
  simp only [definition?] at h
  split at h
  · rename_i name body hplain hbody
    split at h
    · split at h
      · simp at h
      · rename_i hconstructor
        obtain rfl := Member.method.inj (Option.some.inj h)
        obtain rfl : name = "constructor" := hname
        simpa using hconstructor
    · contradiction
  · contradiction

/-- Only definitions are read as methods. -/
theorem exists_definition_of_member {tree : Tree} {extent : Extent} {method : Method}
    (h : source.member tree extent = .method method) :
    ∃ tree start, source.definition? tree start = some (.method method) := by
  unfold member at h
  split at h
  · rename_i extent' weight parts
    cases hdefinition :
        source.definition? (.node .methodDefinition extent' weight parts) extent.start with
    | none => simp [hdefinition] at h
    | some read =>
      rw [hdefinition, Option.getD_some] at h
      exact ⟨_, _, h ▸ hdefinition⟩
  · contradiction

theorem exists_definition_of_class? {tree : Tree} {start : Nat} {declaration : ClassDeclaration}
    {method : Method} (h : source.class? tree start = some declaration)
    (hmethod : method ∈ declaration.methods) :
    ∃ tree start, source.definition? tree start = some (.method method) := by
  unfold class? at h
  split at h
  · obtain rfl := Option.some.inj h
    obtain ⟨entry, hentry, hnode⟩ := List.mem_filterMap.1 hmethod
    obtain ⟨tree, -, extent, hmember⟩ := exists_convert_of_mem_entries hentry
    rw [hmember] at hnode
    cases hread : source.member tree extent with
    | method read =>
      rw [hread] at hnode
      obtain rfl := Option.some.inj hnode
      exact exists_definition_of_member hread
    | constructor read => simp [hread, Member.method?] at hnode
    | other block => simp [hread, Member.method?] at hnode
  · contradiction

/-- What is no block has been found. -/
theorem eq_some_of_getD_other {found : Option Item} {block : Block} {declaration : ClassDeclaration}
    (h : found.getD (.other block) = .classlike declaration) :
    found = some (.classlike declaration) := by
  cases found with
  | none => contradiction
  | some item => exact congrArg some h

theorem exists_definition_of_item {tree : Tree} {extent : Extent} {declaration : ClassDeclaration}
    {method : Method} (h : source.item tree extent = .classlike declaration)
    (hmethod : method ∈ declaration.methods) :
    ∃ tree start, source.definition? tree start = some (.method method) := by
  unfold item at h
  have hfound := eq_some_of_getD_other h
  split at hfound
  · simp at hfound
  · obtain ⟨read, hread, hclass⟩ := Option.map_eq_some_iff.1 hfound
    exact exists_definition_of_class? hread (Item.classlike.inj hclass ▸ hmethod)
  · obtain ⟨read, hread, hclass⟩ := Option.map_eq_some_iff.1 hfound
    exact exists_definition_of_class? hread (Item.classlike.inj hclass ▸ hmethod)
  · obtain ⟨read, hread, hclass⟩ := Option.map_eq_some_iff.1 hfound
    obtain ⟨exported, -, hread⟩ := Option.bind_eq_some_iff.1 hread
    exact exists_definition_of_class? hread (Item.classlike.inj hclass ▸ hmethod)
  · contradiction

end Source

/-- Every method of a document is read from a definition. -/
theorem exists_definition_of_mem_methods {name text : String} {document : Document}
    {declaration : ClassDeclaration} {method : Method}
    (h : Document.ofSource? name text = some document) (hclass : declaration ∈ document.classes)
    (hmethod : method ∈ declaration.methods) :
    ∃ source tree start, Source.definition? source tree start = some (.method method) := by
  simp only [Document.ofSource?, Option.map_eq_some_iff] at h
  obtain ⟨root, -, rfl⟩ := h
  obtain ⟨entry, hentry, hnode⟩ := List.mem_filterMap.1 hclass
  obtain ⟨tree, -, extent, hitem⟩ := exists_convert_of_mem_entries hentry
  rw [hitem] at hnode
  cases hread : (Source.ofTree text.toList root).item tree extent with
  | classlike read =>
    rw [hread] at hnode
    obtain rfl := Option.some.inj hnode
    exact ⟨_, Source.exists_definition_of_item hread hmethod⟩
  | importing read => simp [hread, Item.class?] at hnode
  | other block => simp [hread, Item.class?] at hnode

/-- A method of a document by the name of the constructor is static. -/
theorem isStatic_of_name_eq_constructor {name text : String} {document : Document}
    {declaration : ClassDeclaration} {method : Method}
    (h : Document.ofSource? name text = some document) (hclass : declaration ∈ document.classes)
    (hmethod : method ∈ declaration.methods) (hname : method.name = "constructor") :
    method.isStatic = true := by
  obtain ⟨source, tree, start, hdefinition⟩ := exists_definition_of_mem_methods h hclass hmethod
  exact Source.isStatic_of_definition? hdefinition hname

end CodeSplice
