/-
Module: CodeSplice.Proofs.Document.Conservation
Purpose: What becomes of the comments of a text. The canonical form of what is read from a text bears each
  comment of the text as often as the text does, but for those that a ledger of the text tells to be lost
  or to be written once more.
Main exports: Source.itemLedger, Source.converts_item, Source.ledger, Document.exists_bears_render,
  Document.exists_perm_render
-/
import CodeSplice.Proofs.Document.Stray

namespace CodeSplice

open Layout Syntax

namespace Source

variable {source : Source}

/-! ### Items -/

/-- The class that a tree declares or exports. -/
def declaredClass? (tree : Tree) : Option Tree :=
  match tree with
  | .node .classDeclaration _ _ _ | .node .abstractClassDeclaration _ _ _ => some tree
  | .node .exportStatement _ _ _ => exportedClass? tree
  | _ => none

/-- What an item is: an import, a class, or a block. -/
theorem item_cases (source : Source) (tree : Tree) (whole : Extent) :
    (∃ declaration, tree.isPhrase .importStatement = true ∧
      ImportDeclaration.ofTree? source tree whole = some declaration ∧
        source.item tree whole = .importing declaration) ∨
    (∃ inner declaration, declaredClass? tree = some inner ∧
      source.class? inner whole.start = some declaration ∧
        source.item tree whole = .classlike declaration) ∨
    source.item tree whole = .other (source.block whole.span) := by
  unfold item
  split
  · cases hread : ImportDeclaration.ofTree? source _ whole with
    | none => exact .inr (.inr rfl)
    | some declaration => exact .inl ⟨declaration, rfl, rfl, rfl⟩
  · cases hread : source.class? _ whole.start with
    | none => exact .inr (.inr rfl)
    | some declaration => exact .inr (.inl ⟨_, declaration, rfl, hread, rfl⟩)
  · cases hread : source.class? _ whole.start with
    | none => exact .inr (.inr rfl)
    | some declaration => exact .inr (.inl ⟨_, declaration, rfl, hread, rfl⟩)
  · rename_i extent weight parts
    cases hexported : exportedClass? (.node .exportStatement extent weight parts) with
    | none => exact .inr (.inr rfl)
    | some inner =>
      cases hread : source.class? inner whole.start with
      | none => exact .inr (.inr (by simp [hread]))
      | some declaration =>
        exact .inr (.inl ⟨inner, declaration, hexported, hread, by simp [hread]⟩)
  · exact .inr (.inr rfl)

/-- A class may be read from the stretch of the tree that declares or exports it. -/
theorem Frames.declared {tree : Tree} {whole : Extent} (frames : source.Frames tree whole)
    {inner : Tree} (hdeclared : declaredClass? tree = some inner) :
    source.Frames inner whole ∧ ∃ phrase, inner.isPhrase phrase = true ∧ phrase ≠ .template := by
  unfold declaredClass? at hdeclared
  split at hdeclared
  · obtain rfl := Option.some.inj hdeclared
    exact ⟨frames, .classDeclaration, rfl, by decide⟩
  · obtain rfl := Option.some.inj hdeclared
    exact ⟨frames, .abstractClassDeclaration, rfl, by decide⟩
  · rename_i extent weight parts
    have hexport : (Syntax.Tree.node .exportStatement extent weight parts).isPhrase
      .exportStatement = true := rfl
    refine ⟨frames.child hexport (by decide) (List.mem_of_find?_eq_some hdeclared), ?_⟩
    have hkind := List.find?_some hdeclared
    simp only [Bool.or_eq_true, Bool.and_eq_true] at hkind
    rcases hkind with (hclass | habstract) | ⟨-, hexpression⟩
    · exact ⟨.classDeclaration, hclass, by decide⟩
    · exact ⟨.abstractClassDeclaration, habstract, by decide⟩
    · exact ⟨.classExpression, hexpression, by decide⟩
  · contradiction

/-- What becomes of the comments of an item. -/
def itemLedger (source : Source) (tree : Tree) (whole : Extent) : Ledger :=
  match source.item tree whole with
  | .importing declaration => source.importLedger declaration tree whole
  | .classlike _ =>
    match (declaredClass? tree).bind (·.child? .classBody) with
    | some body => source.classLedger body whole
    | none => {}
  | .other _ => {}

/-- An item carries its comments. -/
theorem converts_item (hs : source.Sound) (style : Style) :
    source.Converts (Item.render style) source.item source.itemLedger := by
  intro tree whole frames
  rcases source.item_cases tree whole with ⟨declaration, hphrase, hread, hitem⟩ |
    ⟨inner, declaration, hdeclared, hread, hitem⟩ | hitem
  · obtain ⟨qs, hcarries, haccounts⟩ := exists_carries_import hs frames hphrase hread style
    refine ⟨qs, hitem ▸ hcarries, ?_⟩
    rwa [itemLedger, hitem]
  · obtain ⟨hframes, phrase, hphrase, hne⟩ := frames.declared hdeclared
    obtain ⟨body, hbody, qs, hcarries, haccounts⟩ :=
      exists_carries_class? hs hframes hphrase hne hread
    refine ⟨qs, hitem ▸ hcarries, ?_⟩
    simpa only [itemLedger, hitem, hdeclared, Option.bind_some, hbody] using haccounts
  · obtain ⟨qs, hcarries, haccounts⟩ :=
      exists_carries_block hs frames.splits_start frames.splits_stop
    refine ⟨qs, hitem ▸ hcarries, ?_⟩
    rwa [itemLedger, hitem]

/-- What becomes of the comments of a whole text. -/
def ledger (source : Source) (tree : Tree) : Ledger :=
  source.tally source.itemLedger none [] [] (tree.children.flatMap Piece.ofTree)

end Source

/-! ### Documents -/

/-- Without an opening brace no comment stands behind one. -/
theorem Attached.opening_run {α : Type} (block : Extent → Block) (convert : Tree → Extent → α)
    (attached : Attached α) (pieces : List Piece) :
    (attached.run block convert none pieces).opening = attached.opening := by
  have hremark : ∀ (attached : Attached α) (token : Token),
      (attached.remark block none token).opening = attached.opening := by
    intro attached token
    unfold Attached.remark
    simp only
    split <;> split <;> simp_all [Attached.wait]
  fun_induction attached.run block convert none pieces with
  | case1 => rfl
  | case2 attached token pieces ih => rw [ih, hremark]
  | case3 attached extent pieces ih => exact ih
  | case4 attached extent pieces ih => exact ih
  | case5 attached tree extent stop pieces ih => exact ih
  | case6 attached tree extent pieces _ ih => exact ih

namespace Document

/-- The canonical form of what is read from a text bears the comments of the text, as the ledger says. -/
theorem exists_bears_render {name text : String} {document : Document}
    (h : Document.ofSource? name text = some document) :
    ∃ tree, parse? text.toList = some tree ∧
      let source := Source.ofTree text.toList tree
      ∀ style : Style, ∃ written, source.Bears (document.render style).toList written ∧
        ∀ r, written.count r + (source.ledger tree).lost.count r =
          tree.comments.count r + (source.ledger tree).doubled.count r := by
  obtain ⟨tree, htree, rfl⟩ := Option.map_eq_some_iff.1 h
  refine ⟨tree, htree, fun style => ?_⟩
  have hplaced := placed_of_parse? htree
  have hs := Source.sound_ofTree hplaced
  have holds := Source.holds_ofTree hplaced (derived_of_parse? htree)
  have hchain := Source.chain_children hs holds (isPhrase_of_parse? htree) (by decide)
    (show tree.children = [] ++ tree.children ++ [] by simp) hplaced.start_le_stop (Nat.le_refl _)
    (Nat.le_refl _) (by simp) (fun child hchild => (hplaced.child hchild).2) (by simp)
  obtain ⟨written, ⟨es, cs, os, hes, hcs, hopening, hcount⟩, htally⟩ :=
    Source.run_attaches hs (Source.converts_item hs style) none hchain (Source.attaches_nil none)
      ⟨rfl, rfl⟩
  have hbears := Source.carries_renderEntries hes hcs Item.apart { indent := style.indent } [] .nil
  -- No brace opens a text, so no comment has been left for one.
  rw [Attached.opening_run] at hopening
  obtain rfl : os = [] := hopening
  refine ⟨es ++ cs, hbears, fun r => ?_⟩
  have := hcount r
  have := htally r
  have := (holds.perm_comments hs).count_eq r
  simp only [Source.ledger, List.count_append, List.count_nil] at *
  omega

/-- If the ledger of a text is empty, its canonical form bears the comments of the text. -/
theorem exists_perm_render {name text : String} {document : Document}
    (h : Document.ofSource? name text = some document) :
    ∃ tree, parse? text.toList = some tree ∧
      let source := Source.ofTree text.toList tree
      (source.ledger tree).lost = [] → (source.ledger tree).doubled = [] →
        ∀ style : Style, ∃ written, source.Bears (document.render style).toList written ∧
          written.Perm tree.comments := by
  obtain ⟨tree, htree, hbears⟩ := exists_bears_render h
  refine ⟨tree, htree, fun hlost hdoubled style => ?_⟩
  obtain ⟨written, hwritten, hcount⟩ := hbears style
  refine ⟨written, hwritten, List.perm_iff_count.2 fun r => ?_⟩
  simpa [hlost, hdoubled] using hcount r

end Document

end CodeSplice
