/-
Module: CodeSplice.Proofs.Edit.Placing
Purpose: What becomes of a document when an import is put in its place. The module is imported once
  afterwards, by the declaration of the edit, with the comments around the first import that it
  replaces; the other items stay as they are, in their order. Which rule decides the place can be
  seen from the document as it was, and the report names that rule.
Main exports: Spot.placement_eq_after_iff, ImportEdit.Puts, ImportEdit.exists_puts
-/
import CodeSplice.Proofs.Edit.Neighbours

namespace CodeSplice

/-- An import goes behind its anchor exactly if one of the items imports the anchor. -/
theorem Spot.placement_eq_after_iff {after : Option String} {front back : List (Entry Item)}
    {placement : Placement} {name : String} (h : Spot after front back placement) :
    placement = .after name ↔
      after = some name ∧ ∃ e ∈ front ++ back, e.node.imports name = true := by
  have hnot (hmissing : Missing after (front ++ back)) :
      ¬ (after = some name ∧ ∃ e ∈ front ++ back, e.node.imports name = true) := by
    rintro ⟨hafter, e, he, himports⟩
    rw [hmissing name hafter e he] at himports
    cases himports
  cases h with
  | @anchored anchorName front _ anchor follows first answers =>
    rw [Placement.after.injEq, follows, Option.some.injEq]
    refine ⟨fun hname => ⟨hname, anchor, by simp, hname ▸ answers⟩, fun hname => hname.1⟩
  | @last front _ last missing isImport none_behind =>
    exact iff_of_false nofun (hnot (by simpa using missing))
  | first no_import =>
    exact iff_of_false nofun (hnot (by simpa using Missing.of_no_import no_import))

namespace ImportEdit

variable (edit : ImportEdit) (document : Document)

/-- The other items import what the document imports, but for the module of the edit. -/
theorem exists_mem_others_iff {name : String} :
    (∃ e ∈ edit.others document, e.node.imports name = true) ↔
      name ≠ edit.declaration.specifier ∧ (document.import? name).isSome = true := by
  rw [Document.isSome_import?_iff]
  constructor
  · rintro ⟨e, he, himports⟩
    refine ⟨?_, e, (List.mem_filter.1 he).1, himports⟩
    rintro rfl
    rw [edit.others_imports document e he] at himports
    cases himports
  · rintro ⟨hne, e, he, himports⟩
    refine ⟨e, List.mem_filter.2 ⟨he, ?_⟩, himports⟩
    simpa using Item.imports_of_ne hne himports

/-- There is an import to replace exactly if the document imports the module. -/
theorem isSome_previous? :
    (edit.previous? document).isSome =
      (document.import? edit.declaration.specifier).isSome := by
  rw [Bool.eq_iff_iff, Document.isSome_import?_iff]
  simp [previous?]

/-- The import stands among the other items. -/
theorem exists_items_apply :
    ∃ front back placement, edit.others document = front ++ back ∧
      Spot edit.after front back placement ∧ (edit.apply document).2 =
        { document with items := front ++ edit.entry (edit.previous? document) :: back } := by
  obtain ⟨front, back, placement, hothers, hspot⟩ :=
    exists_spot edit.after (edit.others document)
  exact ⟨front, back, placement, hothers, hspot, by rw [apply_of_spot hothers hspot]⟩

/-- What is reported: the import was not there, it stands where it stood, or it has moved. -/
theorem report_of_spot {front back : List (Entry Item)} {placement : Placement}
    (hothers : edit.others document = front ++ back)
    (hspot : Spot edit.after front back placement) :
    (edit.apply document).1 =
      if (document.import? edit.declaration.specifier).isNone then .inserted placement
      else if (edit.apply document).2.items = document.items then .alreadyPresent
      else .moved placement := by
  have hnone : (edit.previous? document).isNone =
      (document.import? edit.declaration.specifier).isNone := by
    rw [← Option.not_isSome, ← Option.not_isSome, isSome_previous?]
  rw [apply_of_spot hothers hspot, hnone]

/-- What putting an import in its place makes of a document: `entry` stands between `front` and
`back`, by the rule that `placement` names. -/
structure Puts (edit : ImportEdit) (before : Document) (front : List (Entry Item))
    (entry : Entry Item) (back : List (Entry Item)) (placement : Placement) (outcome : Outcome)
    (after : Document) : Prop where
  /-- Nothing but the items changes. -/
  after_eq : after = { before with items := front ++ entry :: back }
  /-- The items around the import are the other items of the document, in their order. -/
  others_eq : front ++ back =
    before.items.filter fun e => !e.node.imports edit.declaration.specifier
  /-- No other item imports the module. -/
  only : after.items.filter (·.node.imports edit.declaration.specifier) = [entry]
  node_eq : entry.node = .importing edit.declaration
  blankBefore_eq : entry.blankBefore = false
  /-- The comments are those of the first import of the module. -/
  comments_eq : entry.comments =
    ((before.items.find? (·.node.imports edit.declaration.specifier)).map (·.comments)).getD []
  trailing_eq : entry.trailing =
    (before.items.find? (·.node.imports edit.declaration.specifier)).bind (·.trailing)
  /-- Directly behind the first import of the anchor, else directly behind the last import, else at
  the start. -/
  spot : Spot edit.after front back placement
  /-- An anchor counts if it is another module that the document imports. -/
  anchored_iff : ∀ name, placement = .after name ↔ edit.after = some name ∧
    name ≠ edit.declaration.specifier ∧ (before.import? name).isSome = true
  inserted_iff : ∀ reported, outcome = .inserted reported ↔
    reported = placement ∧ before.import? edit.declaration.specifier = none
  present_iff : outcome = .alreadyPresent ↔
    after.items = before.items ∧ (before.import? edit.declaration.specifier).isSome = true
  moved_iff : ∀ reported, outcome = .moved reported ↔ reported = placement ∧
    after.items ≠ before.items ∧ (before.import? edit.declaration.specifier).isSome = true

/-- Every edit puts its import in its place, in every document. -/
theorem exists_puts :
    ∃ front entry back placement, edit.Puts document front entry back placement
      (edit.apply document).1 (edit.apply document).2 := by
  obtain ⟨front, back, placement, hothers, hspot, hafter⟩ := edit.exists_items_apply document
  have hfree : ∀ e ∈ front ++ back, e.node.imports edit.declaration.specifier = false :=
    hothers ▸ edit.others_imports document
  have hreport := edit.report_of_spot document hothers hspot
  refine ⟨front, edit.entry (edit.previous? document), back, placement, hafter, hothers.symm,
    ?only, rfl, rfl, rfl, rfl, hspot, ?anchored, ?inserted, ?present, ?moved⟩
  case only =>
    have hfront := List.filter_eq_nil_iff.2 fun e he => by
      simpa using hfree e (List.mem_append_left back he)
    have hback := List.filter_eq_nil_iff.2 fun e he => by
      simpa using hfree e (List.mem_append_right front he)
    rw [hafter, List.filter_append, List.filter_cons, hfront, hback, imports_entry.2 rfl]
    simp
  case anchored =>
    intro name
    rw [hspot.placement_eq_after_iff, ← hothers, exists_mem_others_iff]
  -- The three reports exclude each other.
  all_goals
    cases himport : document.import? edit.declaration.specifier with
    | none => simp [hreport, himport, @eq_comm _ placement]
    | some _ =>
      by_cases hsame : (edit.apply document).2.items = document.items <;>
        simp [hreport, himport, hsame, @eq_comm _ placement]

end ImportEdit

end CodeSplice
