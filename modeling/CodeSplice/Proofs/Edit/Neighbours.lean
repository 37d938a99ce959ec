/-
Module: CodeSplice.Proofs.Edit.Neighbours
Purpose: Two edits of imports, the second of which puts its import behind that of the first.
  Afterwards the two imports stand side by side among the other items. Applied again, the edits come
  to the same items: either nothing moves, or the first import moves behind the second and the
  second moves behind it again. Nothing moves exactly if the first edit has an anchor among the
  other imports.
Main exports: SideBySide, Anchored, exists_sideBySide, SideBySide.settled, SideBySide.moves,
  exists_apply_again
-/
import CodeSplice.Proofs.Edit.Import

namespace CodeSplice

variable {first second : ImportEdit} {document : Document} {front back : List (Entry Item)}
  {previous previous' : Option (Entry Item)} {placement : Placement}

/-- Whether an item imports neither of the modules of two edits. -/
def isOther (first second : ImportEdit) (item : Item) : Bool :=
  !item.imports first.declaration.specifier && !item.imports second.declaration.specifier

theorem isOther_iff {item : Item} :
    isOther first second item = true ↔
      item.imports first.declaration.specifier = false ∧
        item.imports second.declaration.specifier = false := by
  simp [isOther]

theorem isOther_congr {item other : Item} (h : item.specifier? = other.specifier?) :
    isOther first second item = isOther first second other := by
  simp only [isOther, Item.imports_congr _ h]

/-- The imports of two edits side by side, with no other import of their modules. -/
structure SideBySide (first second : ImportEdit) (front back : List (Entry Item))
    (previous previous' : Option (Entry Item)) (document : Document) : Prop where
  items_eq : document.items = front ++ first.entry previous :: second.entry previous' :: back
  front_others : ∀ e ∈ front, isOther first second e.node = true
  back_others : ∀ e ∈ back, isOther first second e.node = true

/-- Whether an edit has an anchor that neither of the edits removes: another module that is
imported. -/
def Anchored (first second : ImportEdit) (document : Document) : Prop :=
  ∃ name, first.after = some name ∧ name ≠ first.declaration.specifier ∧
    name ≠ second.declaration.specifier ∧ (document.import? name).isSome = true

theorem ImportEdit.imports_entry {edit : ImportEdit} {specifier : String} :
    (edit.entry previous).node.imports specifier = true ↔
      edit.declaration.specifier = specifier := by
  simp [Item.imports_iff]

theorem ImportEdit.not_imports_entry {edit : ImportEdit} {specifier : String} :
    (edit.entry previous).node.imports specifier = false ↔
      edit.declaration.specifier ≠ specifier := by
  simp [Item.imports_eq_false_iff]

/-- Without the imports of a module, nothing but those is missing. -/
theorem others_of_append {edit : ImportEdit} {front back : List (Entry Item)} {entry : Entry Item}
    (hitems : document.items = front ++ entry :: back)
    (hfront : ∀ e ∈ front, e.node.imports edit.declaration.specifier = false)
    (hentry : entry.node.imports edit.declaration.specifier = true)
    (hback : ∀ e ∈ back, e.node.imports edit.declaration.specifier = false) :
    edit.others document = front ++ back ∧ edit.previous? document = some entry := by
  constructor
  · rw [ImportEdit.others, hitems, List.filter_append, List.filter_cons,
      List.filter_eq_self.2 fun e he => by simp [hfront e he],
      List.filter_eq_self.2 fun e he => by simp [hback e he]]
    simp [hentry]
  · rw [ImportEdit.previous?, hitems, List.find?_append,
      List.find?_eq_none.2 fun e he => by simp [hfront e he]]
    simp [hentry]

section

variable (hfollows : second.after = some first.declaration.specifier)
  (hne : first.declaration.specifier ≠ second.declaration.specifier)

include hfollows in
/-- The second import goes behind the first one. -/
theorem apply_second {entry : Entry Item}
    (hothers : second.others document = front ++ entry :: back)
    (hfront : ∀ e ∈ front, e.node.imports first.declaration.specifier = false)
    (hentry : entry.node.imports first.declaration.specifier = true) :
    second.apply document =
      (if (second.previous? document).isNone then .inserted (.after first.declaration.specifier)
        else if front ++ entry :: second.entry (second.previous? document) :: back =
          document.items then .alreadyPresent
        else .moved (.after first.declaration.specifier),
       { document with
         items := front ++ entry :: second.entry (second.previous? document) :: back }) := by
  have hspot : Spot second.after (front ++ [entry]) back (.after first.declaration.specifier) :=
    .anchored hfollows hfront hentry
  simpa using ImportEdit.apply_of_spot (by simpa using hothers) hspot

include hfollows hne in
/-- Both edits together put their imports side by side. Around them stands what stands around the
place of the first one, without imports of the second module. -/
theorem exists_apply_apply (hothers : first.others document = front ++ back)
    (hspot : Spot first.after front back placement) :
    ∃ previous previous',
      (second.apply (first.apply document).2).2 =
          { document with
            items := front.filter (!·.node.imports second.declaration.specifier) ++
              first.entry previous :: second.entry previous' ::
                back.filter (!·.node.imports second.declaration.specifier) } := by
  have hfree : ∀ e ∈ front ++ back, e.node.imports first.declaration.specifier = false := by
    rw [← hothers]
    exact first.others_imports document
  refine ⟨first.previous? document, second.previous? (first.apply document).2, ?_⟩
  rw [ImportEdit.apply_of_spot hothers hspot]
  set document' : Document := { document with
    items := front ++ first.entry (first.previous? document) :: back } with hdocument'
  have hothers' : second.others document' =
      front.filter (!·.node.imports second.declaration.specifier) ++
        first.entry (first.previous? document) ::
          back.filter (!·.node.imports second.declaration.specifier) := by
    rw [ImportEdit.others, hdocument', List.filter_append, List.filter_cons,
      ImportEdit.not_imports_entry.2 hne]
    rfl
  rw [apply_second hfollows hothers'
    (fun e he => hfree e (List.mem_append_left back (List.mem_filter.1 he).1))
    (ImportEdit.imports_entry.2 rfl)]

/-! ### Where the first import goes the next time -/

theorem mem_filter_not_imports {entries : List (Entry Item)} {e : Entry Item} {specifier : String}
    (h : e ∈ entries.filter (!·.node.imports specifier)) :
    e ∈ entries ∧ e.node.imports specifier = false := by
  simpa using List.mem_filter.1 h

/-- If nothing that remains imports the anchor of the first edit, it can only be the module of the
second one. -/
theorem not_anchored_of_missing (hothers : first.others document = front ++ back)
    (hmissing : Missing first.after (front ++ back)) : ¬ Anchored first second document := by
  rintro ⟨name, hafter, hfirst, -, hsome⟩
  obtain ⟨e, he, himports⟩ := Document.isSome_import?_iff.1 hsome
  have hother : e ∈ front ++ back := by
    rw [← hothers]
    refine List.mem_filter.2 ⟨he, ?_⟩
    simpa using Item.imports_of_ne hfirst himports
  rw [hmissing name hafter e hother] at himports
  cases himports

/-- Without an anchor, the first import goes behind the second one, which is the last of all or is
the anchor itself. -/
theorem exists_spot_behind (hmissing : Missing first.after (front ++ back))
    (hback : ∀ e ∈ back, e.node.specifier?.isSome = false) (previous' : Option (Entry Item)) :
    ∃ placement, Spot first.after
      (front.filter (!·.node.imports second.declaration.specifier) ++ [second.entry previous'])
      (back.filter (!·.node.imports second.declaration.specifier)) placement := by
  by_cases hself : first.after = some second.declaration.specifier
  · exact ⟨_, .anchored hself (fun e he => (mem_filter_not_imports he).2)
      (ImportEdit.imports_entry.2 rfl)⟩
  · refine ⟨_, .last (fun name hafter e he => ?_) (by simp) fun e he =>
      hback e (mem_filter_not_imports he).1⟩
    rcases List.mem_append.1 he with he | he
    · exact hmissing name hafter e (List.mem_append_left _ (mem_filter_not_imports he).1)
    · rcases List.mem_cons.1 he with rfl | he
      · exact ImportEdit.not_imports_entry.2 fun hname => hself (by rw [hafter, hname])
      · exact hmissing name hafter e (List.mem_append_right _ (mem_filter_not_imports he).1)

/-- An anchor is found again in front of the imports; without one, the first import goes behind the
second one. -/
theorem spot_again (hothers : first.others document = front ++ back)
    (hspot : Spot first.after front back placement) (previous' : Option (Entry Item)) :
    (Anchored first second document ∧
      ∃ name, name ≠ first.declaration.specifier ∧ name ≠ second.declaration.specifier ∧
        Spot first.after (front.filter (!·.node.imports second.declaration.specifier))
          (second.entry previous' :: back.filter (!·.node.imports second.declaration.specifier))
          (.after name)) ∨
    (¬ Anchored first second document ∧
      ∃ placement, Spot first.after
        (front.filter (!·.node.imports second.declaration.specifier) ++ [second.entry previous'])
        (back.filter (!·.node.imports second.declaration.specifier)) placement) := by
  cases hspot with
  | @anchored name front _ anchor follows hfirst answers =>
    have hanchor : anchor ∈ first.others document := by simp [hothers]
    have hname : name ≠ first.declaration.specifier := by
      rintro rfl
      rw [first.others_imports document anchor hanchor] at answers
      cases answers
    by_cases hself : name = second.declaration.specifier
    · subst hself
      refine .inr ⟨?_, _, .anchored follows (fun e he => (mem_filter_not_imports he).2)
        (ImportEdit.imports_entry.2 rfl)⟩
      rintro ⟨name, hafter, -, hother, -⟩
      exact hother (Option.some.inj (hafter.symm.trans follows))
    · refine .inl ⟨⟨name, follows, hname, hself, Document.isSome_import?_iff.2
        ⟨anchor, (List.mem_filter.1 hanchor).1, answers⟩⟩, name, hname, hself, ?_⟩
      have hkeep : anchor.node.imports second.declaration.specifier = false :=
        Item.imports_of_ne hself answers
      rw [List.filter_append, List.filter_cons, hkeep]
      exact .anchored follows (fun e he => hfirst e (mem_filter_not_imports he).1) answers
  | @last front _ last missing isImport none_behind =>
    have hmissing : Missing first.after ((front ++ [last]) ++ back) := by simpa using missing
    exact .inr ⟨not_anchored_of_missing hothers hmissing,
      exists_spot_behind hmissing none_behind previous'⟩
  | first no_import =>
    have hmissing : Missing first.after ([] ++ back) := .of_no_import no_import
    exact .inr ⟨not_anchored_of_missing hothers hmissing,
      exists_spot_behind hmissing no_import previous'⟩

include hfollows hne in
/-- What the two edits come to, and where the first one puts its import the next time. -/
theorem exists_sideBySide (document : Document) :
    ∃ front back previous previous',
      SideBySide first second front back previous previous'
        (second.apply (first.apply document).2).2 ∧
      (second.apply (first.apply document).2).2 =
        { document with items := front ++ first.entry previous :: second.entry previous' :: back } ∧
      front ++ back = document.items.filter (isOther first second ·.node) ∧
      ((Anchored first second document ∧
          ∃ name, name ≠ first.declaration.specifier ∧ name ≠ second.declaration.specifier ∧
            Spot first.after front (second.entry previous' :: back) (.after name)) ∨
        (¬ Anchored first second document ∧
          ∃ placement, Spot first.after (front ++ [second.entry previous']) back placement)) := by
  obtain ⟨front, back, placement, hothers, hspot⟩ :=
    exists_spot first.after (first.others document)
  obtain ⟨previous, previous', happly⟩ := exists_apply_apply hfollows hne hothers hspot
  have hfree : ∀ e ∈ front ++ back, e.node.imports first.declaration.specifier = false := by
    rw [← hothers]
    exact first.others_imports document
  refine ⟨_, _, previous, previous', ⟨by rw [happly], ?_, ?_⟩, happly, ?_,
    spot_again hothers hspot previous'⟩
  · intro e he
    obtain ⟨hmem, hsecond⟩ := mem_filter_not_imports he
    exact isOther_iff.2 ⟨hfree e (List.mem_append_left _ hmem), hsecond⟩
  · intro e he
    obtain ⟨hmem, hsecond⟩ := mem_filter_not_imports he
    exact isOther_iff.2 ⟨hfree e (List.mem_append_right _ hmem), hsecond⟩
  · rw [← List.filter_append, ← hothers, ImportEdit.others, List.filter_filter]
    refine List.filter_congr fun e _ => ?_
    rw [isOther, Bool.and_comm]

/-! ### The next time -/

namespace SideBySide

variable (h : SideBySide first second front back previous previous' document)

include h

theorem others_first (hne : first.declaration.specifier ≠ second.declaration.specifier) :
    first.others document = front ++ second.entry previous' :: back ∧
      first.previous? document = some (first.entry previous) := by
  refine others_of_append h.items_eq (fun e he => (isOther_iff.1 (h.front_others e he)).1)
    (ImportEdit.imports_entry.2 rfl) fun e he => ?_
  rcases List.mem_cons.1 he with rfl | he
  · exact ImportEdit.not_imports_entry.2 hne.symm
  · exact (isOther_iff.1 (h.back_others e he)).1

include hfollows hne in
/-- With an anchor, nothing is left to do. -/
theorem settled
    (hspot : Spot first.after front (second.entry previous' :: back) placement) :
    first.apply document = (.alreadyPresent, document) ∧
      second.apply document = (.alreadyPresent, document) := by
  obtain ⟨hothers, hprevious⟩ := h.others_first hne
  constructor
  · rw [ImportEdit.apply_of_spot hothers hspot, hprevious, ImportEdit.entry_entry, ← h.items_eq]
    simp
  · have hitems : document.items =
        (front ++ [first.entry previous]) ++ second.entry previous' :: back := by
      simpa using h.items_eq
    have hsecond := others_of_append hitems
      (fun e he => by
        rcases List.mem_append.1 he with he | he
        · exact (isOther_iff.1 (h.front_others e he)).2
        · rw [List.mem_singleton.1 he]
          exact ImportEdit.not_imports_entry.2 hne)
      (ImportEdit.imports_entry.2 rfl) fun e he => (isOther_iff.1 (h.back_others e he)).2
    rw [apply_second hfollows (by simpa using hsecond.1)
      (fun e he => (isOther_iff.1 (h.front_others e he)).1) (ImportEdit.imports_entry.2 rfl),
      hsecond.2, ImportEdit.entry_entry, ← h.items_eq]
    simp

include hfollows hne in
/-- Without an anchor, both imports move, and stand where they stood. -/
theorem moves
    (hspot : Spot first.after (front ++ [second.entry previous']) back placement) :
    ∃ middle, first.apply document = (.moved placement, middle) ∧
      second.apply middle = (.moved (.after first.declaration.specifier), document) := by
  obtain ⟨hothers, hprevious⟩ := h.others_first hne
  have happly := ImportEdit.apply_of_spot (by simpa using hothers) hspot
  rw [hprevious, ImportEdit.entry_entry] at happly
  set items := front ++ [second.entry previous'] ++ first.entry previous :: back with hitems
  have hmoved : items ≠ document.items := by
    intro heq
    rw [hitems, h.items_eq, List.append_assoc, List.append_cancel_left_eq] at heq
    have hentry : second.entry previous' = first.entry previous := (List.cons.inj heq).1
    have hnode := congrArg (·.node.specifier?) hentry
    simp only [ImportEdit.node_entry, Item.specifier?_importing, Option.some.injEq] at hnode
    exact hne hnode.symm
  refine ⟨{ document with items }, by simpa [hmoved] using happly, ?_⟩
  have hswapped : ({ document with items } : Document).items =
      front ++ second.entry previous' :: first.entry previous :: back := by
    simp [hitems]
  obtain ⟨hsecond, hprevious'⟩ := others_of_append hswapped
    (fun e he => (isOther_iff.1 (h.front_others e he)).2) (ImportEdit.imports_entry.2 rfl)
    (fun e he => by
      rcases List.mem_cons.1 he with rfl | he
      · exact ImportEdit.not_imports_entry.2 hne
      · exact (isOther_iff.1 (h.back_others e he)).2)
  rw [apply_second hfollows hsecond (fun e he => (isOther_iff.1 (h.front_others e he)).1)
    (ImportEdit.imports_entry.2 rfl), hprevious', ImportEdit.entry_entry, ← h.items_eq]
  simp [hmoved.symm]

end SideBySide

include hfollows hne in
/-- Both imports, put in their places again, stand where they stood. Nothing is reported to have
changed exactly if the first one has an anchor. -/
theorem exists_apply_again (document : Document) :
    ∃ outcome outcome' middle,
      first.apply (second.apply (first.apply document).2).2 = (outcome, middle) ∧
      second.apply middle = (outcome', (second.apply (first.apply document).2).2) ∧
      (outcome.changed = false ∧ outcome'.changed = false ↔ Anchored first second document) := by
  obtain ⟨front, back, previous, previous', hside, -, -, hspot⟩ :=
    exists_sideBySide hfollows hne document
  rcases hspot with ⟨hanchored, name, -, -, hspot⟩ | ⟨hanchored, placement, hspot⟩
  · obtain ⟨hsame, hsame'⟩ := hside.settled hfollows hne hspot
    exact ⟨_, _, _, hsame, hsame', by simp [Outcome.changed, hanchored]⟩
  · obtain ⟨middle, hmoved, hmoved'⟩ := hside.moves hfollows hne hspot
    exact ⟨_, _, _, hmoved, hmoved', by simp [Outcome.changed, hanchored]⟩

end

end CodeSplice
