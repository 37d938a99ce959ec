/-
Module: CodeSplice.Proofs.Edit.Import
Purpose: What the edits of imports do. Where an import is put depends only on the modules that the
  other items import, so it does not matter what else becomes of those items before: a change of
  another import or of a class can be made first or last.
Main exports: Spot, ImportEdit.apply_of_spot, exists_spot, ImportEdit.apply_update,
  BindingEdit.apply_cases, BindingEdit.apply_update
-/
import CodeSplice.Edit.Import
import CodeSplice.Proofs.Edit.Insertion

namespace CodeSplice

/-! ### The module that an item imports -/

/-- The module that an item imports. -/
def Item.specifier? (item : Item) : Option String :=
  item.import?.map (·.specifier)

@[simp] theorem Item.specifier?_importing (declaration : ImportDeclaration) :
    (Item.importing declaration).specifier? = some declaration.specifier := rfl

@[simp] theorem Item.specifier?_classlike (declaration : ClassDeclaration) :
    (Item.classlike declaration).specifier? = none := rfl

theorem Item.imports_eq (item : Item) (specifier : String) :
    item.imports specifier = (item.specifier? == some specifier) := by
  cases item <;> simp [Item.imports, Item.specifier?, Item.import?]

theorem Item.imports_iff {item : Item} {specifier : String} :
    item.imports specifier = true ↔ item.specifier? = some specifier := by
  simp [Item.imports_eq]

theorem Item.imports_eq_false_iff {item : Item} {specifier : String} :
    item.imports specifier = false ↔ item.specifier? ≠ some specifier := by
  simp [Item.imports_eq]

/-- Which modules an item imports can be seen from the module that it imports. -/
theorem Item.imports_congr {item other : Item} (specifier : String)
    (h : item.specifier? = other.specifier?) :
    item.imports specifier = other.imports specifier := by
  rw [imports_eq, imports_eq, h]

theorem Item.isSome_import? (item : Item) : item.import?.isSome = item.specifier?.isSome := by
  simp [Item.specifier?]

/-- An import of one module is no import of another one. -/
theorem Item.imports_of_ne {item : Item} {specifier other : String} (hne : specifier ≠ other)
    (h : item.imports specifier = true) : item.imports other = false := by
  rw [Item.imports_iff] at h
  rw [Item.imports_eq_false_iff, h]
  simpa using hne

theorem Item.specifier?_of_isClass {item : Item} {name : String} (h : item.isClass name = true) :
    item.specifier? = none := by
  cases item <;> simp_all [Item.isClass, Item.class?, Item.specifier?, Item.import?]

@[simp] theorem Item.answers_imported (item : Item) (name : String) :
    item.answers ⟨.imported, name⟩ = item.imports name := by
  simp [Item.answers]

/-! ### Documents whose items change -/

namespace Document

/-- The document with another item in the place of the first one that has a property. -/
def update (document : Document) (p : Item → Bool) (item : Item) : Document :=
  { document with items := updateFirst p (fun _ => item) document.items }

theorem class?_eq_bind (document : Document) (name : String) :
    document.class? name = (firstNode (·.isClass name) document.items).bind (·.class?) := by
  simp only [class?, classes, firstNode, List.find?_filterMap, List.find?_map, Option.bind_map,
    Function.comp_def, Item.isClass]

theorem import?_eq_bind (document : Document) (specifier : String) :
    document.import? specifier =
      (firstNode (·.imports specifier) document.items).bind (·.import?) := by
  simp only [import?, imports, firstNode, List.find?_filterMap, List.find?_map, Option.bind_map,
    Function.comp_def, Item.imports]

/-- The first class of a name is an item. -/
theorem firstNode_of_class? {document : Document} {name : String} {declaration : ClassDeclaration}
    (h : document.class? name = some declaration) :
    firstNode (·.isClass name) document.items = some (.classlike declaration) ∧
      declaration.name = name := by
  rw [class?_eq_bind, Option.bind_eq_some_iff] at h
  obtain ⟨item, hitem, hclass⟩ := h
  have hname := (of_firstNode_eq_some hitem).1
  cases item with
  | classlike other =>
    obtain rfl := Option.some.inj hclass
    exact ⟨hitem, by simpa [Item.isClass, Item.class?] using hname⟩
  | importing _ => cases hclass
  | other _ => cases hclass

/-- The first import of a module is an item. -/
theorem firstNode_of_import? {document : Document} {specifier : String}
    {declaration : ImportDeclaration} (h : document.import? specifier = some declaration) :
    firstNode (·.imports specifier) document.items = some (.importing declaration) ∧
      declaration.specifier = specifier := by
  rw [import?_eq_bind, Option.bind_eq_some_iff] at h
  obtain ⟨item, hitem, himport⟩ := h
  have hname := (of_firstNode_eq_some hitem).1
  cases item with
  | importing other =>
    obtain rfl := Option.some.inj himport
    exact ⟨hitem, by simpa [Item.imports, Item.import?] using hname⟩
  | classlike _ => cases himport
  | other _ => cases himport

/-- One more name does not change the module of an import. -/
theorem specifier?_pushNamed {document : Document} {specifier : String}
    {declaration : ImportDeclaration} (h : document.import? specifier = some declaration)
    (name : String) : (Item.importing (declaration.pushNamed name)).specifier? = some specifier :=
  congrArg some (firstNode_of_import? h).2

theorem isSome_import?_iff {document : Document} {specifier : String} :
    (document.import? specifier).isSome = true ↔
      ∃ entry ∈ document.items, entry.node.imports specifier = true := by
  constructor
  · intro h
    obtain ⟨declaration, hdeclaration⟩ := Option.isSome_iff_exists.1 h
    obtain ⟨hfirst, -⟩ := firstNode_of_import? hdeclaration
    obtain ⟨himports, entry, hentry, hnode⟩ := of_firstNode_eq_some hfirst
    exact ⟨entry, hentry, by rw [hnode]; exact himports⟩
  · rintro ⟨entry, hentry, himports⟩
    by_contra hnone
    rw [Option.not_isSome_iff_eq_none, import?_eq_bind, Option.bind_eq_none_iff] at hnone
    cases hfirst : firstNode (·.imports specifier) document.items with
    | none =>
      rw [firstNode_eq_none_iff.1 hfirst entry hentry] at himports
      cases himports
    | some item =>
      have hitem := (of_firstNode_eq_some hfirst).1
      have hnot := hnone item hfirst
      cases item <;> simp_all [Item.imports, Item.import?]

end Document

/-! ### Where an import is put -/

theorem lastIndex?_map {γ δ : Type} (p : δ → Bool) (f : γ → δ) (l : List γ) :
    lastIndex? p (l.map f) = lastIndex? (fun c => p (f c)) l := by
  induction l with
  | nil => rfl
  | cons c l ih => simp [lastIndex?, ih]

theorem lastIndex?_eq_none {γ : Type} {p : γ → Bool} {l : List γ} (h : ∀ c ∈ l, p c = false) :
    lastIndex? p l = none := by
  induction l with
  | nil => rfl
  | cons c l ih => simp [lastIndex?, ih fun d hd => h d (by simp [hd]), h c (by simp)]

theorem lastIndex?_append_cons {γ : Type} {p : γ → Bool} (front : List γ) {back : List γ} {c : γ}
    (hc : p c = true) (hback : ∀ d ∈ back, p d = false) :
    lastIndex? p (front ++ c :: back) = some front.length := by
  induction front with
  | nil => simp [lastIndex?, lastIndex?_eq_none hback, hc]
  | cons d front ih => simp [lastIndex?, ih]

/-- A list has no element with a property, or a last one. -/
theorem forall_not_or_exists_last {γ : Type} (p : γ → Bool) (l : List γ) :
    (∀ c ∈ l, p c = false) ∨
      ∃ front c back, l = front ++ c :: back ∧ p c = true ∧ ∀ d ∈ back, p d = false := by
  induction l with
  | nil => exact .inl (by simp)
  | cons c l ih =>
    rcases ih with hnone | ⟨front, d, back, rfl, hd, hback⟩
    · cases hc : p c with
      | false => exact .inl (by simpa [hc] using hnone)
      | true => exact .inr ⟨[], c, l, rfl, hc, hnone⟩
    · exact .inr ⟨c :: front, d, back, rfl, hd, hback⟩

theorem resolve_append_cons {γ : Type} {p : γ → Bool} {front back : List (Entry γ)}
    {entry : Entry γ} (hfront : ∀ e ∈ front, p e.node = false) (hentry : p entry.node = true) :
    resolve p (front ++ entry :: back) = some front.length := by
  have hnone : front.findIdx? (fun e => p e.node) = none := List.findIdx?_eq_none_iff.2 hfront
  simp [resolve, List.findIdx?_append, hnone, List.findIdx?_cons, hentry]

theorem resolve_eq_none {γ : Type} {p : γ → Bool} {entries : List (Entry γ)}
    (h : ∀ e ∈ entries, p e.node = false) : resolve p entries = none :=
  List.findIdx?_eq_none_iff.2 h

theorem resolve_map {γ δ : Type} (p : δ → Bool) (view : γ → δ) (entries : List (Entry γ)) :
    resolve (fun c => p (view c)) entries = (entries.map (view ·.node)).findIdx? p := by
  simp [resolve, List.findIdx?_map, Function.comp_def]

/-- No item imports the module that a new import is to follow. -/
def Missing (after : Option String) (entries : List (Entry Item)) : Prop :=
  ∀ name, after = some name → ∀ e ∈ entries, e.node.imports name = false

/-- The places for an import, behind `front` and in front of `back`: behind the first import of the
module that it follows; if there is none, behind the last import; if there is none either, at the
start. -/
inductive Spot (after : Option String) : List (Entry Item) → List (Entry Item) → Placement → Prop
  | anchored {name : String} {front back : List (Entry Item)} {anchor : Entry Item}
      (follows : after = some name) (first : ∀ e ∈ front, e.node.imports name = false)
      (answers : anchor.node.imports name = true) :
      Spot after (front ++ [anchor]) back (.after name)
  | last {front back : List (Entry Item)} {last : Entry Item}
      (missing : Missing after (front ++ last :: back))
      (isImport : last.node.specifier?.isSome = true)
      (none_behind : ∀ e ∈ back, e.node.specifier?.isSome = false) :
      Spot after (front ++ [last]) back .atEnd
  | first {back : List (Entry Item)} (no_import : ∀ e ∈ back, e.node.specifier?.isSome = false) :
      Spot after [] back .atStart

theorem Missing.of_no_import {after : Option String} {entries : List (Entry Item)}
    (h : ∀ e ∈ entries, e.node.specifier?.isSome = false) : Missing after entries := by
  intro name _ e he
  rw [Item.imports_eq_false_iff]
  intro hname
  simpa [hname] using h e he

/-- There is a place for every import. -/
theorem exists_spot (after : Option String) (entries : List (Entry Item)) :
    ∃ front back placement, entries = front ++ back ∧ Spot after front back placement := by
  by_cases hmissing : Missing after entries
  · rcases forall_not_or_exists_last (fun e : Entry Item => e.node.specifier?.isSome) entries with
      hnone | ⟨front, last, back, rfl, hlast, hback⟩
    · exact ⟨[], entries, .atStart, rfl, .first hnone⟩
    · exact ⟨front ++ [last], back, .atEnd, by simp, .last hmissing hlast hback⟩
  · unfold Missing at hmissing
    push Not at hmissing
    obtain ⟨name, hafter, entry, hentry, himports⟩ := hmissing
    cases hfirst : entries.find? (·.node.imports name) with
    | none => exact absurd (List.find?_eq_none.1 hfirst entry hentry) (by simpa using himports)
    | some anchor =>
      obtain ⟨hanchor, front, back, rfl, hfront⟩ := List.find?_eq_some_iff_append.1 hfirst
      exact ⟨front ++ [anchor], back, .after name, by simp,
        .anchored hafter (by simpa using hfront) hanchor⟩

namespace ImportEdit

variable {edit : ImportEdit} {document : Document}

theorem place_of_missing {others : List (Entry Item)} (h : Missing edit.after others) :
    edit.place others =
      match lastIndex? (·.node.specifier?.isSome) others with
      | some last => (last + 1, .atEnd)
      | none => (0, .atStart) := by
  have hanchored : (edit.after.bind fun name =>
      (resolve (·.answers ⟨.imported, name⟩) others).map fun index =>
        (index + 1, Placement.after name)) = none := by
    rw [Option.bind_eq_none_iff]
    intro name hname
    simp [resolve_eq_none (p := (Item.imports · name)) (h name hname)]
  cases hlast : lastIndex? (fun e : Entry Item => e.node.specifier?.isSome) others with
  | none => simp only [place, hanchored, Item.isSome_import?, hlast]
  | some last => simp only [place, hanchored, Item.isSome_import?, hlast]

/-- The place that is found for an import. -/
theorem place_of_spot {front back : List (Entry Item)} {placement : Placement}
    (h : Spot edit.after front back placement) :
    edit.place (front ++ back) = (front.length, placement) := by
  cases h with
  | @anchored name front _ anchor follows first answers =>
    have hresolve : resolve (·.imports name) (front ++ anchor :: back) = some front.length :=
      resolve_append_cons (p := (Item.imports · name)) first answers
    simp [place, follows, hresolve]
  | @last front _ last missing isImport none_behind =>
    have hlast := lastIndex?_append_cons (p := fun e : Entry Item => e.node.specifier?.isSome) front
      isImport none_behind
    rw [List.append_assoc, List.singleton_append, place_of_missing missing, hlast]
    simp
  | first no_import =>
    rw [List.nil_append, place_of_missing (.of_no_import no_import), lastIndex?_eq_none no_import]
    rfl

/-- The place depends only on which modules the other items import. -/
theorem place_congr {entries others : List (Entry Item)}
    (h : entries.map (·.node.specifier?) = others.map (·.node.specifier?)) :
    edit.place entries = edit.place others := by
  have hanchor (name : String) (l : List (Entry Item)) :
      resolve (·.answers ⟨.imported, name⟩) l =
        (l.map (·.node.specifier?)).findIdx? (· == some name) := by
    rw [← resolve_map]
    simp only [Item.answers_imported, Item.imports_eq]
  have hlast (l : List (Entry Item)) :
      lastIndex? (·.node.import?.isSome) l =
        lastIndex? Option.isSome (l.map (·.node.specifier?)) := by
    rw [lastIndex?_map]
    simp only [Item.isSome_import?]
  simp only [place, hanchor, hlast, h]

/-! ### What comes of it -/

theorem others_imports (edit : ImportEdit) (document : Document) :
    ∀ e ∈ edit.others document, e.node.imports edit.declaration.specifier = false := by
  intro e he
  simpa using (List.mem_filter.1 he).2

/-- An import is put in its place among the other items. -/
theorem apply_of_spot {front back : List (Entry Item)} {placement : Placement}
    (hothers : edit.others document = front ++ back) (h : Spot edit.after front back placement) :
    edit.apply document =
      (if (edit.previous? document).isNone then .inserted placement
        else if front ++ edit.entry (edit.previous? document) :: back = document.items then
          .alreadyPresent
        else .moved placement,
       { document with items := front ++ edit.entry (edit.previous? document) :: back }) := by
  simp only [apply, hothers, place_of_spot h, insertIdx_length_append]

/-- The comments of an import that is put somewhere else stay with it. -/
@[simp] theorem entry_entry (edit : ImportEdit) (previous : Option (Entry Item)) :
    edit.entry (some (edit.entry previous)) = edit.entry previous := by
  cases previous <;> rfl

@[simp] theorem node_entry (edit : ImportEdit) (previous : Option (Entry Item)) :
    (edit.entry previous).node = .importing edit.declaration := rfl

variable {p : Item → Bool} {item : Item}

theorem others_update (hview : ∀ other, p other = true → other.specifier? = item.specifier?)
    (hne : item.specifier? ≠ some edit.declaration.specifier) :
    edit.others (document.update p item) =
      updateFirst p (fun _ => item) (edit.others document) := by
  refine filter_updateFirst (k := fun other => !other.imports edit.declaration.specifier)
    (fun other hother => ?_) ?_ document.items
  · simpa [Item.imports_eq, hview other hother] using hne
  · simpa [Item.imports_eq] using hne

theorem previous?_update (hview : ∀ other, p other = true → other.specifier? = item.specifier?)
    (hne : item.specifier? ≠ some edit.declaration.specifier) :
    edit.previous? (document.update p item) = edit.previous? document := by
  obtain ⟨_, items, _⟩ := document
  simp only [previous?, Document.update]
  induction items with
  | nil => rfl
  | cons entry items ih =>
    rw [updateFirst]
    split
    · rename_i hp
      have hentry : entry.node.imports edit.declaration.specifier = false := by
        rw [Item.imports_eq_false_iff, hview _ hp]
        exact hne
      simp [hentry, Item.imports_eq_false_iff.2 hne]
    · simp only [List.find?_cons, ih]

/-- Edits of an import leave the other items as they are, whichever of them comes first. -/
theorem firstNode_apply (edit : ImportEdit) (document : Document)
    (hne : ∀ other, p other = true → other.specifier? ≠ some edit.declaration.specifier) :
    firstNode p (edit.apply document).2.items = firstNode p document.items := by
  have hnot : p (.importing edit.declaration) = false := by
    rw [Bool.eq_false_iff]
    exact fun h => hne _ h rfl
  simp only [apply]
  rw [firstNode_insertIdx hnot]
  exact firstNode_filter (k := fun other => !other.imports edit.declaration.specifier)
    (fun other hother => by simpa [Item.imports_eq] using hne other hother) document.items

/-- The imports of other modules are found as before. -/
theorem import?_apply (edit : ImportEdit) (document : Document) {specifier : String}
    (hne : edit.declaration.specifier ≠ specifier) :
    (edit.apply document).2.import? specifier = document.import? specifier := by
  rw [Document.import?_eq_bind, Document.import?_eq_bind,
    edit.firstNode_apply document fun other hother => by
      rw [Item.imports_iff.1 hother]
      simpa using hne.symm]

/-- Whether an item of another kind or module is changed before an import is put in its place, or
afterwards, is the same. -/
theorem apply_update (hitem : p item = true)
    (hview : ∀ other, p other = true → other.specifier? = item.specifier?)
    (hne : item.specifier? ≠ some edit.declaration.specifier) :
    edit.apply (document.update p item) =
      ((edit.apply document).1, (edit.apply document).2.update p item) := by
  have hne' : ∀ other, p other = true → other.specifier? ≠ some edit.declaration.specifier :=
    fun other hother => by rw [hview other hother]; exact hne
  have hnot : p (.importing edit.declaration) = false := by
    rw [Bool.eq_false_iff]
    exact fun h => hne' _ h rfl
  have hplace : edit.place (updateFirst p (fun _ => item) (edit.others document)) =
      edit.place (edit.others document) :=
    place_congr (map_updateFirst hview _)
  -- The items compare after the change as before it, because the first item to change is the same.
  have hsame := updateFirst_inj hitem (firstNode_apply edit document hne')
  simp only [apply] at hsame ⊢
  simp only [others_update hview hne, previous?_update hview hne, hplace]
  rw [← updateFirst_insertIdx (p := p)
    (show p (edit.entry (edit.previous? document)).node = false from hnot)]
  simp only [Document.update, hsame]

/-- What becomes of the import that is there already does not matter to where it is put. -/
theorem apply_update_self (hitem : item.imports edit.declaration.specifier = true) :
    (edit.apply (document.update (·.imports edit.declaration.specifier) item)).2 =
      (edit.apply document).2 := by
  have hothers : edit.others (document.update (·.imports edit.declaration.specifier) item) =
      edit.others document :=
    filter_updateFirst_of_drop (p := (Item.imports · edit.declaration.specifier))
      (k := fun other => !other.imports edit.declaration.specifier)
      (fun other hother => by simp [hother]) (by simp [hitem]) document.items
  have hentry : edit.entry
      (edit.previous? (document.update (·.imports edit.declaration.specifier) item)) =
        edit.entry (edit.previous? document) := by
    obtain ⟨_, items, _⟩ := document
    simp only [previous?, Document.update]
    clear hothers
    induction items with
    | nil => rfl
    | cons entry items ih =>
      by_cases himports : entry.node.imports edit.declaration.specifier = true
      · simp [updateFirst, himports, hitem, ImportEdit.entry]
      · simpa [updateFirst, himports] using ih
  simp only [apply, hothers, hentry]
  rfl

section

variable {specifier : String} {declaration : ImportDeclaration}

/-- A name more in the import of another module does not matter to where an import is put. -/
theorem apply_setImport_pushNamed (found : document.import? specifier = some declaration)
    (name : String) (hne : edit.declaration.specifier ≠ specifier) :
    edit.apply (document.setImport specifier (declaration.pushNamed name)) =
      ((edit.apply document).1,
        (edit.apply document).2.setImport specifier (declaration.pushNamed name)) := by
  have hpushed := Document.specifier?_pushNamed found name
  refine edit.apply_update (p := (Item.imports · specifier)) (Item.imports_iff.2 hpushed)
    (fun other hother => ?_) ?_
  · rw [hpushed, Item.imports_iff.1 hother]
  · rw [hpushed]
    simpa using hne.symm

/-- A name more in the import of its own module is gone when an import has been put in its place. -/
theorem apply_setImport_pushNamed_self
    (found : document.import? edit.declaration.specifier = some declaration) (name : String) :
    (edit.apply
      (document.setImport edit.declaration.specifier (declaration.pushNamed name))).2 =
        (edit.apply document).2 :=
  edit.apply_update_self (Item.imports_iff.2 (Document.specifier?_pushNamed found name))

end

end ImportEdit

/-! ### Names that are bound -/

namespace BindingEdit

variable {edit : BindingEdit} {document : Document}

/-- What binding a name can come to: nothing is done, or the name goes behind the others. -/
theorem apply_cases (edit : BindingEdit) (document : Document) :
    (∃ outcome : Outcome, outcome.changed = false ∧ edit.apply document = (outcome, document)) ∨
    ∃ declaration, document.import? edit.specifier = some declaration ∧
      declaration.binds edit.name = false ∧ obstacle? declaration = none ∧
      edit.apply document =
        (.inserted .atEnd,
          document.setImport edit.specifier (declaration.pushNamed edit.name)) := by
  unfold apply
  split
  · exact .inl ⟨_, rfl, rfl⟩
  · rename_i declaration hfound
    split
    · exact .inl ⟨_, rfl, rfl⟩
    · rename_i hbinds
      split
      · exact .inl ⟨_, rfl, rfl⟩
      · rename_i hpossible
        exact .inr ⟨declaration, hfound, by simpa using hbinds, hpossible, rfl⟩

/-- One more name is bound, behind the others. -/
def BindsMore (name : String) (before after : Item) : Prop :=
  ∃ declaration : ImportDeclaration, before = .importing declaration ∧
    declaration.binds name = false ∧ after = .importing (declaration.pushNamed name)

/-- Every item imports the module that it has imported before. -/
theorem map_specifier?_apply (edit : BindingEdit) (document : Document) :
    (edit.apply document).2.items.map (·.node.specifier?) =
      document.items.map (·.node.specifier?) := by
  rcases edit.apply_cases document with ⟨_, -, happly⟩ | ⟨declaration, found, -, -, happly⟩
  · rw [happly]
  · rw [happly]
    exact map_updateFirst (p := (Item.imports · edit.specifier)) (g := Item.specifier?)
      (fun other hother => by
        rw [Item.imports_iff.1 hother]
        exact (Document.specifier?_pushNamed found edit.name).symm) document.items

/-- Among the items of some modules, or of all but some, the first import of the module is the only
one that may change. -/
theorem changesFirst_apply (edit : BindingEdit) (document : Document) {k : Item → Bool}
    (hk : ∀ item other : Item, item.specifier? = other.specifier? → k item = k other) :
    ChangesFirst (·.imports edit.specifier) (BindsMore edit.name)
      (document.items.filter (k ·.node)) ((edit.apply document).2.items.filter (k ·.node)) := by
  rcases edit.apply_cases document with ⟨_, -, happly⟩ | ⟨declaration, found, unbound, -, happly⟩
  · rw [happly]
    exact .same
  · rw [happly]
    refine changesFirst_filter_updateFirst (p := (Item.imports · edit.specifier))
      (fun other hother => hk _ _ ?_) fun old hold => ⟨declaration, ?_, unbound, rfl⟩
    · rw [Item.imports_iff.1 hother, Document.specifier?_pushNamed found]
    · exact Option.some.inj (hold.symm.trans (Document.firstNode_of_import? found).1)

theorem apply_of_possible {declaration : ImportDeclaration}
    (h : document.import? edit.specifier = some declaration)
    (hbinds : declaration.binds edit.name = false) (hpossible : obstacle? declaration = none) :
    edit.apply document =
      (.inserted .atEnd, document.setImport edit.specifier (declaration.pushNamed edit.name)) := by
  simp [apply, h, hbinds, hpossible]

theorem apply_of_binds {declaration : ImportDeclaration}
    (h : document.import? edit.specifier = some declaration)
    (hbinds : declaration.binds edit.name = true) :
    edit.apply document = (.alreadyPresent, document) := by
  simp [apply, h, hbinds]

/-- The import binds the name when the name has been put behind the others. -/
theorem apply_setImport_pushNamed {declaration : ImportDeclaration}
    (found : document.import? edit.specifier = some declaration) :
    edit.apply (document.setImport edit.specifier (declaration.pushNamed edit.name)) =
      (.alreadyPresent,
        document.setImport edit.specifier (declaration.pushNamed edit.name)) := by
  have hfirst := (Document.firstNode_of_import? found).1
  have hpushed := Item.imports_iff.2 (Document.specifier?_pushNamed found edit.name)
  have hagain : (document.setImport edit.specifier
      (declaration.pushNamed edit.name)).import? edit.specifier =
        some (declaration.pushNamed edit.name) := by
    rw [Document.import?_eq_bind]
    simp only [Document.setImport]
    rw [firstNode_updateFirst (p := (Item.imports · edit.specifier)) hpushed, hfirst]
    rfl
  have hbinds : (declaration.pushNamed edit.name).binds edit.name = true := by
    simp [ImportDeclaration.binds, ImportDeclaration.pushNamed]
  exact apply_of_binds hagain hbinds

variable {p : Item → Bool} {item : Item}

/-- Whether an item that is no import of the module is changed before a name is bound, or
afterwards, is the same. -/
theorem apply_update (hitem : item.imports edit.specifier = false)
    (hp : ∀ other, p other = true → other.imports edit.specifier = false) :
    edit.apply (document.update p item) =
      ((edit.apply document).1, (edit.apply document).2.update p item) := by
  have himport : (document.update p item).import? edit.specifier =
      document.import? edit.specifier := by
    simp only [Document.import?_eq_bind, Document.update]
    rw [firstNode_updateFirst_of_apart (q := (Item.imports · edit.specifier)) hp hitem]
  simp only [apply, himport]
  split
  · rfl
  · rename_i declaration hfound
    split
    · rfl
    · split
      · rfl
      · have hpushed : p (.importing (declaration.pushNamed edit.name)) = false := by
          rw [Bool.eq_false_iff]
          intro h
          exact Item.imports_eq_false_iff.1 (hp _ h)
            (Document.specifier?_pushNamed hfound edit.name)
        simp only [Document.setImport, Document.update]
        rw [updateFirst_comm (p := p) (q := (Item.imports · edit.specifier)) hp hitem hpushed]

end BindingEdit

end CodeSplice
