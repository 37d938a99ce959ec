/-
Module: CodeSplice.Proofs.Edit.Insertion
Purpose: What becomes of the entries of a container when one of them gets another node, or when one
  more is put between them. Changes of nodes that have nothing to do with each other can be made in
  either order, and so can a change and an insertion. All other entries stay as they are, but for
  the blank line behind an insertion.
Main exports: firstNode, updateFirst_comm, updateFirst_inj, insertEntry_append, takeOver_append,
  insertEntry_comm, Gains, ChangesFirst
-/
import CodeSplice.Edit.Insertion
import Mathlib.Data.List.InsertIdx

namespace CodeSplice

variable {α β : Type} {p q : α → Bool}

/-- Inserting behind the first part of a list. -/
theorem insertIdx_length_append {γ : Type} (front back : List γ) (c : γ) :
    (front ++ back).insertIdx front.length c = front ++ c :: back := by
  induction front with
  | nil => simp
  | cons d front ih => simp [ih]

/-- A list has no element with a property, or a first one. -/
theorem forall_not_or_exists_first {γ : Type} (p : γ → Bool) (l : List γ) :
    (∀ c ∈ l, p c = false) ∨
      ∃ front c back, l = front ++ c :: back ∧ (∀ d ∈ front, p d = false) ∧ p c = true := by
  cases hfirst : l.find? p with
  | none => exact .inl (by simpa using hfirst)
  | some c =>
    obtain ⟨hc, front, back, hl, hfront⟩ := List.find?_eq_some_iff_append.1 hfirst
    exact .inr ⟨front, c, back, hl, by simpa using hfront, hc⟩

/-! ### The first node that has a property -/

/-- The first node that has a property. -/
def firstNode (p : α → Bool) (entries : List (Entry α)) : Option α :=
  (entries.map (·.node)).find? p

@[simp] theorem firstNode_nil : firstNode p [] = none := rfl

theorem firstNode_cons (entry : Entry α) (entries : List (Entry α)) :
    firstNode p (entry :: entries) =
      if p entry.node then some entry.node else firstNode p entries := by
  simp only [firstNode, List.map_cons, List.find?_cons]
  split <;> simp_all

theorem firstNode_eq_none_iff {entries : List (Entry α)} :
    firstNode p entries = none ↔ ∀ entry ∈ entries, p entry.node = false := by
  simp [firstNode]

theorem of_firstNode_eq_some {a : α} {entries : List (Entry α)} (h : firstNode p entries = some a) :
    p a = true ∧ ∃ entry ∈ entries, entry.node = a :=
  ⟨List.find?_some h, List.mem_map.1 (List.mem_of_find?_eq_some h)⟩

theorem firstNode_append_cons {front back : List (Entry α)} {entry : Entry α}
    (hfront : ∀ e ∈ front, p e.node = false) (hentry : p entry.node = true) :
    firstNode p (front ++ entry :: back) = some entry.node := by
  induction front with
  | nil => simp [firstNode_cons, hentry]
  | cons first front ih =>
    rw [List.cons_append, firstNode_cons, hfront first (by simp),
      ih fun e he => hfront e (by simp [he])]
    simp

/-- What is filtered out does not count if it lacks the property. -/
theorem firstNode_filter {k : α → Bool} (h : ∀ a, p a = true → k a = true)
    (entries : List (Entry α)) :
    firstNode p (entries.filter (k ·.node)) = firstNode p entries := by
  induction entries with
  | nil => rfl
  | cons entry entries ih =>
    simp only [List.filter_cons, firstNode_cons]
    split
    · rw [firstNode_cons, ih]
    · rename_i hkeep
      have hp : p entry.node = false := by
        rw [Bool.eq_false_iff]
        exact fun hp => hkeep (h _ hp)
      simp [hp, ih]

/-- An entry without the property can be inserted anywhere. -/
theorem firstNode_insertIdx {entry : Entry α} (h : p entry.node = false) (index : Nat)
    (entries : List (Entry α)) :
    firstNode p (entries.insertIdx index entry) = firstNode p entries := by
  induction entries generalizing index with
  | nil => cases index <;> simp [firstNode_cons, h]
  | cons other entries ih => cases index <;> simp [firstNode_cons, h, ih]

/-! ### Another node in the place of the first one -/

/-- Where the first node with a property stands. Another node in its place changes nothing around
it. -/
theorem exists_split_of_firstNode {a : α} {entries : List (Entry α)}
    (h : firstNode p entries = some a) :
    ∃ front entry back, entries = front ++ entry :: back ∧ (∀ e ∈ front, p e.node = false) ∧
      entry.node = a ∧
      ∀ b, updateFirst p (fun _ => b) entries = front ++ { entry with node := b } :: back := by
  induction entries with
  | nil => cases h
  | cons first entries ih =>
    rw [firstNode_cons] at h
    cases hp : p first.node with
    | true =>
      rw [if_pos hp, Option.some.injEq] at h
      exact ⟨[], first, entries, rfl, by simp, h, fun b => by simp [updateFirst, hp]⟩
    | false =>
      rw [if_neg (by simp [hp])] at h
      obtain ⟨front, entry, back, rfl, hfront, hentry, hupdate⟩ := ih h
      refine ⟨first :: front, entry, back, rfl, ?_, hentry, fun b => ?_⟩
      · simpa [hp] using hfront
      · simp [updateFirst, hp, hupdate]

theorem updateFirst_of_firstNode_eq_none {f : α → α} {entries : List (Entry α)}
    (h : firstNode p entries = none) : updateFirst p f entries = entries := by
  induction entries with
  | nil => rfl
  | cons entry entries ih =>
    have hp := firstNode_eq_none_iff.1 h
    rw [updateFirst, hp entry (by simp),
      ih (firstNode_eq_none_iff.2 fun e he => hp e (by simp [he]))]
    simp

/-- The node that is there already changes nothing. -/
theorem updateFirst_of_firstNode_eq_some {a : α} {entries : List (Entry α)}
    (h : firstNode p entries = some a) : updateFirst p (fun _ => a) entries = entries := by
  induction entries with
  | nil => simp at h
  | cons entry entries ih =>
    rw [firstNode_cons] at h
    rw [updateFirst]
    split
    · rename_i hp
      rw [if_pos hp] at h
      rw [← Option.some.inj h]
    · rename_i hp
      rw [if_neg hp] at h
      rw [ih h]

theorem firstNode_updateFirst {a : α} (ha : p a = true) (entries : List (Entry α)) :
    firstNode p (updateFirst p (fun _ => a) entries) = (firstNode p entries).map fun _ => a := by
  induction entries with
  | nil => rfl
  | cons entry entries ih =>
    rw [updateFirst]
    split <;> simp_all [firstNode_cons]

/-- A change of a node is not seen by a property that neither the old node nor the new one has. -/
theorem firstNode_updateFirst_of_apart {a : α} (hq : ∀ b, p b = true → q b = false)
    (ha : q a = false) (entries : List (Entry α)) :
    firstNode q (updateFirst p (fun _ => a) entries) = firstNode q entries := by
  induction entries with
  | nil => rfl
  | cons entry entries ih =>
    rw [updateFirst]
    split
    · rename_i hp
      simp [firstNode_cons, ha, hq _ hp]
    · simp [firstNode_cons, ih]

/-- Of two changes of the same node, the second counts. -/
theorem updateFirst_updateFirst {a b : α} (ha : p a = true) (entries : List (Entry α)) :
    updateFirst p (fun _ => b) (updateFirst p (fun _ => a) entries) =
      updateFirst p (fun _ => b) entries := by
  induction entries with
  | nil => rfl
  | cons entry entries ih =>
    by_cases hp : p entry.node = true <;> simp [updateFirst, hp, ha, ih]

/-- Changes of two nodes that have nothing to do with each other can be made in either order. -/
theorem updateFirst_comm {a b : α} (hpq : ∀ c, p c = true → q c = false) (ha : q a = false)
    (hb : p b = false) (entries : List (Entry α)) :
    updateFirst p (fun _ => a) (updateFirst q (fun _ => b) entries) =
      updateFirst q (fun _ => b) (updateFirst p (fun _ => a) entries) := by
  induction entries with
  | nil => rfl
  | cons entry entries ih =>
    by_cases hp : p entry.node = true
    · simp [updateFirst, hp, hpq _ hp, ha]
    · by_cases hq : q entry.node = true <;> simp [updateFirst, hp, hq, hb, ih]

/-- Entries that have the same first node to change are the same if they are the same afterwards. -/
theorem updateFirst_inj {a : α} (ha : p a = true) {entries others : List (Entry α)}
    (h : firstNode p entries = firstNode p others) :
    updateFirst p (fun _ => a) entries = updateFirst p (fun _ => a) others ↔ entries = others := by
  refine ⟨fun heq => ?_, fun heq => by rw [heq]⟩
  cases hfirst : firstNode p entries with
  | none => rwa [updateFirst_of_firstNode_eq_none hfirst,
      updateFirst_of_firstNode_eq_none (h ▸ hfirst)] at heq
  | some old =>
    -- Putting the old node back undoes the change.
    have hback := congrArg (updateFirst p fun _ => old) heq
    rwa [updateFirst_updateFirst ha, updateFirst_updateFirst ha,
      updateFirst_of_firstNode_eq_some hfirst,
      updateFirst_of_firstNode_eq_some (h ▸ hfirst)] at hback

theorem updateFirst_insertIdx {f : α → α} {entry : Entry α} (h : p entry.node = false)
    (index : Nat) (entries : List (Entry α)) :
    updateFirst p f (entries.insertIdx index entry) =
      (updateFirst p f entries).insertIdx index entry := by
  induction entries generalizing index with
  | nil => cases index <;> simp [updateFirst, h]
  | cons other entries ih =>
    cases index with
    | zero => simp [updateFirst, h]
    | succ index =>
      by_cases hp : p other.node = true <;> simp [updateFirst, hp, ih]

/-- A change among entries that a filter keeps. -/
theorem filter_updateFirst {k : α → Bool} {a : α} (h : ∀ b, p b = true → k b = true)
    (ha : k a = true) (entries : List (Entry α)) :
    (updateFirst p (fun _ => a) entries).filter (k ·.node) =
      updateFirst p (fun _ => a) (entries.filter (k ·.node)) := by
  induction entries with
  | nil => rfl
  | cons entry entries ih =>
    by_cases hp : p entry.node = true
    · simp [updateFirst, hp, h _ hp, ha]
    · by_cases hkeep : k entry.node = true <;> simp [updateFirst, hp, hkeep, ih]

/-- A change among entries that a filter takes away. -/
theorem filter_updateFirst_of_drop {k : α → Bool} {a : α} (h : ∀ b, p b = true → k b = false)
    (ha : k a = false) (entries : List (Entry α)) :
    (updateFirst p (fun _ => a) entries).filter (k ·.node) = entries.filter (k ·.node) := by
  induction entries with
  | nil => rfl
  | cons entry entries ih =>
    by_cases hp : p entry.node = true
    · simp [updateFirst, hp, h _ hp, ha]
    · by_cases hkeep : k entry.node = true <;> simp [updateFirst, hp, hkeep, ih]

/-- A change that a view of the nodes does not see. -/
theorem map_updateFirst {g : α → β} {a : α} (h : ∀ b, p b = true → g b = g a)
    (entries : List (Entry α)) :
    (updateFirst p (fun _ => a) entries).map (g ·.node) = entries.map (g ·.node) := by
  induction entries with
  | nil => rfl
  | cons entry entries ih =>
    by_cases hp : p entry.node = true <;> simp [updateFirst, hp, ih]
    exact (h _ hp).symm

/-! ### One more entry -/

@[simp] theorem node_setLeadingBlank (entry : Entry α) (blank : Bool) :
    (entry.setLeadingBlank blank).node = entry.node := by
  unfold Entry.setLeadingBlank
  split <;> rfl

/-- Inserting behind the first part of the entries; without a first part, the entry that is
displaced is set off by a blank line. -/
theorem insertEntry_append (front back : List (Entry α)) (entry : Entry α) :
    insertEntry (front ++ back) front.length entry =
      front ++ entry ::
        (if front.isEmpty then back.modifyHead (·.setLeadingBlank true) else back) := by
  cases front with
  | nil => cases back <;> rfl
  | cons first front => simp [insertEntry, insertIdx_length_append]

/-- An entry that takes over the place of another one also takes over the blank line in front of it. -/
theorem takeOver_append (front back : List (Entry α)) (successor entry : Entry α) :
    takeOver entry front.length (front ++ successor :: back) =
      front ++ { entry with blankBefore := successor.leadingBlank } ::
        successor.setLeadingBlank false :: back := by
  induction front with
  | nil => rfl
  | cons first front ih =>
    simp only [List.length_cons, List.cons_append, takeOver, ih]

/-- The nodes of entries with one more inserted. -/
theorem map_node_insertEntry (entries : List (Entry α)) (index : Nat) (entry : Entry α) :
    (insertEntry entries index entry).map (·.node) =
      (entries.map (·.node)).insertIdx index entry.node := by
  cases index with
  | zero => cases entries <;> simp [insertEntry]
  | succ index => simp [insertEntry, List.map_insertIdx]

theorem updateFirst_insertEntry {f : α → α} {entry : Entry α} (h : p entry.node = false)
    (index : Nat) (entries : List (Entry α)) :
    updateFirst p f (insertEntry entries index entry) =
      insertEntry (updateFirst p f entries) index entry := by
  cases index with
  | zero =>
    cases entries with
    | nil => simp [insertEntry, updateFirst, h]
    | cons first entries =>
      by_cases hp : p first.node = true
      · simp only [insertEntry, updateFirst, h, hp, node_setLeadingBlank, if_true]
        unfold Entry.setLeadingBlank
        cases first.comments <;> simp
      · simp [insertEntry, updateFirst, h, hp]
  | succ index =>
    simpa [insertEntry] using updateFirst_insertIdx h (index + 1) entries

/-- Two insertions can be made in either order, if the entry that goes to the later place would be
set off by a blank line anyway. -/
theorem insertEntry_comm (first : Entry α) {second : Entry α}
    (hsecond : second.setLeadingBlank true = second)
    {entries : List (Entry α)} {i j : Nat} (hij : i ≤ j) (hj : j ≤ entries.length) :
    insertEntry (insertEntry entries j second) i first =
      insertEntry (insertEntry entries i first) (j + 1) second := by
  cases i with
  | succ i =>
    obtain ⟨j, rfl⟩ : ∃ k, j = k + 1 := ⟨j - 1, by omega⟩
    simp only [insertEntry]
    exact (List.insertIdx_comm first second hij hj).symm
  | zero =>
    cases entries with
    | nil =>
      obtain rfl : j = 0 := by simpa using hj
      simp [insertEntry, hsecond]
    | cons entry entries => cases j <;> simp [insertEntry, hsecond]

/-! ### What stays -/

section

variable {node : α} {R : α → α → Prop} {entries after : List (Entry α)}

/-- A node joins entries. It has nothing around it but perhaps a blank line in front, and the entry
behind it may get a blank line or lose the one that it has. -/
inductive Gains (node : α) : List (Entry α) → List (Entry α) → Prop
  | between {front back : List (Entry α)} (blank : Bool) :
      Gains node (front ++ back) (front ++ { blankBefore := blank, node } :: back)
  | before {front back : List (Entry α)} {next : Entry α} (blank blank' : Bool) :
      Gains node (front ++ next :: back)
        (front ++ { blankBefore := blank, node } :: next.setLeadingBlank blank' :: back)

theorem Gains.cons (entry : Entry α) (h : Gains node entries after) :
    Gains node (entry :: entries) (entry :: after) := by
  cases h with
  | @between front back blank => exact @between _ node (entry :: front) back blank
  | @before front back next blank blank' =>
    exact @before _ node (entry :: front) back next blank blank'

theorem Gains.exists_mem (h : Gains node entries after) : ∃ entry ∈ after, entry.node = node := by
  cases h with
  | between => exact ⟨_, List.mem_append_right _ List.mem_cons_self, rfl⟩
  | before => exact ⟨_, List.mem_append_right _ List.mem_cons_self, rfl⟩

theorem exists_append_of_le_length {index : Nat} (h : index ≤ entries.length) :
    ∃ front back, entries = front ++ back ∧ index = front.length :=
  ⟨entries.take index, entries.drop index, by simp, by simp [h]⟩

theorem gains_insertIdx {index : Nat} (h : index ≤ entries.length) (blank : Bool) :
    Gains node entries (entries.insertIdx index { blankBefore := blank, node }) := by
  obtain ⟨front, back, rfl, rfl⟩ := exists_append_of_le_length h
  rw [insertIdx_length_append]
  exact .between blank

theorem gains_insertEntry {index : Nat} (h : index ≤ entries.length) (blank : Bool) :
    Gains node entries (insertEntry entries index { blankBefore := blank, node }) := by
  obtain ⟨front, back, rfl, rfl⟩ := exists_append_of_le_length h
  rw [insertEntry_append]
  cases front with
  | cons first front => exact .between blank
  | nil =>
    cases back with
    | nil => exact @Gains.between _ node [] [] blank
    | cons next back => exact @Gains.before _ node [] back next blank true

theorem gains_takeOver (index : Nat) (entries : List (Entry α)) :
    Gains node entries (takeOver { node } index entries) := by
  induction entries generalizing index with
  | nil =>
    rw [takeOver]
    exact @Gains.between _ node [] [] false
  | cons entry entries ih =>
    cases index with
    | zero => exact @Gains.before _ node [] entries entry entry.leadingBlank false
    | succ index => exact (ih index).cons entry

/-- Nothing changes, or the first node that has a property becomes another one. -/
inductive ChangesFirst (p : α → Bool) (R : α → α → Prop) :
    List (Entry α) → List (Entry α) → Prop
  | same {entries : List (Entry α)} : ChangesFirst p R entries entries
  | changed {front back : List (Entry α)} {entry : Entry α} {node : α}
      (first : ∀ e ∈ front, p e.node = false) (has : p entry.node = true)
      (related : R entry.node node) :
      ChangesFirst p R (front ++ entry :: back) (front ++ { entry with node } :: back)

theorem changesFirst_updateFirst {a : α} (h : ∀ old, firstNode p entries = some old → R old a) :
    ChangesFirst p R entries (updateFirst p (fun _ => a) entries) := by
  cases hfirst : firstNode p entries with
  | none =>
    rw [updateFirst_of_firstNode_eq_none hfirst]
    exact .same
  | some old =>
    obtain ⟨front, entry, back, rfl, hfront, rfl, hupdate⟩ := exists_split_of_firstNode hfirst
    rw [hupdate]
    exact .changed hfront (of_firstNode_eq_some hfirst).1 (h _ hfirst)

/-- A change is seen among the entries that a filter keeps, if it keeps the node or takes it away
before the change as afterwards. -/
theorem changesFirst_filter_updateFirst {k : α → Bool} {a : α} (hk : ∀ b, p b = true → k b = k a)
    (h : ∀ old, firstNode p entries = some old → R old a) :
    ChangesFirst p R (entries.filter (k ·.node))
      ((updateFirst p (fun _ => a) entries).filter (k ·.node)) := by
  cases ha : k a with
  | true =>
    rw [ha] at hk
    rw [filter_updateFirst hk ha]
    exact changesFirst_updateFirst fun old hold => h old (by rwa [firstNode_filter hk] at hold)
  | false =>
    rw [ha] at hk
    rw [filter_updateFirst_of_drop hk ha]
    exact .same

end

end CodeSplice
