/-
Module: CodeSplice.Proofs.Edit.Lines
Purpose: What an edit of a class does to the rendered text. It inserts the lines of the new node, with at
  most one empty line, and all other lines of the file stay as they are, in their order. This holds if
  the class has members, the constructor to which a statement is added has statements, and none of
  these is empty.
Main exports: Edit.nodeText, MethodEdit.Joins.enters, CallEdit.Arises.enters, CallEdit.Joins.enters,
  Edit.inserts_lines
-/
import CodeSplice.Proofs.Document.Seam
import CodeSplice.Proofs.Edit.Call
import CodeSplice.Proofs.Edit.Method

namespace CodeSplice

open Layout

/-! ### Where the node gets -/

theorem Enters.atEnd {α : Type} {node : α} {entries : List (Entry α)} (blankBefore : Bool)
    (nonempty : entries ≠ []) :
    Enters node entries (entries ++ [{ blankBefore := blankBefore, node := node }]) := by
  have h := @Enters.behind α node entries [] blankBefore nonempty
  rwa [List.append_nil] at h

theorem MethodEdit.Joins.enters {edit : MethodEdit} {members members' : List (Entry Member)}
    {placement : Placement} (h : edit.Joins members members' placement) (hne : members ≠ []) :
    Enters (.method edit.draft.toMethod) members members' := by
  cases h with
  | atTop => exact .atTop true
  | between _ behind => exact .behind true behind
  | atEnd => exact .atEnd true hne

theorem CallEdit.Arises.enters {edit : CallEdit} {members members' : List (Entry Member)}
    (h : edit.Arises members members') (hne : members ≠ []) :
    Enters (.constructor edit.draft.toConstructor) members members' := by
  cases h with
  | atTop => exact .atTop true
  | between behind => exact .behind true behind
  | atEnd => exact .atEnd true hne

theorem CallEdit.Joins.enters {edit : CallEdit} {statements statements' : List (Entry Statement)}
    {placement : Placement} (h : edit.Joins statements statements' placement)
    (hne : statements ≠ []) : Enters edit.draft.toStatement statements statements' := by
  cases h with
  | before => exact .inPlace
  | @after name front back anchor =>
    have hbehind : Enters edit.draft.toStatement ((front ++ [anchor]) ++ back)
        ((front ++ [anchor]) ++ edit.statement :: back) := .behind false (by simp)
    simpa using hbehind
  | atEnd => exact .atEnd false hne

/-! ### What is written of it -/

/-- What an edit of a class writes into the text: a member of the class, or a statement of its
constructor. -/
def Edit.nodeText (style : Style) (placement : Placement) : Edit → String
  | addMethod edit => (edit.draft.toMethod.render { indent := style.indent, level := 1 }).text
  | addCall edit =>
    match placement with
    | .newConstructor =>
      (edit.draft.toConstructor.render { indent := style.indent, level := 1 }).text
    | _ => (edit.draft.toStatement.text.render { indent := style.indent, level := 2 }).text
  | _ => ""

theorem CallEdit.Joins.nodeText_eq {edit : CallEdit} {statements statements' : List (Entry Statement)}
    {placement : Placement} (h : edit.Joins statements statements' placement) (style : Style) :
    (Edit.addCall edit).nodeText style placement =
      (edit.draft.toStatement.text.render { indent := style.indent, level := 2 }).text := by
  cases h <;> rfl

theorem CallDraft.isEmpty_toStatement (draft : CallDraft) :
    draft.toStatement.text.isEmpty = false := by
  refine isEmpty_ofText (c := 't') ?_ (by decide)
  simp [toSource]

theorem CallDraft.regular_toConstructor (draft : CallDraft) :
    (Member.constructor draft.toConstructor).Regular := by
  intro e he
  rw [List.mem_singleton.1 he]
  exact draft.isEmpty_toStatement

/-! ### In the text -/

variable {document after : Document} {target : String} {declaration changed : ClassDeclaration}
  {text : String}

/-- Another class in the place of the first one of its name, whose rendering gains rows. -/
theorem Document.gainsLines_setClass (hclass : document.class? target = some declaration)
    {style : Style}
    (h : ∀ v, v.fresh = { indent := style.indent } →
      Wedged Closed text (declaration.render v) (changed.render v)) (htext : Closed text) :
    GainsLines (document.render style) ((document.setClass target changed).render style) text := by
  obtain ⟨front, entry, back, hitems, -, hentry, hupdate⟩ :=
    exists_split_of_firstNode (Document.firstNode_of_class? hclass).1
  rw [Document.setClass, hupdate]
  exact Document.gainsLines_of_class hitems hentry h htext

/-- Another constructor in the place of the first one of a class, whose rendering gains rows. -/
theorem ClassDeclaration.wedged_setConstructor {constructor other : Constructor} {w : Writer}
    (hconstructor : declaration.constructor? = some constructor)
    (h : ∀ v, v.fresh = w.fresh.deeper →
      Wedged Closed text (constructor.render v) (other.render v)) :
    Wedged Closed text (declaration.render w) ((declaration.setConstructor other).render w) := by
  obtain ⟨above, entry, below, hmembers, -, hentry, hupdate⟩ :=
    exists_split_of_firstNode (declaration.firstNode_of_constructor? hconstructor)
  rw [ClassDeclaration.setConstructor, hupdate]
  exact wedged_render_of_constructor hmembers hentry h

theorem ClassDeclaration.regular_of_constructor? {constructor : Constructor}
    (h : declaration.constructor? = some constructor)
    (hregular : ∀ e ∈ declaration.members, e.node.Regular) :
    (Member.constructor constructor).Regular := by
  obtain ⟨above, entry, below, hmembers, -, hentry, -⟩ :=
    exists_split_of_firstNode (declaration.firstNode_of_constructor? h)
  rw [← hentry]
  exact hregular entry (by simp [hmembers])

variable {style : Style} (hne : declaration.members ≠ [])
  (hregular : ∀ e ∈ declaration.members, e.node.Regular)
include hne hregular

theorem MethodEdit.wedged_apply {edit : MethodEdit} {placement : Placement}
    (h : edit.apply declaration = (.inserted placement, changed)) (w : Writer)
    (hw : w.fresh = { indent := style.indent }) :
    Wedged Closed ((Edit.addMethod edit).nodeText style placement) (declaration.render w)
      (changed.render w) := by
  cases hmethod : (declaration.method? edit.draft.name).isSome with
  | true =>
    rw [edit.apply_of_isSome declaration hmethod] at h
    cases h
  | false =>
    rw [edit.apply_of_isNone declaration hmethod] at h
    obtain ⟨-, rfl⟩ := Prod.mk.inj h
    have henters := (edit.joins_insertEntry declaration).enters hne
    have hwedged := ClassDeclaration.wedged_render_of_enters henters trivial hregular w
    rwa [hw] at hwedged

theorem CallEdit.wedged_apply {edit : CallEdit} {placement : Placement}
    (hstatements : ∀ constructor, declaration.constructor? = some constructor →
      constructor.statements ≠ [])
    (h : edit.apply declaration = (.inserted placement, changed)) (w : Writer)
    (hw : w.fresh = { indent := style.indent }) :
    Wedged Closed ((Edit.addCall edit).nodeText style placement) (declaration.render w)
      (changed.render w) := by
  cases hconstructor : declaration.constructor? with
  | none =>
    rw [edit.apply_of_constructor?_eq_none declaration hconstructor] at h
    obtain ⟨members, hadd, harises⟩ := edit.exists_arises declaration
    obtain ⟨houtcome, rfl⟩ := Prod.mk.inj h
    obtain rfl := Outcome.inserted.inj houtcome
    have hwedged := ClassDeclaration.wedged_render_of_enters (harises.enters hne)
      edit.draft.regular_toConstructor hregular w
    rw [hadd]
    rwa [hw] at hwedged
  | some constructor =>
    cases hcalls : constructor.calls edit.draft.method with
    | true =>
      rw [edit.apply_of_calls declaration hconstructor hcalls] at h
      cases h
    | false =>
      obtain ⟨statements, place, hadd, hjoins⟩ := edit.exists_joins constructor
      rw [edit.apply_of_not_calls declaration hconstructor hcalls, hadd] at h
      obtain ⟨houtcome, rfl⟩ := Prod.mk.inj h
      obtain rfl := Outcome.inserted.inj houtcome
      refine ClassDeclaration.wedged_setConstructor hconstructor fun v hv => ?_
      have hwedged := Constructor.wedged_render (hjoins.enters (hstatements constructor hconstructor))
        edit.draft.isEmpty_toStatement
        (ClassDeclaration.regular_of_constructor? hconstructor hregular) v
      rw [hv, hw] at hwedged
      rwa [hjoins.nodeText_eq]

omit hne hregular

/-- What an edit of a class writes ends with a finished row. -/
theorem Edit.closed_nodeText {edit : Edit} (hkind : edit.kind ≠ .imports) (style : Style)
    (placement : Placement) : Closed (edit.nodeText style placement) := by
  have hreaches {step : Writer → Writer} (hstep : Local (fun _ => True) Closed step) (w : Writer) :
      Closed (step w).text := hstep.reaches w trivial
  cases edit with
  | placeImport _ => exact absurd rfl hkind
  | bindName _ => exact absurd rfl hkind
  | addMethod edit => exact hreaches edit.draft.toMethod.local_render _
  | addCall edit =>
    have hstatement := hreaches (Block.local_render_of_isEmpty edit.draft.isEmpty_toStatement)
    cases placement with
    | newConstructor => exact hreaches edit.draft.toConstructor.local_render _
    | _ => exact hstatement _

/-- An edit that inserts something into a class with members, none of which is empty, inserts lines into
the text: those of the new node, and at most one empty line with them. All other lines stay. A
constructor to which a statement is added has to have statements. -/
theorem Edit.inserts_lines {edit : Edit} {placement : Placement} (style : Style)
    (h : edit.apply document target = .ok (.inserted placement, after))
    (hkind : edit.kind ≠ .imports) (hclass : document.class? target = some declaration)
    (hne : declaration.members ≠ []) (hregular : ∀ e ∈ declaration.members, e.node.Regular)
    (hstatements : edit.kind = .constructor → ∀ constructor,
      declaration.constructor? = some constructor → constructor.statements ≠ []) :
    GainsLines (document.render style) (after.render style) (edit.nodeText style placement) := by
  have htext := edit.closed_nodeText hkind style placement
  cases edit with
  | placeImport _ => exact absurd rfl hkind
  | bindName _ => exact absurd rfl hkind
  | addMethod edit =>
    obtain ⟨found, hfound, houtcome, rfl⟩ := applyToClass_eq_ok_iff.1 h
    obtain rfl := Option.some.inj (hclass.symm.trans hfound)
    refine Document.gainsLines_setClass hclass (fun v hv => ?_) htext
    exact MethodEdit.wedged_apply hne hregular (Prod.ext houtcome rfl) v hv
  | addCall edit =>
    obtain ⟨found, hfound, houtcome, rfl⟩ := applyToClass_eq_ok_iff.1 h
    obtain rfl := Option.some.inj (hclass.symm.trans hfound)
    refine Document.gainsLines_setClass hclass (fun v hv => ?_) htext
    exact CallEdit.wedged_apply hne hregular (hstatements rfl) (Prod.ext houtcome rfl) v hv

/-- In the server class, a call that takes the place of a statement below a comment and a blank line
inserts lines. -/
theorem Edit.inserts_lines_serverDocument :
    let edit := Edit.addCall { draft := { method := "docs" }, before := some "errors" }
    ∃ after, edit.apply CallEdit.serverDocument "App" = .ok (.inserted (.before "errors"), after) ∧
      GainsLines (CallEdit.serverDocument.render {}) (after.render {})
        (edit.nodeText {} (.before "errors")) := by
  intro edit
  have h : edit.apply CallEdit.serverDocument "App" = .ok (.inserted (.before "errors"), _) := rfl
  have hclass : CallEdit.serverDocument.class? "App" = some CallEdit.serverClass := rfl
  refine ⟨_, h, inserts_lines {} h (by decide) hclass (by decide) (by decide +kernel) ?_⟩
  intro _ constructor hconstructor
  rw [← Option.some.inj hconstructor]
  decide

end CodeSplice
