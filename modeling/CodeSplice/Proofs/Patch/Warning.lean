/-
Module: CodeSplice.Proofs.Patch.Warning
Purpose: Which reports are warnings. The report of an edit compares where the node went with where the
  edit would have put it at its first anchor, after the fact. This tells whether the anchor was found:
  a phase warns of an edit exactly if the edit was skipped, or has changed the document although its
  first anchor is not there.
Main exports: Edit.anchor?, Edit.Warns, Diagnostic.isWarning_ofEdit_iff, Reported, Phase.run_reported
-/
import CodeSplice.Proofs.Edit.Tiers
import CodeSplice.Proofs.Patch.Progress

namespace CodeSplice

/-! ### The first anchor of an edit -/

namespace Edit

/-- The anchor that an edit names first, if it names one. -/
def anchor? : Edit → Option Anchor
  | placeImport edit => edit.after.map fun name => ⟨.imported, name⟩
  | bindName _ => none
  | addMethod edit => edit.before.map fun name => ⟨.method, name⟩
  | addCall edit => (edit.before <|> edit.after).map fun name => ⟨.call, name⟩

/-- What should warn: an edit that was skipped, or that has put its node somewhere although its first
anchor is not to be found in the document. -/
def Warns (edit : Edit) (document : Document) (target : String) (outcome : Outcome) : Prop :=
  (∃ reason, outcome = .skipped reason) ∨
    outcome.changed = true ∧ ∃ anchor, edit.anchor? = some anchor ∧
      edit.finds document target anchor = false

/-- How the choices of an edit begin: it names no anchor, or the first choice is the place at its
anchor. That place alone gives the placement that the edit is expected to have. -/
inductive Leads (edit : Edit) : Prop
  | unanchored (anchor : edit.anchor? = none) (preferred : edit.preferred? = none)
  | anchored {anchor : Anchor} {wanted : Placement} {tier : Tier} {rest : List Tier}
      (anchor_eq : edit.anchor? = some anchor) (preferred : edit.preferred? = some wanted)
      (choices : edit.choices = tier :: rest)
      (here : ∀ document target, tier.placement? edit document target =
        if edit.finds document target anchor then some wanted else none)
      (elsewhere : ∀ document target, ∀ other ∈ rest,
        other.placement? edit document target ≠ some wanted)

/-- The end of a constructor is not a place at an anchor. -/
theorem placement?_endOfConstructor_ne (edit : Edit) (document : Document) (target : String)
    {wanted : Placement} (hend : wanted ≠ .atEnd) (hnew : wanted ≠ .newConstructor) :
    Tier.endOfConstructor.placement? edit document target ≠ some wanted := by
  simp only [Tier.placement?]
  split
  · exact fun h => hend (Option.some.inj h).symm
  · exact fun h => hnew (Option.some.inj h).symm

theorem leads (edit : Edit) : edit.Leads := by
  cases edit with
  | bindName _ => exact .unanchored rfl rfl
  | placeImport edit =>
    obtain ⟨declaration, _ | name⟩ := edit
    · exact .unanchored rfl rfl
    · exact .anchored rfl rfl rfl (fun _ _ => rfl) fun _ _ => by simp [Tier.placement?]
  | addMethod edit =>
    obtain ⟨draft, _ | name⟩ := edit
    · exact .unanchored rfl rfl
    · exact .anchored rfl rfl rfl (fun _ _ => rfl) fun _ _ => by simp [Tier.placement?]
  | addCall edit =>
    obtain ⟨draft, _ | name, after⟩ := edit
    · cases after with
      | none => exact .unanchored rfl rfl
      | some name =>
        refine .anchored rfl rfl rfl (fun _ _ => rfl) fun document target other hother => ?_
        rw [List.mem_singleton.1 hother]
        exact placement?_endOfConstructor_ne _ document target (by simp) (by simp)
    · refine .anchored rfl rfl rfl (fun _ _ => rfl) fun document target => ?_
      have hend : Tier.endOfConstructor.placement? (addCall ⟨draft, some name, after⟩) document
          target ≠ some (.before name) := placement?_endOfConstructor_ne _ _ _ (by simp) (by simp)
      cases after <;> simpa [Tier.placement?] using hend

variable {edit : Edit} {document after : Document} {target : String} {outcome : Outcome}
  {placement : Placement}

/-- An edit that puts its node elsewhere than at its first anchor has not found that anchor. -/
theorem preferred?_ne_iff (h : edit.apply document target = .ok (outcome, after))
    (hplaced : outcome.placement? = some placement) :
    (∃ wanted, edit.preferred? = some wanted ∧ wanted ≠ placement) ↔
      ∃ anchor, edit.anchor? = some anchor ∧ edit.finds document target anchor = false := by
  have hfirst := findSome?_choices h hplaced
  cases edit.leads with
  | unanchored hanchor hpreferred => simp [hanchor, hpreferred]
  | @anchored anchor wanted tier rest hanchor hpreferred hchoices here elsewhere =>
    simp only [hanchor, hpreferred, Option.some.injEq, exists_eq_left']
    rw [hchoices, List.findSome?_cons, here] at hfirst
    cases hfinds : edit.finds document target anchor with
    | true =>
      rw [hfinds, if_pos rfl] at hfirst
      simpa using hfirst
    | false =>
      rw [hfinds, if_neg Bool.false_ne_true] at hfirst
      obtain ⟨other, hother, hplacement⟩ := List.exists_of_findSome?_eq_some hfirst
      have hne : wanted ≠ placement := by
        rintro rfl
        exact elsewhere document target other hother hplacement
      simpa using hne

end Edit

/-! ### The report of one edit -/

variable {edit : Edit} {document after : Document} {target : String} {outcome : Outcome}

/-- A report is a warning if the edit was skipped or has not the placement that it is expected to
have. -/
theorem Diagnostic.isWarning_ofEdit (phase location : String) (edit : Edit) (outcome : Outcome) :
    (ofEdit phase location edit outcome).isWarning = true ↔
      (∃ reason, outcome = .skipped reason) ∨ ∃ placement, outcome.placement? = some placement ∧
        ∃ wanted, edit.preferred? = some wanted ∧ wanted ≠ placement := by
  unfold ofEdit isWarning
  cases outcome with
  | alreadyPresent => simp [Outcome.placement?]
  | skipped reason => simp
  | inserted placement | moved placement =>
    cases edit.preferred? with
    | none => simp
    | some wanted => by_cases h : wanted = placement <;> simp [h, Outcome.placement?]

/-- What is reported about an edit is a warning exactly if the edit should warn. -/
theorem Diagnostic.isWarning_ofEdit_iff (phase : String)
    (h : edit.apply document target = .ok (outcome, after)) :
    (ofEdit phase target edit outcome).isWarning = true ↔ edit.Warns document target outcome := by
  rw [isWarning_ofEdit, Edit.Warns]
  refine or_congr_right ?_
  rw [← outcome.isSome_placement?, Option.isSome_iff_exists]
  constructor
  · rintro ⟨placement, hplaced, hne⟩
    exact ⟨⟨placement, hplaced⟩, (Edit.preferred?_ne_iff h hplaced).1 hne⟩
  · rintro ⟨⟨placement, hplaced⟩, hmissing⟩
    exact ⟨placement, hplaced, (Edit.preferred?_ne_iff h hplaced).2 hmissing⟩

/-! ### The reports of a phase -/

/-- Edits applied one after another, each with a report that is a warning exactly if the edit should
warn of the document to which it was applied. -/
inductive Reported (target : String) :
    Document → List AppliedEdit → List Diagnostic → Document → Prop
  | nil {document : Document} : Reported target document [] [] document
  | cons {document next after : Document} {edit : Edit} {outcome : Outcome}
      {applied : List AppliedEdit} {diagnostic : Diagnostic} {diagnostics : List Diagnostic}
      (head : edit.apply document target = .ok (outcome, next))
      (warns : diagnostic.isWarning = true ↔ edit.Warns document target outcome)
      (tail : Reported target next applied diagnostics after) :
      Reported target document (⟨edit, outcome⟩ :: applied) (diagnostic :: diagnostics) after

theorem InTurn.reported {applied : List AppliedEdit} (phase : String)
    (h : InTurn target document applied after) :
    Reported target document applied
      (applied.map fun a => .ofEdit phase target a.edit a.outcome) after := by
  induction h with
  | nil => exact .nil
  | cons head tail ih => exact .cons head (Diagnostic.isWarning_ofEdit_iff phase head) ih

/-- A warning of an edit that names no anchor, or that had nothing to do, says that it was skipped. -/
theorem Reported.skipped {applied : List AppliedEdit} {diagnostics : List Diagnostic}
    (h : Reported target document applied diagnostics after) :
    ∀ report ∈ applied.zip diagnostics, report.2.isWarning = true →
      (report.1.outcome = .alreadyPresent ∨ report.1.edit.anchor? = none) →
        ∃ reason, report.1.outcome = .skipped reason := by
  induction h with
  | nil => simp
  | @cons _ _ _ edit outcome _ _ _ head warns tail ih =>
    intro report hreport
    rw [List.zip_cons_cons, List.mem_cons] at hreport
    rcases hreport with rfl | hreport
    · intro hwarning hquiet
      rcases warns.1 hwarning with hskipped | ⟨hchanged, anchor, hanchor, -⟩
      · exact hskipped
      · rcases hquiet with hpresent | hnone
        · rw [show outcome = .alreadyPresent from hpresent] at hchanged
          cases hchanged
        · rw [show edit.anchor? = none from hnone] at hanchor
          cases hanchor
    · exact ih report hreport

/-- A phase applies edits of its kind one after another and reports each of them once. Its warnings
are the skipped edits and those that have missed their first anchor in the document as it was at that
moment; an edit without anchor and one that had nothing to do are warned of only if skipped. -/
theorem Phase.run_reported (phase : Phase) (run : Run) :
    ∃ applied diagnostics,
      (phase.run run).1.applied = run.applied ++ applied ∧
      (phase.run run).1.diagnostics = run.diagnostics ++ diagnostics ∧
      applied.map (·.edit) <+: run.plan.editsOf phase.kind ∧
      Reported run.target run.document applied diagnostics (phase.run run).1.document ∧
      ∀ report ∈ applied.zip diagnostics, report.2.isWarning = true →
        (report.1.outcome = .alreadyPresent ∨ report.1.edit.anchor? = none) →
          ∃ reason, report.1.outcome = .skipped reason := by
  have hran := phase.ran run
  generalize phase.run run = result at hran
  cases hran with
  | finished hturn hedits =>
    have hreported := hturn.reported phase.name
    exact ⟨_, _, rfl, rfl, hedits ▸ List.prefix_rfl, hreported, hreported.skipped⟩
  | stopped hturn hprefix =>
    have hreported := hturn.reported phase.name
    exact ⟨_, _, rfl, rfl, hprefix, hreported, hreported.skipped⟩

/-- In the server class, a call that should precede one that is not made gives a warning, although its
second anchor is there. -/
theorem Phase.run_reported_serverDocument :
    let edit := Edit.addCall
      { draft := { method := "docs" }, before := some "listen", after := some "routes" }
    let run : Run :=
      { document := CallEdit.serverDocument, plan := ⟨.apiDocs, [edit]⟩, target := "App" }
    let result := (Phase.constructor.run run).1
    result.diagnostics.map (·.isWarning) = [true] ∧
      ∃ applied diagnostics, result.applied = applied ∧ result.diagnostics = diagnostics ∧
        applied.map (·.edit) <+: run.plan.editsOf .constructor ∧
        Reported "App" CallEdit.serverDocument applied diagnostics result.document := by
  intro edit run result
  obtain ⟨applied, diagnostics, happlied, hdiagnostics, hprefix, hreported, -⟩ :=
    Phase.constructor.run_reported run
  exact ⟨by decide +kernel, applied, diagnostics, happlied, hdiagnostics, hprefix, hreported⟩

end CodeSplice
