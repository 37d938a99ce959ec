/-
Module: CodeSplice.Proofs.Patch.Progress
Purpose: A run that is asked for phases and for states in any order, as often as one likes. Whatever
  is asked for and whatever is refused or stopped by a fault, the document is the one that the
  applied edits have made, each of them is reported once, and the state goes forward only. A run
  that has come to its last phase by phases alone has applied the edits of every phase, in the order
  of the phases.
Main exports: RunStep, Run.performAll, Phase.Ran, Phase.ran, Run.Sound, RunState.stage,
  RunState.done, Run.performAll_inTurn
-/
import CodeSplice.Proofs.Edit.Outcome
import CodeSplice.Proofs.Patch.Order

namespace CodeSplice

/-! ### Steps of a run -/

/-- What a run can be asked to do: to go through a phase, or to go to another state. -/
inductive RunStep where
  | phase (phase : Phase)
  | advance (next : RunState)
deriving DecidableEq, Repr

namespace Run

/-- The run after a step. A phase that a fault has stopped leaves what it has done until then. -/
def perform (run : Run) : RunStep → Run
  | .phase phase => (phase.run run).1
  | .advance next => run.advance next

/-- The run after steps. -/
def performAll (run : Run) (steps : List RunStep) : Run :=
  steps.foldl perform run

@[simp] theorem performAll_nil (run : Run) : run.performAll [] = run := rfl

@[simp] theorem performAll_cons (run : Run) (step : RunStep) (steps : List RunStep) :
    run.performAll (step :: steps) = (run.perform step).performAll steps := rfl

end Run

/-! ### What a phase comes to -/

/-- The phase that applies the edits of a kind. -/
def EditKind.phase : EditKind → Phase
  | .imports => .imports
  | .method => .method
  | .constructor => .constructor

@[simp] theorem Phase.phase_kind (phase : Phase) : phase.kind.phase = phase := by
  cases phase <;> rfl

theorem Plan.kind_of_mem_editsOf {plan : Plan} {kind : EditKind} {edit : Edit}
    (h : edit ∈ plan.editsOf kind) : edit.kind = kind := by
  simpa using (List.mem_filter.1 h).2

/-- Applying edits until one of them fails leaves the run behind those before it. -/
theorem Phase.applyAll_cases (phase : Phase) (run : Run) (edits : List Edit) :
    ∃ applied document, InTurn run.target run.document applied document ∧
      (applied.map (·.edit) = edits ∧
          phase.applyAll run edits = (run.behind phase applied document, none) ∨
        ∃ fault, applied.map (·.edit) <+: edits ∧
          phase.applyAll run edits = (run.behind phase applied document, some fault)) := by
  induction edits generalizing run with
  | nil => exact ⟨[], run.document, .nil, .inl ⟨rfl, by simp [applyAll, Run.behind]⟩⟩
  | cons edit edits ih =>
    cases happly : edit.apply run.document run.target with
    | error fault =>
      refine ⟨[], run.document, .nil, .inr ⟨fault, List.nil_prefix, ?_⟩⟩
      simp [applyAll, happly, Run.behind]
    | ok result =>
      obtain ⟨outcome, next⟩ := result
      obtain ⟨applied, document, hturn, hcases⟩ :=
        ih (run.behind phase [⟨edit, outcome⟩] next)
      -- Behind the first edit and then behind the others is behind all of them.
      have hbehind : (run.behind phase [⟨edit, outcome⟩] next).behind phase applied document =
          run.behind phase (⟨edit, outcome⟩ :: applied) document := by
        simp [Run.behind]
      have hall : phase.applyAll run (edit :: edits) =
          phase.applyAll (run.behind phase [⟨edit, outcome⟩] next) edits := by
        simp [applyAll, happly, Run.behind]
      refine ⟨⟨edit, outcome⟩ :: applied, document, .cons happly hturn, ?_⟩
      rw [hall, ← hbehind]
      rcases hcases with ⟨hedits, hrun⟩ | ⟨fault, hprefix, hrun⟩
      · exact .inl ⟨by rw [List.map_cons, hedits], hrun⟩
      · exact .inr ⟨fault, by simpa using hprefix, hrun⟩

/-- What a phase comes to: it has applied its edits one after another and the state may advance, or
a fault has stopped it behind some of them and the state is as it was. -/
inductive Phase.Ran (phase : Phase) (run : Run) : Run × Option Fault → Prop
  | finished {applied : List AppliedEdit} {document : Document}
      (inTurn : InTurn run.target run.document applied document)
      (edits : applied.map (·.edit) = run.plan.editsOf phase.kind) :
      Ran phase run ((run.behind phase applied document).advance phase.completes, none)
  | stopped {applied : List AppliedEdit} {document : Document} {fault : Fault}
      (inTurn : InTurn run.target run.document applied document)
      (edits : applied.map (·.edit) <+: run.plan.editsOf phase.kind) :
      Ran phase run (run.behind phase applied document, some fault)

theorem Phase.ran (phase : Phase) (run : Run) : phase.Ran run (phase.run run) := by
  obtain ⟨applied, document, hturn, ⟨hedits, hrun⟩ | ⟨fault, hprefix, hrun⟩⟩ :=
    phase.applyAll_cases run (run.plan.editsOf phase.kind)
  · rw [Phase.run, hrun]
    exact .finished hturn hedits
  · rw [Phase.run, hrun]
    exact .stopped hturn hprefix

/-- A phase that a fault has stopped leaves the state as it is. -/
theorem Phase.state_run_of_fault {phase : Phase} {run : Run} {fault : Fault}
    (h : (phase.run run).2 = some fault) : (phase.run run).1.state = run.state := by
  have hran := phase.ran run
  generalize phase.run run = result at h hran
  cases hran with
  | finished => cases h
  | stopped => rfl

/-! ### The document and the reports -/

/-- Edits of which none is reported to have changed the document leave it as it is. -/
theorem InTurn.eq_of_unchanged {target : String} {document after : Document}
    {applied : List AppliedEdit} (h : InTurn target document applied after)
    (hall : ∀ a ∈ applied, a.outcome.changed = false) : after = document := by
  induction h with
  | nil => rfl
  | cons head tail ih =>
    have hsame := (not_congr (Edit.changed_iff head)).1 (by simp [hall _ List.mem_cons_self])
    rw [ih fun a ha => hall a (List.mem_cons_of_mem _ ha), not_not.1 hsame]

namespace Run

/-- What a run has done to its first document: it has applied the edits that it has recorded, and
has reported each of them under the name of its phase. -/
structure Sound (document : Document) (plan : Plan) (target : String) (run : Run) : Prop where
  plan_eq : run.plan = plan
  target_eq : run.target = target
  inTurn : InTurn target document run.applied run.document
  diagnostics_eq : run.diagnostics =
    run.applied.map fun a => .ofEdit a.edit.kind.phase.name target a.edit a.outcome

variable {document : Document} {plan : Plan} {target : String} {run : Run}

/-- A run stays sound behind edits of a phase. -/
theorem Sound.behind (h : run.Sound document plan target) {phase : Phase}
    {applied : List AppliedEdit} {after : Document}
    (hturn : InTurn run.target run.document applied after)
    (hedits : ∀ edit ∈ applied.map (·.edit), edit ∈ run.plan.editsOf phase.kind) :
    (run.behind phase applied after).Sound document plan target where
  plan_eq := h.plan_eq
  target_eq := h.target_eq
  inTurn := h.inTurn.append (h.target_eq ▸ hturn)
  diagnostics_eq := by
    simp only [Run.behind, h.diagnostics_eq, List.map_append, List.append_cancel_left_eq]
    refine List.map_congr_left fun a ha => ?_
    rw [Plan.kind_of_mem_editsOf (hedits _ (List.mem_map_of_mem ha)), Phase.phase_kind,
      h.target_eq]

/-- Where the state goes does not matter to the document. -/
theorem Sound.advance (h : run.Sound document plan target) (next : RunState) :
    (run.advance next).Sound document plan target :=
  ⟨h.plan_eq, h.target_eq, h.inTurn, h.diagnostics_eq⟩

theorem Sound.perform (h : run.Sound document plan target) (step : RunStep) :
    (run.perform step).Sound document plan target := by
  cases step with
  | advance next => exact h.advance next
  | phase phase =>
    have hran := phase.ran run
    rw [Run.perform]
    generalize phase.run run = result at hran
    cases hran with
    | finished hturn hedits => exact (h.behind hturn fun _ => by rw [hedits]; exact id).advance _
    | stopped hturn hprefix => exact h.behind hturn fun _ hedit => hprefix.subset hedit

theorem Sound.performAll (h : run.Sound document plan target) (steps : List RunStep) :
    (run.performAll steps).Sound document plan target := by
  induction steps generalizing run with
  | nil => exact h
  | cons step steps ih => exact ih (h.perform step)

/-- A run that reports no change has its first document. -/
theorem Sound.document_eq (h : run.Sound document plan target) (hchanged : run.changed = false) :
    run.document = document :=
  h.inTurn.eq_of_unchanged (by simpa [Run.changed] using hchanged)

theorem sound_start (document : Document) (plan : Plan) (target : String) :
    ({ document, plan, target } : Run).Sound document plan target :=
  ⟨rfl, rfl, .nil, rfl⟩

end Run

/-! ### The state -/

/-- How far a state is from the start. The states in which a run is over come last. -/
def RunState.stage : RunState → Nat
  | loaded => 0
  | importsPatched => 1
  | methodPatched => 2
  | constructorPatched => 3
  | saved | skipped | failed => 4

/-- The state goes forward or stays. -/
theorem RunState.advance_cases (state next : RunState) :
    state.advance next = state ∨ state.stage < (state.advance next).stage := by
  cases state <;> cases next <;> decide

namespace Run

variable {run : Run}

theorem state_perform_cases (run : Run) (step : RunStep) :
    ∃ next, (run.perform step).state = run.state ∨
      (run.perform step).state = run.state.advance next := by
  cases step with
  | advance next => exact ⟨next, .inr rfl⟩
  | phase phase =>
    have hran := phase.ran run
    rw [Run.perform]
    generalize phase.run run = result at hran
    cases hran with
    | finished => exact ⟨phase.completes, .inr rfl⟩
    | stopped => exact ⟨phase.completes, .inl rfl⟩

theorem perform_forward (run : Run) (step : RunStep) :
    (run.perform step).state = run.state ∨ run.state.stage < (run.perform step).state.stage := by
  obtain ⟨next, hsame | hnext⟩ := run.state_perform_cases step
  · exact .inl hsame
  · rw [hnext]
    exact run.state.advance_cases next

/-- The state never goes back. -/
theorem performAll_forward (run : Run) (steps : List RunStep) :
    (run.performAll steps).state = run.state ∨
      run.state.stage < (run.performAll steps).state.stage := by
  induction steps generalizing run with
  | nil => exact .inl rfl
  | cons step steps ih =>
    rw [performAll_cons]
    rcases run.perform_forward step with hsame | hstep <;>
      rcases ih (run.perform step) with hrest | hrest
    · exact .inl (hrest.trans hsame)
    · exact .inr (hsame ▸ hrest)
    · exact .inr (hrest ▸ hstep)
    · exact .inr (Nat.lt_trans hstep hrest)

theorem state_perform_of_terminal (h : run.state.terminal = true) (step : RunStep) :
    (run.perform step).state = run.state := by
  obtain ⟨next, hsame | hnext⟩ := run.state_perform_cases step
  · exact hsame
  · rw [hnext, RunState.advance_of_terminal h]

/-- A run that is over stays over. -/
theorem state_performAll_of_terminal (h : run.state.terminal = true) (steps : List RunStep) :
    (run.performAll steps).state = run.state := by
  induction steps generalizing run with
  | nil => rfl
  | cons step steps ih =>
    have hstep := state_perform_of_terminal h step
    rw [performAll_cons, ih (by rw [hstep, h]), hstep]

end Run

/-! ### Phases alone -/

/-- The phases that a run has finished if phases alone have brought it to a state; none for the
states that no phase ends in. -/
def RunState.done : RunState → List Phase
  | loaded => []
  | importsPatched => [.imports]
  | methodPatched => [.imports, .method]
  | constructorPatched => [.imports, .method, .constructor]
  | saved | skipped | failed => []

/-- A phase takes the state on if it is the next one, and not at all otherwise. -/
theorem RunState.advance_completes (state : RunState) (phase : Phase) :
    state.advance phase.completes = state ∨
      (state.advance phase.completes).done = state.done ++ [phase] := by
  cases state <;> cases phase <;> decide

/-- The edits of phases, in the order of the phases. -/
def Plan.editsOfAll (plan : Plan) (phases : List Phase) : List Edit :=
  phases.flatMap fun phase => plan.editsOf phase.kind

namespace Run

/-- A run has applied the edits of the phases that it has finished, in the order of the phases;
other edits may stand between them. -/
def Finished (run : Run) : Prop :=
  (run.plan.editsOfAll run.state.done).Sublist (run.applied.map (·.edit))

variable {run : Run}

/-- More edits do not matter to the phases that a run has finished. -/
theorem Finished.behind (h : run.Finished) (phase : Phase) (applied : List AppliedEdit)
    (after : Document) : (run.behind phase applied after).Finished := by
  refine h.trans ?_
  simp [Run.behind]

theorem Finished.perform_phase (h : run.Finished) (phase : Phase) :
    (run.perform (.phase phase)).Finished := by
  have hran := phase.ran run
  rw [Run.perform]
  generalize phase.run run = result at hran
  cases hran with
  | @stopped applied after _ hturn hprefix => exact h.behind phase applied after
  | @finished applied after hturn hedits =>
    rcases run.state.advance_completes phase with hsame | hnext
    · have hstate : ((run.behind phase applied after).advance phase.completes).state =
          (run.behind phase applied after).state := hsame
      unfold Finished
      rw [hstate]
      exact h.behind phase applied after
    · unfold Finished
      simp only [Run.advance, Run.behind, hnext, Plan.editsOfAll, List.flatMap_append,
        List.flatMap_singleton, List.map_append, hedits]
      exact h.append (List.Sublist.refl _)

theorem Finished.performAll (h : run.Finished) {steps : List RunStep}
    (hsteps : ∀ next, RunStep.advance next ∉ steps) : (run.performAll steps).Finished := by
  induction steps generalizing run with
  | nil => exact h
  | cons step steps ih =>
    cases step with
    | advance next => exact absurd List.mem_cons_self (hsteps next)
    | phase phase =>
      exact ih (h.perform_phase phase) fun next hnext => hsteps next (List.mem_cons_of_mem _ hnext)

/-- Whatever a run is asked for: its document is the first one with the applied edits applied to it
in turn; each applied edit is reported once; a phase that fails leaves the state; the state never
goes back and, once the run is over, never changes. If only phases were asked for, a run whose state
is that of the last phase has applied all edits of imports, then all of methods, then all of
constructors. -/
theorem performAll_inTurn (document : Document) (plan : Plan) (target : String)
    (steps : List RunStep) :
    let run := ({ document, plan, target } : Run).performAll steps
    InTurn target document run.applied run.document ∧
    run.diagnostics =
      run.applied.map (fun a => .ofEdit a.edit.kind.phase.name target a.edit a.outcome) ∧
    (∀ (phase : Phase) (fault : Fault),
      (phase.run run).2 = some fault → (phase.run run).1.state = run.state) ∧
    (∀ more, (run.performAll more).state = run.state ∨
      run.state.stage < (run.performAll more).state.stage) ∧
    (run.state.terminal = true → ∀ more, (run.performAll more).state = run.state) ∧
    ((∀ next, RunStep.advance next ∉ steps) → run.state = .constructorPatched →
      (plan.editsOf .imports ++ plan.editsOf .method ++ plan.editsOf .constructor).Sublist
        (run.applied.map (·.edit))) := by
  intro run
  have hsound : run.Sound document plan target :=
    (sound_start document plan target).performAll steps
  refine ⟨hsound.inTurn, hsound.diagnostics_eq, fun _ _ => Phase.state_run_of_fault,
    run.performAll_forward, fun h more => state_performAll_of_terminal h more, ?_⟩
  intro hsteps hstate
  have hstart : ({ document, plan, target } : Run).Finished := List.nil_sublist _
  have hfinished : run.Finished := hstart.performAll hsteps
  rw [Finished, hstate, hsound.plan_eq] at hfinished
  simpa [RunState.done, Plan.editsOfAll, Phase.kind] using hfinished

/-- The phases of a plan in another order and one of them twice: the run has come to its last phase,
with the constructor made before the imports are put there, and its edits are recorded in the order
of the phases as well. -/
theorem performAll_inTurn_mixedPlan :
    let steps := [.constructor, .imports, .method, .constructor].map RunStep.phase
    let start : Run := { document := bareClass "App", plan := mixedPlan, target := "App" }
    let run := start.performAll steps
    run.state = .constructorPatched ∧
      InTurn "App" (bareClass "App") run.applied run.document ∧
      (mixedPlan.editsOf .imports ++ mixedPlan.editsOf .method ++
        mixedPlan.editsOf .constructor).Sublist (run.applied.map (·.edit)) := by
  intro steps start run
  have hstate : run.state = .constructorPatched := by decide +kernel
  obtain ⟨hturn, -, -, -, -, hphases⟩ :=
    performAll_inTurn (bareClass "App") mixedPlan "App" steps
  exact ⟨hstate, hturn, hphases (by simp [steps]) hstate⟩

end Run

end CodeSplice
