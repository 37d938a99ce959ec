/-
Module: CodeSplice.Proofs.Patch.Order
Purpose: A run applies the edits of a plan phase by phase. It comes to what applying them one after
  another, in the order of the plan, comes to: edits of different phases change places, and those of
  one phase keep their order.
Main exports: InTurn, inPhases, InTurn.inPhases, patch_of_inTurn, patch_inTurn
-/
import CodeSplice.Patch.Run
import CodeSplice.Proofs.Edit.Basic

namespace CodeSplice

/-! ### Edits one after another -/

/-- Edits applied one after another, each to the document that the one before it has left. -/
inductive InTurn (target : String) : Document → List AppliedEdit → Document → Prop
  | nil {document : Document} : InTurn target document [] document
  | cons {document next after : Document} {edit : Edit} {outcome : Outcome}
      {applied : List AppliedEdit} (head : edit.apply document target = .ok (outcome, next))
      (tail : InTurn target next applied after) :
      InTurn target document (⟨edit, outcome⟩ :: applied) after

namespace InTurn

variable {target : String} {document after other : Document}
  {applied first second : List AppliedEdit} {a b : AppliedEdit}

theorem append_iff :
    InTurn target document (first ++ second) after ↔
      ∃ middle, InTurn target document first middle ∧ InTurn target middle second after := by
  induction first generalizing document with
  | nil =>
    refine ⟨fun h => ⟨document, .nil, h⟩, ?_⟩
    rintro ⟨_, hnil, h⟩
    cases hnil
    exact h
  | cons a first ih =>
    constructor
    · intro h
      cases h with
      | cons head tail =>
        obtain ⟨middle, hfirst, hsecond⟩ := ih.1 tail
        exact ⟨middle, .cons head hfirst, hsecond⟩
    · rintro ⟨middle, hfirst, hsecond⟩
      cases hfirst with
      | cons head tail => exact .cons head (ih.2 ⟨middle, tail, hsecond⟩)

theorem append {middle : Document} (hfirst : InTurn target document first middle)
    (hsecond : InTurn target middle second after) :
    InTurn target document (first ++ second) after :=
  append_iff.2 ⟨middle, hfirst, hsecond⟩

theorem singleton_iff :
    InTurn target document [a] after ↔ a.edit.apply document target = .ok (a.outcome, after) := by
  constructor
  · intro h
    cases h with
    | cons head tail =>
      cases tail
      exact head
  · intro h
    exact .cons h .nil

/-- What edits come to is determined. -/
theorem unique (hfirst : InTurn target document first after)
    (hsecond : InTurn target document second other)
    (h : first.map (·.edit) = second.map (·.edit)) : first = second ∧ after = other := by
  induction hfirst generalizing second with
  | nil =>
    cases hsecond with
    | nil => exact ⟨rfl, rfl⟩
    | cons => simp at h
  | cons head tail ih =>
    cases hsecond with
    | nil => simp at h
    | cons head' tail' =>
      obtain ⟨hedit, hrest⟩ := List.cons.inj h
      dsimp only at hedit
      subst hedit
      rw [head, Except.ok.injEq, Prod.mk.injEq] at head'
      obtain ⟨rfl, rfl⟩ := head'
      obtain ⟨rfl, rfl⟩ := ih tail' hrest
      exact ⟨rfl, rfl⟩

/-- The class is there afterwards. -/
theorem isSome_class? (h : InTurn target document applied after)
    (hclass : (document.class? target).isSome = true) : (after.class? target).isSome = true := by
  induction h with
  | nil => exact hclass
  | @cons _ _ _ edit _ _ head _ ih =>
    obtain ⟨outcome, next, hnext, hsome⟩ := edit.exists_apply hclass
    rw [head, Except.ok.injEq, Prod.mk.injEq] at hnext
    exact ih (hnext.2 ▸ hsome)

/-- All edits can be applied to a document that has the class. -/
theorem exists_of_class? (h : (document.class? target).isSome = true) (edits : List Edit) :
    ∃ applied after, applied.map (·.edit) = edits ∧ InTurn target document applied after := by
  induction edits generalizing document with
  | nil => exact ⟨[], document, rfl, .nil⟩
  | cons edit edits ih =>
    obtain ⟨outcome, next, hnext, hclass⟩ := edit.exists_apply h
    obtain ⟨applied, after, hedits, htail⟩ := ih hclass
    exact ⟨⟨edit, outcome⟩ :: applied, after, by rw [List.map_cons, hedits], .cons hnext htail⟩

/-! ### Another order -/

/-- An edit goes behind edits with which it changes places. -/
theorem behind (hexchanges : ∀ b ∈ first, a.edit.Exchanges target b.edit)
    (h : InTurn target document (a :: (first ++ second)) after) :
    InTurn target document (first ++ a :: second) after := by
  induction first generalizing document with
  | nil => exact h
  | cons b first ih =>
    cases h with
    | cons hhead htail =>
      cases htail with
      | cons hnext hrest =>
        obtain ⟨middle, hb, ha⟩ := hexchanges _ List.mem_cons_self hhead hnext
        exact .cons hb (ih (fun c hc => hexchanges c (by simp [hc])) (.cons ha hrest))

/-- Edits go behind edits with which they change places. -/
theorem swap (hexchanges : ∀ a ∈ first, ∀ b ∈ second, a.edit.Exchanges target b.edit)
    (h : InTurn target document (first ++ second) after) :
    InTurn target document (second ++ first) after := by
  induction first generalizing document with
  | nil => simpa using h
  | cons a first ih =>
    cases h with
    | cons head tail =>
      exact behind (hexchanges _ List.mem_cons_self)
        (.cons head (ih (fun b hb => hexchanges b (by simp [hb])) tail))

/-- Edits that do nothing to a document do nothing to it, with the same outcomes, behind edits with
which they change places. -/
theorem of_settled (hexchanges : ∀ a ∈ first, ∀ b ∈ second, a.edit.Exchanges target b.edit)
    (hfirst : InTurn target document first document)
    (hsecond : InTurn target document second after) : InTurn target after first after := by
  obtain ⟨middle, hmiddle, h⟩ := append_iff.1 (swap hexchanges (hfirst.append hsecond))
  obtain ⟨-, rfl⟩ := hmiddle.unique hsecond rfl
  exact h

end InTurn

/-! ### Edits phase by phase -/

/-- The applied edits of one kind. -/
def ofKind (kind : EditKind) (applied : List AppliedEdit) : List AppliedEdit :=
  applied.filter (·.edit.kind == kind)

/-- Applied edits phase by phase; those of one phase keep their order. -/
def inPhases (applied : List AppliedEdit) : List AppliedEdit :=
  Phase.all.flatMap fun phase => ofKind phase.kind applied

theorem kind_of_mem_ofKind {kind : EditKind} {applied : List AppliedEdit} {a : AppliedEdit}
    (h : a ∈ ofKind kind applied) : a.edit.kind = kind := by
  simpa using (List.mem_filter.1 h).2

theorem inPhases_eq (applied : List AppliedEdit) :
    inPhases applied =
      ofKind .imports applied ++ (ofKind .method applied ++ ofKind .constructor applied) := by
  simp [inPhases, Phase.all, Phase.kind]

/-- No edit is left out and none is applied twice. -/
theorem inPhases_perm (applied : List AppliedEdit) : (inPhases applied).Perm applied := by
  rw [inPhases_eq]
  induction applied with
  | nil => exact .nil
  | cons a applied ih =>
    cases h : a.edit.kind with
    | imports => simpa [ofKind, h] using ih
    | method =>
      simp only [ofKind, h, List.filter_cons] at ih ⊢
      exact List.perm_middle.trans (ih.cons a)
    | constructor =>
      simp only [ofKind, h, List.filter_cons] at ih ⊢
      rw [← List.append_assoc] at ih ⊢
      exact List.perm_middle.trans (ih.cons a)

/-- Edits come to the same document, and have the same outcomes, when they are applied phase by
phase. -/
theorem InTurn.inPhases {target : String} {document after : Document} {applied : List AppliedEdit}
    (h : InTurn target document applied after) :
    InTurn target document (inPhases applied) after := by
  rw [inPhases_eq]
  induction h with
  | nil => exact .nil
  | @cons _ _ _ edit outcome applied head tail ih =>
    have hall := InTurn.cons head ih
    have hpast (kind : EditKind) (hkind : edit.kind ≠ kind) :
        ∀ b ∈ ofKind kind applied, edit.Exchanges target b.edit := fun b hb =>
      Edit.exchanges_of_kind_ne target (by rwa [kind_of_mem_ofKind hb])
    -- The edit goes behind those of earlier phases, which are all of another kind.
    cases h : edit.kind with
    | imports => simpa [ofKind, h] using hall
    | method =>
      have := hall.behind (hpast .imports (by simp [h]))
      simpa [ofKind, h] using this
    | constructor =>
      rw [← List.append_assoc] at hall
      have := hall.behind fun b hb => by
        rcases List.mem_append.1 hb with hb | hb
        · exact hpast .imports (by simp [h]) b hb
        · exact hpast .method (by simp [h]) b hb
      simpa [ofKind, h] using this

/-! ### A run -/

/-- A run behind more edits, which a phase has applied. -/
def Run.behind (run : Run) (phase : Phase) (applied : List AppliedEdit) (document : Document) :
    Run :=
  { run with
    document
    diagnostics := run.diagnostics ++
      applied.map fun a => .ofEdit phase.name run.target a.edit a.outcome
    applied := run.applied ++ applied }

theorem Phase.applyAll_of_inTurn (phase : Phase) {run : Run} {applied : List AppliedEdit}
    {after : Document} (h : InTurn run.target run.document applied after) :
    phase.applyAll run (applied.map (·.edit)) = (run.behind phase applied after, none) := by
  induction applied generalizing run with
  | nil =>
    cases h
    simp [applyAll, Run.behind]
  | cons a applied ih =>
    cases h with
    | @cons _ next _ edit outcome _ head tail =>
      simp only [List.map_cons, applyAll, head]
      rw [ih tail]
      simp [Run.behind]

/-- A phase that applies all of its edits advances the state. -/
theorem Phase.run_of_inTurn (phase : Phase) {run : Run} {applied : List AppliedEdit}
    {after : Document} (h : InTurn run.target run.document applied after)
    (hedits : run.plan.editsOf phase.kind = applied.map (·.edit)) :
    phase.run run = ((run.behind phase applied after).advance phase.completes, none) := by
  rw [Phase.run, hedits, phase.applyAll_of_inTurn h]

theorem Plan.editsOf_eq {plan : Plan} {applied : List AppliedEdit}
    (h : applied.map (·.edit) = plan.edits) (kind : EditKind) :
    plan.editsOf kind = (ofKind kind applied).map (·.edit) := by
  rw [Plan.editsOf, ← h, List.filter_map]
  rfl

/-- What the edits of a plan come to one after another is what a run of the plan comes to. -/
theorem patch_of_inTurn {document after : Document} {plan : Plan} {target : String}
    {applied : List AppliedEdit} (hclass : (document.class? target).isSome = true)
    (hedits : applied.map (·.edit) = plan.edits) (h : InTurn target document applied after) :
    ∃ run, patch document plan target = .ok run ∧ run.document = after ∧
      run.state = .constructorPatched ∧ run.applied = inPhases applied := by
  have hphases := h.inPhases
  rw [inPhases_eq] at hphases
  obtain ⟨second, himports, hrest⟩ := InTurn.append_iff.1 hphases
  obtain ⟨third, hmethod, hconstructor⟩ := InTurn.append_iff.1 hrest
  obtain ⟨declaration, hdeclaration⟩ := Option.isSome_iff_exists.1 hclass
  have hedits := Plan.editsOf_eq hedits
  let start : Run := { document, plan, target }
  let imported := (start.behind .imports (ofKind .imports applied) second).advance .importsPatched
  let extended := (imported.behind .method (ofKind .method applied) third).advance .methodPatched
  let finished :=
    (extended.behind .constructor (ofKind .constructor applied) after).advance .constructorPatched
  have hfirst : Phase.imports.run start = (imported, none) :=
    Phase.imports.run_of_inTurn himports (hedits _)
  have hsecond : Phase.method.run imported = (extended, none) :=
    Phase.method.run_of_inTurn hmethod (hedits _)
  have hthird : Phase.constructor.run extended = (finished, none) :=
    Phase.constructor.run_of_inTurn hconstructor (hedits _)
  refine ⟨finished, ?_, rfl, rfl, ?_⟩
  · simp only [patch, hdeclaration, Phase.all, Phase.runAll]
    rw [hfirst]
    dsimp only
    rw [hsecond]
    dsimp only
    rw [hthird]
  · rw [inPhases_eq, ← List.append_assoc]
    rfl

/-- A run of a plan has no fault if the class exists. It applies every edit once and comes to what
the edits come to one after another in the order of the plan; each edit has the outcome that it has
there. If the class does not exist, the run fails whatever the plan is, before an edit could fail.
-/
theorem patch_inTurn (document : Document) (plan : Plan) (target : String) :
    ((document.class? target).isSome = true →
      ∃ run applied, patch document plan target = .ok run ∧ run.state = .constructorPatched ∧
        applied.map (·.edit) = plan.edits ∧ InTurn target document applied run.document ∧
        run.applied = inPhases applied ∧ run.applied.Perm applied ∧
        InTurn target document run.applied run.document) ∧
    (document.class? target = none →
      patch document plan target = .error (.missingTarget target document.name)) := by
  constructor
  · intro hclass
    obtain ⟨applied, after, hedits, h⟩ := InTurn.exists_of_class? hclass plan.edits
    obtain ⟨run, hrun, rfl, hstate, happlied⟩ := patch_of_inTurn hclass hedits h
    refine ⟨run, applied, hrun, hstate, hedits, h, happlied, ?_, ?_⟩
    · rw [happlied]
      exact inPhases_perm applied
    · rw [happlied]
      exact h.inPhases
  · intro hclass
    simp [patch, hclass]

/-- A class with nothing in it. -/
def bareClass (name : String) : Document where
  name := "bare"
  items := [{ node := .classlike { name, header := .ofText ("class " ++ name) } }]

/-- A plan whose edits are not in the order of the phases. -/
def mixedPlan : Plan where
  feature := .apiDocs
  edits :=
    [ .addCall { draft := { method := "start" } },
      .placeImport { declaration := { specifier := "express" } },
      .addMethod { draft := { name := "start" } },
      .placeImport { declaration := { specifier := "morgan" } } ]

/-- A run makes the constructor behind the imports, and the edits come to the same class and imports
in the order of the plan. -/
theorem patch_inTurn_mixedPlan :
    ((bareClass "App").class? "App").isSome = true ∧ (bareClass "App").class? "Server" = none ∧
      (∃ run applied, patch (bareClass "App") mixedPlan "App" = .ok run ∧
        run.state = .constructorPatched ∧ applied.map (·.edit) = mixedPlan.edits ∧
        InTurn "App" (bareClass "App") applied run.document ∧
        run.applied = inPhases applied ∧ run.applied.Perm applied ∧
        InTurn "App" (bareClass "App") run.applied run.document) ∧
      patch (bareClass "App") mixedPlan "Server" = .error (.missingTarget "Server" "bare") := by
  have hclass : ((bareClass "App").class? "App").isSome = true := by decide +kernel
  have hmissing : (bareClass "App").class? "Server" = none := by decide +kernel
  exact ⟨hclass, hmissing, (patch_inTurn _ mixedPlan "App").1 hclass,
    (patch_inTurn _ mixedPlan "Server").2 hmissing⟩

end CodeSplice
