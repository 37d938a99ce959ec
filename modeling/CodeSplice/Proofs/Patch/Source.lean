/-
Module: CodeSplice.Proofs.Patch.Source
Purpose: Adding a feature to a source text, and adding it again to the text that comes out. Whether it
  can be added depends on the text having a tree and its document having the class; whether adding it
  again does nothing depends on what the new text is read as.
Main exports: Feature.addTo_eq_ok_iff, AddsOnce
-/
import CodeSplice.Config.Reading
import CodeSplice.Patch.Source

namespace CodeSplice

open Layout

/-- A feature is added to a text by running its plan on the document of the text. -/
theorem Feature.addTo_eq_ok_iff {feature : Feature} {config : Config} {name text : String}
    {run : Run} :
    feature.addTo config name text = .ok run ↔
      ∃ document, Document.ofSource? name text = some document ∧
        patch document (feature.plan config) config.target.className = .ok run := by
  unfold Feature.addTo Document.ofSource
  cases Document.ofSource? name text <;> simp

/-- A feature is not added to a text with a syntax error. -/
theorem Feature.addTo_of_syntaxError (feature : Feature) (config : Config) {name text : String}
    (h : Document.ofSource? name text = none) :
    feature.addTo config name text = .error (.syntaxError name) := by
  simp [Feature.addTo, Document.ofSource, h]

/-- The text that adding a feature makes of a text, in the style of the configuration. -/
def Feature.added? (feature : Feature) (config : Config) (name text : String) : Option String :=
  match feature.addTo config name text with
  | .ok run => some (run.document.render config.style.toStyle)
  | .error _ => none

theorem Feature.added?_eq_some_iff {feature : Feature} {config : Config}
    {name text after : String} :
    feature.added? config name text = some after ↔
      ∃ run, feature.addTo config name text = .ok run ∧
        run.document.render config.style.toStyle = after := by
  unfold Feature.added?
  cases feature.addTo config name text <;> simp

/-- Adding a feature again leaves the text as it is. -/
def AddsOnce (feature : Feature) (config : Config) (name text : String) : Prop :=
  ∀ after, feature.added? config name text = some after →
    feature.added? config name after = some after

instance (feature : Feature) (config : Config) (name text : String) :
    Decidable (AddsOnce feature config name text) :=
  decidable_of_iff ((feature.added? config name text).all fun after =>
    feature.added? config name after == some after) (by simp [AddsOnce, Option.all_eq_true])

/-- A text with a hash-bang line whose class has everything but the imports. -/
def hashBangSource : String :=
  "#!\nclass App{constructor(){this.initializeSwagger()}initializeSwagger(){}}"

/-- The imports of a feature go in front of a hash-bang line, and what comes out has a syntax error. -/
theorem not_forall_addsOnce :
    ¬ ∀ feature config name text, config.complaint? = none → AddsOnce feature config name text := by
  intro h
  have valid : ({} : Config).complaint? = none := by rfl
  exact absurd (h .apiDocs {} "" hashBangSource valid) (by decide +kernel)

end CodeSplice
