/-
Module: CodeSplice.Proofs.Project.Frame
Purpose: What work on the target file of a project does to the files. Either it has written the new
  text of this file, as a whole and with nothing else changed, or all files are as they were: when it
  fails, whatever it fails at, when there is nothing to write, and when it is a trial.
Main exports: FileTree.save_cases, Settles, reviseFile_settles, patchFile_settles, formatFile_settles
-/
import CodeSplice.Project.Basic
import CodeSplice.Proofs.Document.Formatting
import CodeSplice.Proofs.Files.Replacing
import CodeSplice.Proofs.Patch.Source

namespace CodeSplice

/-! ### Saving a text in the place of another -/

/-- Where a text can be read, saving one finds it there, fails and changes nothing, or puts it in the
place of the other. -/
theorem FileTree.save_cases {tree : FileTree} {path source : String}
    (h : tree.read path = .text source) (content : String) :
    (content = source ∧ tree.save path content = (some .unchanged, tree)) ∨
    (content ≠ source ∧ (tree.replace path content).1 = false ∧
      tree.save path content = (none, tree)) ∨
    (content ≠ source ∧ ∃ after, tree.save path content = (some .written, after) ∧
      tree.Rewritten path source content after) := by
  by_cases hcontent : content = source
  · exact .inl ⟨hcontent, by simp [save, h, hcontent]⟩
  · have hsource : ¬source = content := fun hsource => hcontent hsource.symm
    right
    obtain ⟨place, mode, hplace, hnode, hreplace⟩ := replace_cases h content
    rcases hreplace with hfailed | hdone
    · exact .inl ⟨hcontent, by rw [hfailed], by simp [save, h, hsource, hfailed]⟩
    · exact .inr ⟨hcontent, _, by simp [save, h, hsource, hdone], rewritten_put h hplace hnode⟩

/-! ### Work on a file -/

/-- Work on the file at a path leaves all files as they were, or it has written to this one the text
that is wanted in place of the one that was there. -/
inductive Settles (wanted? : String → Option String) (before : FileTree) (path : String) :
    Except Fault FileOutcome × FileTree → Prop where
  | failed (fault : Fault) : Settles wanted? before path (.error fault, before)
  | kept {outcome : FileOutcome} (haction : ∀ applied, outcome.action ≠ .written applied) :
      Settles wanted? before path (.ok outcome, before)
  | written {outcome : FileOutcome} {applied : List AppliedEdit} {source content : String}
      {after : FileTree} (haction : outcome.action = .written applied)
      (hwanted : wanted? source = some content) (hne : content ≠ source)
      (hafter : before.Rewritten path source content after) :
      Settles wanted? before path (.ok outcome, after)

variable {tree : FileTree} {config : Config} {feature : Feature} {trial : Bool} {path : String}

/-- Revising a file writes the content of the revision or nothing. -/
theorem reviseFile_settles {wanted? : String → Option String}
    {revise : String → Except Fault Revision}
    (hrevise : ∀ source revision, revise source = .ok revision →
      wanted? source = some revision.content) :
    Settles wanted? tree path (reviseFile tree trial path revise) := by
  unfold reviseFile
  cases hread : tree.read path with
  | missing => exact .kept (by simp)
  | unreadable => exact .failed _
  | text source =>
    rcases hrevision : revise source with fault | revision
    · simp only [hrevision]
      exact .failed fault
    · simp only [hrevision]
      cases trial with
      | true =>
        simp only [if_true]
        split <;> exact .kept (by simp)
      | false =>
        simp only [Bool.false_eq_true, if_false]
        rcases FileTree.save_cases hread revision.content with
          ⟨-, hsave⟩ | ⟨-, -, hsave⟩ | ⟨hne, after, hsave, hafter⟩
        · rw [hsave]
          exact .kept (by simp)
        · rw [hsave]
          exact .failed _
        · rw [hsave]
          exact .written rfl (hrevise source revision hrevision) hne hafter

theorem patchFile_settles :
    Settles (feature.added? config path) tree path
      (patchFile tree config feature trial path) := by
  refine reviseFile_settles fun source revision hrevision => ?_
  rw [Feature.added?_eq_some_iff]
  cases hrun : feature.addTo config path source with
  | error fault => simp [hrun, Except.map] at hrevision
  | ok run =>
    rw [hrun, Except.map, Except.ok.injEq] at hrevision
    exact ⟨run, rfl, by rw [← hrevision]⟩

theorem formatFile_settles :
    Settles (formatted? config.style.toStyle) tree path
      (formatFile tree config trial path) := by
  refine reviseFile_settles fun source revision hrevision => ?_
  rw [formatted?_eq_some_iff path]
  cases hdocument : Document.ofSource? path source with
  | none => simp [Document.ofSource, hdocument, Except.map] at hrevision
  | some document =>
    simp only [Document.ofSource, hdocument, Except.map, Except.ok.injEq] at hrevision
    exact ⟨document, rfl, by rw [← hrevision]⟩

/-- Whatever is asked for and whatever happens, a run writes the whole new text of its target file and
nothing else, or it leaves all files as they were. -/
theorem run_writes_target_or_nothing (tree : FileTree) (config : Config) (feature : Feature)
    (trial : Bool) :
    (∀ path, Settles (feature.added? config path) tree path
      (patchFile tree config feature trial path)) ∧
    (∀ path, Settles (formatted? config.style.toStyle) tree path
      (formatFile tree config trial path)) ∧
    ∀ directory, Settles (feature.added? config (config.targetPath directory)) tree
      (config.targetPath directory) (inject tree config feature trial directory) :=
  ⟨fun _ => patchFile_settles, fun _ => formatFile_settles, fun _ => patchFile_settles⟩

end CodeSplice
