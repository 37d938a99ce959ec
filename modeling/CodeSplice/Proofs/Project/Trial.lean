/-
Module: CodeSplice.Proofs.Project.Trial
Purpose: What a trial tells about the run that it stands for, where writing does not fail: it fails with
  the same fault, or it tells the same diagnostics and edits and exactly the text that the run leaves.
  So the commands that only look say what the commands that write would do.
Main exports: Foresees, reviseFile_foresees, Command.perform_check_iff, Command.perform_format_iff
-/
import CodeSplice.Command.Basic
import CodeSplice.Proofs.Project.Frame

namespace CodeSplice

/-- What a trial on the file at a path comes to, and what a run comes to, agree. -/
inductive Foresees (before : FileTree) (path : String) :
    Except Fault FileOutcome × FileTree → Except Fault FileOutcome × FileTree → Prop where
  | failed (fault : Fault) : Foresees before path (.error fault, before) (.error fault, before)
  | skipped :
      Foresees before path (.ok { path, action := .skipped }, before)
        (.ok { path, action := .skipped }, before)
  | unchanged (diagnostics : List Diagnostic) :
      Foresees before path (.ok { path, diagnostics, action := .unchanged }, before)
        (.ok { path, diagnostics, action := .unchanged }, before)
  | written (diagnostics : List Diagnostic) (applied : List AppliedEdit) {source content : String}
      {after : FileTree} (hne : content ≠ source)
      (hafter : before.Rewritten path source content after) :
      Foresees before path (.ok { path, diagnostics, action := .pending applied content }, before)
        (.ok { path, diagnostics, action := .written applied }, after)

variable {tree : FileTree} {config : Config} {feature : Feature} {path directory : String}

/-- A trial compares the new content with the text that it has read, a run with what it reads when it
writes; this is the same text. -/
theorem reviseFile_foresees (h : tree.Writable path) (revise : String → Except Fault Revision) :
    Foresees tree path (reviseFile tree true path revise) (reviseFile tree false path revise) := by
  unfold reviseFile
  cases hread : tree.read path with
  | missing => exact .skipped
  | unreadable => exact .failed _
  | text source =>
    rcases hrevision : revise source with fault | revision
    · simp only [hrevision]
      exact .failed fault
    · simp only [hrevision, if_true, Bool.false_eq_true, if_false]
      rcases FileTree.save_cases hread revision.content with
        ⟨heq, hsave⟩ | ⟨-, hfailed, -⟩ | ⟨hne, after, hsave, hafter⟩
      · rw [hsave, if_pos heq]
        exact .unchanged _
      · rw [h source revision.content hread] at hfailed
        contradiction
      · rw [hsave, if_neg hne]
        exact .written _ _ hne hafter

theorem patchFile_foresees (h : tree.Writable path) :
    Foresees tree path (patchFile tree config feature true path)
      (patchFile tree config feature false path) :=
  reviseFile_foresees h _

theorem formatFile_foresees (h : tree.Writable path) :
    Foresees tree path (formatFile tree config true path) (formatFile tree config false path) :=
  reviseFile_foresees h _

/-! ### The commands -/

/-- Whether the target file of the project in a directory can be written to. -/
def TargetWritable (tree : FileTree) (directory : String) : Prop :=
  ∀ config, Config.load tree directory = .ok config → tree.Writable (config.targetPath directory)

/-- Checking for a feature complains that it is missing exactly if adding it changes the files. -/
theorem Command.perform_check_iff (h : TargetWritable tree directory) :
    ((check directory feature).perform tree).1.code = 1 ∧
        ((check directory feature).perform tree).1.fault = none ↔
      ((inject directory feature false).perform tree).2 ≠ tree := by
  rcases hload : Config.load tree directory with fault | config
  · simp [perform, hload, Reply.ofFault]
  · simp only [perform, hload]
    have hforesees : Foresees tree (config.targetPath directory)
        (CodeSplice.inject tree config feature true directory)
        (CodeSplice.inject tree config feature false directory) :=
      patchFile_foresees (h config hload)
    generalize CodeSplice.inject tree config feature true directory = tried at hforesees ⊢
    generalize CodeSplice.inject tree config feature false directory = done at hforesees ⊢
    cases hforesees with
    | failed fault => simp [Reply.ofFault]
    | skipped => simp [Reply.ofReport, FileOutcome.needsPatch]
    | unchanged diagnostics => simp [Reply.ofReport, FileOutcome.needsPatch]
    | written diagnostics applied hne hafter =>
      simp [Reply.ofReport, FileOutcome.needsPatch, hafter.ne hne]

/-- A file is reported as formatted exactly if formatting it succeeds and changes nothing. -/
theorem Command.perform_format_iff (h : TargetWritable tree directory) :
    ((format directory true).perform tree).1.code = 0 ↔
      ((format directory false).perform tree).1.code = 0 ∧
        ((format directory false).perform tree).2 = tree := by
  rcases hload : Config.load tree directory with fault | config
  · simp [perform, hload, Reply.ofFault]
  · simp only [perform, hload]
    have hforesees : Foresees tree (config.targetPath directory)
        (formatFile tree config true (config.targetPath directory))
        (formatFile tree config false (config.targetPath directory)) :=
      formatFile_foresees (h config hload)
    generalize formatFile tree config true (config.targetPath directory) = tried at hforesees ⊢
    generalize formatFile tree config false (config.targetPath directory) = done at hforesees ⊢
    cases hforesees with
    | failed fault => simp [Reply.ofFault]
    | skipped => simp [Reply.ofFormat]
    | unchanged diagnostics => simp [Reply.ofFormat]
    | written diagnostics applied hne hafter => simp [Reply.ofFormat, hafter.ne hne]

/-- Where writing does not fail, a trial and a run agree, and the commands that only look tell what the
commands that write would do. -/
theorem trial_foresees_run (tree : FileTree) (feature : Feature) :
    (∀ config path, tree.Writable path →
      Foresees tree path (patchFile tree config feature true path)
        (patchFile tree config feature false path) ∧
      Foresees tree path (formatFile tree config true path) (formatFile tree config false path)) ∧
    ∀ directory, TargetWritable tree directory →
      ((((Command.check directory feature).perform tree).1.code = 1 ∧
          ((Command.check directory feature).perform tree).1.fault = none) ↔
        ((Command.inject directory feature false).perform tree).2 ≠ tree) ∧
      (((Command.format directory true).perform tree).1.code = 0 ↔
        ((Command.format directory false).perform tree).1.code = 0 ∧
          ((Command.format directory false).perform tree).2 = tree) :=
  ⟨fun _ _ h => ⟨patchFile_foresees h, formatFile_foresees h⟩,
    fun _ h => ⟨Command.perform_check_iff h, Command.perform_format_iff h⟩⟩

/-- The files of a project whose target file ends without a line end. -/
def unendedFiles : FileTree where
  entries :=
    [ (workingDirectory ++ ["src"], .directory),
      (workingDirectory ++ ["src", "app.ts"], .file (.text "x") 0o644) ]

theorem trial_foresees_run_unendedFile :
    unendedFiles.Writable "src/app.ts" ∧ TargetWritable unendedFiles "" ∧
      (formatFile unendedFiles {} true "src/app.ts").1 =
        .ok { path := "src/app.ts", action := .pending [] "x\n" } ∧
      (formatFile unendedFiles {} false "src/app.ts").2.read "src/app.ts" = .text "x\n" ∧
      (((Command.format "" true).perform unendedFiles).1.code = 0 ↔
        ((Command.format "" false).perform unendedFiles).1.code = 0 ∧
          ((Command.format "" false).perform unendedFiles).2 = unendedFiles) := by
  have hwritable : ∀ path, unendedFiles.Writable path := FileTree.writable_of_refusals_eq_nil rfl
  have htarget : TargetWritable unendedFiles "" := fun config _ => hwritable _
  have htrial : (formatFile unendedFiles {} true "src/app.ts").1 =
      .ok { path := "src/app.ts", action := .pending [] "x\n" } := by
    decide +kernel
  obtain ⟨hfiles, hcommands⟩ := trial_foresees_run unendedFiles .apiDocs
  refine ⟨hwritable _, htarget, htrial, ?_, (hcommands "" htarget).2⟩
  have hforesees := (hfiles {} "src/app.ts" (hwritable _)).2
  generalize formatFile unendedFiles {} true "src/app.ts" = tried at htrial hforesees
  generalize formatFile unendedFiles {} false "src/app.ts" = done at hforesees ⊢
  cases hforesees with
  | written diagnostics applied hne hafter =>
    obtain ⟨-, -, rfl⟩ : diagnostics = [] ∧ applied = [] ∧ _ = "x\n" := by simpa using htrial
    exact hafter.read_after
  | _ => simp at htrial

end CodeSplice
