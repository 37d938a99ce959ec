/-
Module: CodeSplice.Proofs.Files.Tree
Purpose: What putting a file at a place does to the files. The steps up to the last one touch the
  temporary file only, so without it the files are as they were, and the last one takes it away.
  So a file is put at its place as a whole, with nothing else changed, or nothing is changed.
Main exports: FileTree.node?_put, FileTree.unlink_takeSteps, FileTree.install_cases
-/
import CodeSplice.Files.Tree
import Mathlib.Data.List.Basic

namespace CodeSplice

namespace FileTree

variable {tree : FileTree} {place elsewhere spare : Place} {node : Node} {content : String}

/-! ### Looking up a place -/

/-- What entries say about a place. -/
def lookup? (entries : List (Place × Node)) (place : Place) : Option Node :=
  (entries.find? (·.1 == place)).map (·.2)

@[simp] theorem lookup?_nil : lookup? [] place = none := rfl

@[simp] theorem lookup?_cons (entry : Place × Node) (entries : List (Place × Node)) :
    lookup? (entry :: entries) place =
      if entry.1 = place then some entry.2 else lookup? entries place := by
  unfold lookup?
  rw [List.find?_cons]
  split <;> simp_all

theorem lookup?_eq_none_iff {entries : List (Place × Node)} :
    lookup? entries place = none ↔ ∀ entry ∈ entries, entry.1 ≠ place := by
  simp [lookup?]

theorem lookup?_append (front back : List (Place × Node)) :
    lookup? (front ++ back) place = (lookup? front place).or (lookup? back place) := by
  induction front with
  | nil => rfl
  | cons entry front ih =>
    rw [List.cons_append, lookup?_cons, lookup?_cons]
    split <;> simp [ih]

/-- Entries that are replaced where they are. -/
theorem lookup?_map (entries : List (Place × Node)) :
    lookup? (entries.map fun entry => if entry.1 == place then (place, node) else entry) elsewhere =
      if elsewhere = place then (lookup? entries place).map fun _ => node
      else lookup? entries elsewhere := by
  induction entries with
  | nil => simp
  | cons entry entries ih =>
    rw [List.map_cons, lookup?_cons, lookup?_cons, lookup?_cons, ih]
    by_cases hentry : entry.1 = place
    · by_cases helse : elsewhere = place
      · simp [hentry, helse]
      · simp [hentry, helse, Ne.symm helse]
    · by_cases helse : elsewhere = place
      · simp [hentry, helse]
      · simp [hentry, helse]

theorem lookup?_filter (entries : List (Place × Node)) :
    lookup? (entries.filter (·.1 != place)) elsewhere =
      if elsewhere = place then none else lookup? entries elsewhere := by
  split
  · rename_i helse
    rw [lookup?_eq_none_iff]
    intro entry hentry
    simpa [helse] using (List.mem_filter.1 hentry).2
  · rename_i helse
    induction entries with
    | nil => rfl
    | cons entry entries ih =>
      rw [List.filter_cons, lookup?_cons]
      by_cases hentry : entry.1 = place
      · simp [hentry, ih, Ne.symm helse]
      · simp [hentry, ih]

theorem node?_eq : tree.node? place =
    if place.isPrefixOf workingDirectory then some .directory else lookup? tree.entries place := rfl

/-- A file is not above the working directory. -/
theorem not_isPrefixOf_of_file {content : Content} {mode : Nat}
    (h : tree.node? place = some (.file content mode)) :
    place.isPrefixOf workingDirectory = false := by
  rw [Bool.eq_false_iff]
  intro hfront
  simp [node?, hfront] at h

/-- Where nothing is, there is no entry, and it is not above the working directory. -/
theorem free_of_node?_eq_none (h : tree.node? place = none) :
    place.isPrefixOf workingDirectory = false ∧ ∀ entry ∈ tree.entries, entry.1 ≠ place := by
  rw [node?_eq] at h
  split at h
  · contradiction
  · rename_i hfront
    exact ⟨Bool.eq_false_iff.2 hfront, lookup?_eq_none_iff.1 h⟩

/-! ### Putting and taking away -/

@[simp] theorem refusals_put : (tree.put place node).refusals = tree.refusals := by
  unfold put
  split <;> rfl

@[simp] theorem refusals_unlink : (tree.unlink place).refusals = tree.refusals := rfl

/-- What is put at a place is there, and nothing else has changed. -/
theorem node?_put (h : place.isPrefixOf workingDirectory = false) :
    (tree.put place node).node? elsewhere =
      if elsewhere = place then some node else tree.node? elsewhere := by
  have hlookup : lookup? (tree.put place node).entries elsewhere =
      if elsewhere = place then some node else lookup? tree.entries elsewhere := by
    unfold put
    split
    · rename_i hany
      obtain ⟨entry, hentry, hplace⟩ := List.any_eq_true.1 hany
      obtain ⟨old, hold⟩ : ∃ old, lookup? tree.entries place = some old := by
        rw [← Option.ne_none_iff_exists']
        exact fun hnone => lookup?_eq_none_iff.1 hnone entry hentry (by simpa using hplace)
      simp only [lookup?_map, hold, Option.map_some]
    · rename_i hany
      have hnone : lookup? tree.entries place = none :=
        lookup?_eq_none_iff.2 fun entry hentry hplace =>
          hany (List.any_eq_true.2 ⟨entry, hentry, by simpa using hplace⟩)
      simp only [lookup?_append, lookup?_cons, lookup?_nil]
      by_cases helse : elsewhere = place
      · simp [helse, hnone]
      · simp [helse, Ne.symm helse]
  rw [node?_eq, node?_eq, hlookup]
  by_cases helse : elsewhere = place
  · simp [helse, h]
  · simp [helse]

/-- Nothing else is lost with a file. -/
theorem node?_unlink (h : elsewhere ≠ place) :
    (tree.unlink place).node? elsewhere = tree.node? elsewhere := by
  rw [node?_eq, node?_eq]
  simp only [unlink, lookup?_filter, if_neg h]

/-- What was put at a place is taken away like what was there before. -/
theorem unlink_put : (tree.put place node).unlink place = tree.unlink place := by
  have hmap : ∀ entries : List (Place × Node),
      (entries.map fun entry => if entry.1 == place then (place, node) else entry).filter
        (·.1 != place) = entries.filter (·.1 != place) := by
    intro entries
    induction entries with
    | nil => rfl
    | cons entry entries ih =>
      rw [List.map_cons, List.filter_cons, List.filter_cons, ih]
      by_cases hentry : entry.1 = place <;> simp [hentry]
  unfold put
  split
  · simp only [unlink, hmap]
  · simp [unlink]

theorem unlink_of_node?_eq_none (h : tree.node? place = none) : tree.unlink place = tree := by
  have hfree := (free_of_node?_eq_none h).2
  unfold unlink
  rw [List.filter_eq_self.2]
  simpa using hfree

/-! ### The steps of putting a file in place -/

section

variable {step : SavingStep} {steps : List SavingStep}

/-- The steps up to the last one touch the temporary file only. -/
theorem unlink_take (h : step ≠ .move) :
    (tree.take spare place content step).unlink spare = tree.unlink spare := by
  cases step with
  | create => exact unlink_put
  | fill => exact unlink_put
  | flush => rfl
  | permit =>
    simp only [take]
    split
    · exact unlink_put
    · rfl
  | move => contradiction

/-- Steps that end early have touched the temporary file only. -/
theorem unlink_takeSteps (hsteps : ∀ step ∈ steps, step ≠ .move)
    (hfailed : (tree.takeSteps spare place content (steps ++ [.move])).1 = false) :
    (tree.takeSteps spare place content (steps ++ [.move])).2.unlink spare = tree.unlink spare := by
  induction steps generalizing tree with
  | nil =>
    rw [List.nil_append, takeSteps] at hfailed ⊢
    split at hfailed
    · rename_i hbars
      rw [if_pos hbars]
    · simp [takeSteps] at hfailed
  | cons step steps ih =>
    rw [List.cons_append, takeSteps] at hfailed ⊢
    split at hfailed
    · rename_i hbars
      rw [if_pos hbars]
    · rename_i hbars
      rw [if_neg hbars, ih (fun other hother => hsteps other (by simp [hother])) hfailed]
      exact unlink_take (hsteps step (by simp))

/-- Steps that are all taken are taken one after another. -/
theorem takeSteps_of_done (h : (tree.takeSteps spare place content steps).1 = true) :
    (tree.takeSteps spare place content steps).2 =
      steps.foldl (fun tree step => tree.take spare place content step) tree := by
  induction steps generalizing tree with
  | nil => rfl
  | cons step steps ih =>
    rw [takeSteps] at h ⊢
    split at h
    · contradiction
    · rename_i hbars
      rw [if_neg hbars, ih h, List.foldl_cons]

end

/-- The last step takes the temporary file away and puts it at its place. -/
theorem take_move (h : tree.node? spare = some node) :
    tree.take spare place content .move = (tree.unlink spare).put place node := by
  simp only [take, h]

/-- The permission bits of a file that is put at a place. -/
def modeAt (tree : FileTree) (place : Place) : Nat :=
  match tree.node? place with
  | some (.file _ mode) => mode
  | _ => newFileMode

/-- The files with the content in a temporary file. -/
def drafted (tree : FileTree) (spare : Place) (content : String) : FileTree :=
  (tree.put spare (.file (.text "") newFileMode)).put spare (.file (.text content) newFileMode)

theorem unlink_drafted (hfree : tree.node? spare = none) :
    (tree.drafted spare content).unlink spare = tree := by
  rw [drafted, unlink_put, unlink_put, unlink_of_node?_eq_none hfree]

theorem node?_drafted (hfree : tree.node? spare = none) :
    (tree.drafted spare content).node? spare = some (.file (.text content) newFileMode) := by
  rw [drafted, node?_put (free_of_node?_eq_none hfree).1, if_pos rfl]

/-- The temporary file gets the permission bits of the file that it replaces. -/
theorem node?_take_permit (hfree : tree.node? spare = none) :
    ((tree.drafted spare content).take spare place content .permit).node? spare =
      some (.file (.text content) (tree.modeAt place)) := by
  have hfront := (free_of_node?_eq_none hfree).1
  by_cases hplace : place = spare
  · subst hplace
    simp only [take, node?_drafted hfree, node?_put hfront, if_pos, modeAt, hfree]
  · have hold : (tree.drafted spare content).node? place = tree.node? place := by
      rw [← node?_unlink hplace, unlink_drafted hfree]
    simp only [take, modeAt, hold]
    cases tree.node? place with
    | none => exact node?_drafted hfree
    | some node =>
      cases node with
      | directory => exact node?_drafted hfree
      | file _ mode => simp only [node?_put hfront, if_pos]

/-- All steps together put the content at the place, and nothing else is changed. -/
theorem foldl_take (hfree : tree.node? spare = none) :
    SavingStep.all.foldl (fun tree step => tree.take spare place content step) tree =
      tree.put place (.file (.text content) (tree.modeAt place)) := by
  have hbefore : ((tree.drafted spare content).take spare place content .permit).unlink spare =
      tree := by
    rw [unlink_take (by decide), unlink_drafted hfree]
  calc SavingStep.all.foldl (fun tree step => tree.take spare place content step) tree
      = ((tree.drafted spare content).take spare place content .permit).take spare place content
          .move := rfl
    _ = (((tree.drafted spare content).take spare place content .permit).unlink spare).put place
          (.file (.text content) (tree.modeAt place)) := take_move (node?_take_permit hfree)
    _ = tree.put place (.file (.text content) (tree.modeAt place)) := by rw [hbefore]

/-- Putting a file in place is done as a whole, or nothing is changed. -/
theorem install_cases (tree : FileTree) (place : Place) (content : String) :
    tree.install place content = (false, tree) ∨
      tree.install place content =
        (true, tree.put place (.file (.text content) (tree.modeAt place))) := by
  unfold install
  cases hspare : tree.sparePlace? place with
  | none => exact .inl rfl
  | some spare =>
    have hfree : tree.node? spare = none := by
      simpa using List.find?_some hspare
    rcases htaken : tree.takeSteps spare place content SavingStep.all with ⟨done, after⟩
    cases done with
    | true =>
      right
      have hafter : after = tree.put place (.file (.text content) (tree.modeAt place)) := by
        rw [← foldl_take hfree, ← takeSteps_of_done (congrArg Prod.fst htaken), htaken]
      simp only [htaken, hafter]
    | false =>
      left
      have hrest : (tree.takeSteps spare place content
          ([.create, .fill, .flush, .permit] ++ [.move])).2.unlink spare = tree.unlink spare :=
        unlink_takeSteps (by decide) (congrArg Prod.fst htaken)
      have hafter : after.unlink spare = tree := by
        rw [← unlink_of_node?_eq_none hfree, ← hrest]
        exact congrArg (fun taken => taken.2.unlink spare) htaken.symm
      simp only [htaken, hafter]

end FileTree

end CodeSplice
