/-
Module: CodeSplice.Proofs.Files.Replacing
Purpose: Replacing a file at a path that can be read. The way to it leads through directories that
  exist, so no directory is made for it: either the file has the new content and nothing else is
  changed, or nothing is changed at all. It has the new content exactly if the system refuses no step.
Main exports: FileTree.makeRoom_of_file, FileTree.replace_cases, FileTree.Rewritten,
  FileTree.Writable, FileTree.replace_fst_iff
-/
import CodeSplice.Proofs.Files.Tree
import Mathlib.Data.List.Nodup
import Mathlib.Data.List.Perm.Subperm
import Mathlib.Data.String.Basic

namespace CodeSplice

namespace FileTree

variable {tree : FileTree} {place found : Place} {path name : String} {parts : List String}

/-! ### The way to a file -/

/-- Everything above a place is a directory. -/
def Reached (tree : FileTree) (place : Place) : Prop :=
  ∀ above, above <+: place → above ≠ place → tree.isDirectory above = true

/-- Paths start from places that are always there. -/
theorem reached_startOf (tree : FileTree) (path : String) : tree.Reached (startOf path) := by
  intro above habove _
  have hfront : above <+: workingDirectory := by
    unfold startOf at habove
    split at habove
    · rw [List.prefix_nil.1 habove]
      exact List.nil_prefix
    · exact habove
  simp [isDirectory, node?, hfront]

theorem isDirectory_startOf (tree : FileTree) (path : String) :
    tree.isDirectory (startOf path) = true := by
  have hfront : startOf path <+: workingDirectory := by
    unfold startOf
    split
    · exact List.nil_prefix
    · exact List.prefix_refl _
  simp [isDirectory, node?, hfront]

theorem Reached.below (h : tree.Reached place) (hdirectory : tree.isDirectory place = true)
    (part : String) : tree.Reached (place ++ [part]) := by
  intro above habove hne
  rcases List.prefix_concat_iff.1 habove with heq | hfront
  · exact absurd heq hne
  · by_cases hplace : above = place
    · rwa [hplace]
    · exact h above hfront hplace

theorem Reached.above (h : tree.Reached place) : tree.Reached place.dropLast := by
  intro above habove hne
  refine h above (habove.trans (List.dropLast_prefix place)) ?_
  rintro rfl
  exact hne (habove.eq_of_length_le (by simp))

theorem Reached.isDirectory_above (h : tree.Reached place)
    (hdirectory : tree.isDirectory place = true) : tree.isDirectory place.dropLast = true := by
  by_cases hplace : place.dropLast = place
  · rwa [hplace]
  · exact h _ (List.dropLast_prefix place) hplace

/-- Whatever a path leads to, its steps start from a directory. -/
theorem isDirectory_of_follow (h : tree.follow place parts = .existing found)
    (hparts : parts ≠ []) : tree.isDirectory place = true := by
  cases parts with
  | nil => contradiction
  | cons part parts =>
    rw [follow] at h
    split at h
    · contradiction
    · rename_i hdirectory
      simpa using hdirectory

/-- No directory is made on the way to a file, and the last step to it is its name. -/
theorem makeDirectories_of_follow (h : tree.Reached place)
    (hfollow : tree.follow place (parts ++ [name]) = .existing found)
    (hfile : tree.isDirectory found = false) :
    name ≠ ".." ∧ isName name = true ∧
      ∃ directory, tree.makeDirectories place parts = (some directory, tree) ∧
        found = directory ++ [name] := by
  induction parts generalizing place with
  | nil =>
    rw [List.nil_append, follow] at hfollow
    split at hfollow
    · contradiction
    · rename_i hdirectory
      have hdirectory : tree.isDirectory place = true := by simpa using hdirectory
      split at hfollow
      · -- A step upwards leads to a directory.
        rw [follow, Target.existing.injEq] at hfollow
        rw [← hfollow, h.isDirectory_above hdirectory] at hfile
        contradiction
      · rename_i hname
        split at hfollow
        · contradiction
        · rename_i hshort
          split at hfollow
          · rw [follow, Target.existing.injEq] at hfollow
            exact ⟨by simpa using hname, by simpa using hshort, place, rfl, hfollow.symm⟩
          · contradiction
  | cons part parts ih =>
    rw [List.cons_append, follow] at hfollow
    split at hfollow
    · contradiction
    · rename_i hdirectory
      have hdirectory : tree.isDirectory place = true := by simpa using hdirectory
      rw [makeDirectories]
      split at hfollow
      · rename_i hpart
        rw [if_pos hpart]
        exact ih h.above hfollow
      · rename_i hpart
        rw [if_neg hpart]
        split at hfollow
        · contradiction
        · rename_i hshort
          rw [if_neg hshort]
          split at hfollow
          · have hnext : tree.node? (place ++ [part]) = some .directory := by
              have := isDirectory_of_follow hfollow (by simp)
              simpa [isDirectory] using this
            simp only [hnext]
            exact ih (h.below hdirectory part) hfollow
          · split at hfollow <;> contradiction

/-- What is at the path of a file that can be read. -/
theorem read_eq_text_iff {source : String} :
    tree.read path = .text source ↔
      ∃ place mode, tree.resolve path = .existing place ∧
        tree.node? place = some (.file (.text source) mode) ∧
        asksForDirectory path = false ∧ tree.refuses place .read = false := by
  unfold read
  constructor
  · intro h
    split at h
    · rename_i place hplace
      split at h
      · rename_i text mode hnode
        split at h
        · contradiction
        · rename_i hopen
          obtain rfl := ReadResult.text.inj h
          rw [Bool.or_eq_true, not_or, Bool.not_eq_true, Bool.not_eq_true] at hopen
          exact ⟨place, mode, hplace, hnode, hopen⟩
      · contradiction
    all_goals contradiction
  · rintro ⟨place, mode, hplace, hnode, hasks, hrefuses⟩
    simp [hplace, hnode, hasks, hrefuses]

/-! ### Paths and the directories above them -/

theorem dropStandstill_suffix (cs : List Char) : dropStandstill cs <:+ cs := by
  fun_induction dropStandstill cs with
  | case1 cs ih => exact ih.trans (List.suffix_cons _ _)
  | case2 cs ih => exact ih.trans ((List.suffix_cons _ _).trans (List.suffix_cons _ _))
  | case3 cs => exact List.suffix_refl _

/-- The beginning of a path that can be asked for can be asked for. -/
theorem isSpeakable_of_prefix {front : List Char} (h : isSpeakable path = true)
    (hfront : front <+: path.toList) : isSpeakable (String.ofList front) = true := by
  unfold isSpeakable at h ⊢
  rw [Bool.and_eq_true, decide_eq_true_eq, List.all_eq_true] at h ⊢
  obtain ⟨hlength, hall⟩ := h
  obtain ⟨back, hback⟩ := hfront
  have hsize : (String.ofList front).utf8ByteSize ≤ path.utf8ByteSize := by
    rw [← String.ofList_toList (s := path), ← hback, String.ofList_append,
      String.utf8ByteSize_append]
    exact Nat.le_add_right _ _
  refine ⟨Nat.le_trans hsize hlength, fun c hc => hall c ?_⟩
  rw [← hback]
  exact List.mem_append_left _ (by simpa using hc)

theorem isSpeakable_parentPath (h : isSpeakable path = true) :
    isSpeakable (parentPath path) = true := by
  simp only [parentPath]
  split
  · decide
  · refine isSpeakable_of_prefix h ?_
    rw [← List.reverse_suffix, List.reverse_reverse]
    exact (dropStandstill_suffix _).trans
      ((List.dropWhile_suffix _).trans (dropStandstill_suffix _))

/-- No room has to be made for a file that is there. -/
theorem makeRoom_of_file (hplace : tree.resolve path = .existing place)
    (hfile : tree.isDirectory place = false) (hasks : asksForDirectory path = false) :
    tree.makeRoom path = (some place, tree) := by
  unfold resolve at hplace
  split at hplace
  · contradiction
  · rename_i hspeakable
    have hspeakable : isSpeakable path = true := by simpa using hspeakable
    split at hplace
    · contradiction
    · unfold makeRoom
      cases hparts : (pathParts path).reverse with
      | nil =>
        -- Such a path leads to where it starts from.
        rw [List.reverse_eq_nil_iff.1 hparts, follow, Target.existing.injEq] at hplace
        rw [← hplace, isDirectory_startOf] at hfile
        contradiction
      | cons name above =>
        have hparts : pathParts path = above.reverse ++ [name] := by
          rw [← List.reverse_reverse (pathParts path), hparts, List.reverse_cons]
        rw [hparts] at hplace
        obtain ⟨hup, hshort, directory, hmade, rfl⟩ :=
          makeDirectories_of_follow (tree.reached_startOf path) hplace hfile
        simp [isSpeakable_parentPath hspeakable, hmade, hup, hshort, hasks, hspeakable]

/-- A file that can be read is given the new content as a whole, or nothing is changed. -/
theorem replace_cases {source : String} (h : tree.read path = .text source) (content : String) :
    ∃ place mode, tree.resolve path = .existing place ∧
      tree.node? place = some (.file (.text source) mode) ∧
      (tree.replace path content = (false, tree) ∨
        tree.replace path content = (true, tree.put place (.file (.text content) mode))) := by
  obtain ⟨place, mode, hplace, hnode, hasks, -⟩ := read_eq_text_iff.1 h
  have hroom := makeRoom_of_file hplace (by simp [isDirectory, hnode]) hasks
  have hmode : tree.modeAt place = mode := by simp [modeAt, hnode]
  refine ⟨place, mode, hplace, hnode, ?_⟩
  rw [← hmode]
  simpa [replace, hroom] using tree.install_cases place content

/-! ### The files with another content at a path -/

/-- Where a path leads depends only on what is a directory and where anything is. -/
theorem follow_congr {after : FileTree}
    (hdirectory : ∀ place, after.isDirectory place = tree.isDirectory place)
    (hsome : ∀ place, (after.node? place).isSome = (tree.node? place).isSome)
    (place : Place) (parts : List String) : after.follow place parts = tree.follow place parts := by
  induction parts generalizing place with
  | nil => rfl
  | cons part parts ih => simp only [follow, hdirectory, hsome, ih]

/-- The files `after` are those `before`, but for the text file at a path: this has the text `content`
in place of `source`, and its permission bits. -/
structure Rewritten (before : FileTree) (path source content : String) (after : FileTree) : Prop where
  read_before : before.read path = .text source
  read_after : after.read path = .text content
  only : ∃ place mode, before.resolve path = .existing place ∧
    before.node? place = some (.file (.text source) mode) ∧
    after.node? place = some (.file (.text content) mode) ∧
    ∀ elsewhere, elsewhere ≠ place → after.node? elsewhere = before.node? elsewhere

/-- Putting a text in the place of the one that can be read at a path. -/
theorem rewritten_put {source content : String} {mode : Nat} (h : tree.read path = .text source)
    (hplace : tree.resolve path = .existing place)
    (hnode : tree.node? place = some (.file (.text source) mode)) :
    tree.Rewritten path source content (tree.put place (.file (.text content) mode)) := by
  have hput : ∀ elsewhere, (tree.put place (.file (.text content) mode)).node? elsewhere =
      if elsewhere = place then some (.file (.text content) mode) else tree.node? elsewhere :=
    fun _ => node?_put (not_isPrefixOf_of_file hnode)
  have hresolve : (tree.put place (.file (.text content) mode)).resolve path =
      .existing place := by
    unfold resolve at hplace ⊢
    rw [follow_congr (fun elsewhere => ?_) (fun elsewhere => ?_), hplace]
    · unfold isDirectory
      rw [hput]
      split
      · simp [*]
      · rfl
    · rw [hput]
      split
      · simp [*]
      · rfl
  obtain ⟨place', -, hplace', -, hasks, hrefuses⟩ := read_eq_text_iff.1 h
  obtain rfl : place' = place := Target.existing.inj (hplace'.symm.trans hplace)
  refine ⟨h, read_eq_text_iff.2 ⟨place', mode, hresolve, ?_, hasks, ?_⟩,
    place', mode, hplace, hnode, ?_, fun elsewhere helse => ?_⟩
  · rw [hput, if_pos rfl]
  · simpa [refuses] using hrefuses
  · rw [hput, if_pos rfl]
  · rw [hput, if_neg helse]

/-- Another text makes other files. -/
theorem Rewritten.ne {before after : FileTree} {source content : String}
    (h : before.Rewritten path source content after) (hne : content ≠ source) : after ≠ before := by
  rintro rfl
  exact hne (ReadResult.text.inj (h.read_after.symm.trans h.read_before))

/-! ### Writing that does not fail -/

/-- Whether the text at a path, if there is one, can be replaced by any other. -/
def Writable (tree : FileTree) (path : String) : Prop :=
  ∀ source content, tree.read path = .text source → (tree.replace path content).1 = true

theorem temporaryPlace_injective (place : Place) : Function.Injective (temporaryPlace place) := by
  intro number other h
  have hnames : ".tmp" ++ toString number = ".tmp" ++ toString other := by
    simpa [temporaryPlace] using h
  have hdigits : (toString number).toList = (toString other).toList := by
    rw [String.ext_iff, String.toList_append, String.toList_append] at hnames
    exact List.append_cancel_left hnames
  calc number = Nat.ofDigitChars 10 (toString number).toList 0 := by simp [Nat.toList_repr]
    _ = Nat.ofDigitChars 10 (toString other).toList 0 := by rw [hdigits]
    _ = other := by simp [Nat.toList_repr]

/-- A temporary file is not above the working directory. -/
theorem not_isPrefixOf_temporaryPlace (place : Place) (number : Nat) :
    (temporaryPlace place number).isPrefixOf workingDirectory = false := by
  rw [Bool.eq_false_iff]
  intro hfront
  have hmem : ".tmp" ++ toString number ∈ workingDirectory :=
    (List.isPrefixOf_iff_prefix.1 hfront).subset (by simp [temporaryPlace])
  simp [workingDirectory] at hmem

/-- There is always a place for a temporary file: more names are tried than there are entries. -/
theorem isSome_sparePlace? (tree : FileTree) (place : Place) :
    (tree.sparePlace? place).isSome = true := by
  rw [← Option.ne_none_iff_isSome]
  intro hnone
  have htaken : ∀ number < tree.entries.length + 1,
      (tree.node? (temporaryPlace place number)).isSome = true := by
    simpa [sparePlace?, Option.isSome_iff_ne_none] using hnone
  have hsubset : (List.range (tree.entries.length + 1)).map (temporaryPlace place) ⊆
      tree.entries.map Prod.fst := by
    intro spare hspare
    obtain ⟨number, hnumber, rfl⟩ := List.mem_map.1 hspare
    have hsome := htaken number (List.mem_range.1 hnumber)
    rw [node?_eq, if_neg (by simp [not_isPrefixOf_temporaryPlace]),
      ← Option.ne_none_iff_isSome, Ne, lookup?_eq_none_iff] at hsome
    push Not at hsome
    exact List.mem_map.2 hsome
  have hnodup : ((List.range (tree.entries.length + 1)).map (temporaryPlace place)).Nodup :=
    List.nodup_range.map (temporaryPlace_injective place)
  have hlength := (hnodup.subperm hsubset).length_le
  simp at hlength

@[simp] theorem refusals_take {spare : Place} {content : String} {step : SavingStep} :
    (tree.take spare place content step).refusals = tree.refusals := by
  cases step <;> simp only [take] <;> (try split) <;> simp

/-- A step before the last one bars none that comes after it. -/
theorem bars_take {spare : Place} {content : String} {step : SavingStep} (h : step ≠ .move)
    (hspare : place ≠ spare) (next : SavingStep) :
    (tree.take spare place content step).bars place next = tree.bars place next := by
  have hnode : (tree.take spare place content step).node? place = tree.node? place := by
    rw [← node?_unlink hspare, unlink_take h, node?_unlink hspare]
  simp only [bars, refuses, isDirectory, refusals_take, hnode]

/-- All steps are taken exactly where none is barred. -/
theorem takeSteps_fst_iff {spare : Place} {content : String} {steps : List SavingStep}
    (hsteps : ∀ step ∈ steps, step ≠ .move) (hspare : place ≠ spare) :
    (tree.takeSteps spare place content (steps ++ [.move])).1 = true ↔
      ∀ step ∈ steps ++ [.move], tree.bars place step = false := by
  induction steps generalizing tree with
  | nil => cases hbars : tree.bars place .move <;> simp [takeSteps, hbars]
  | cons step steps ih =>
    rw [List.cons_append, takeSteps]
    split
    · rename_i hbars
      simp [hbars]
    · rename_i hbars
      rw [ih fun other hother => hsteps other (by simp [hother])]
      simp [bars_take (hsteps step (by simp)) hspare, hbars]

/-- A text can be replaced exactly if the system refuses no step of putting a file in its place. -/
theorem replace_fst_iff {source content : String} {mode : Nat}
    (hplace : tree.resolve path = .existing place)
    (hnode : tree.node? place = some (.file (.text source) mode))
    (hasks : asksForDirectory path = false) :
    (tree.replace path content).1 = true ↔ ∀ step, tree.refuses place (.save step) = false := by
  have hfile : tree.isDirectory place = false := by simp [isDirectory, hnode]
  obtain ⟨spare, hspare⟩ := Option.isSome_iff_exists.1 (tree.isSome_sparePlace? place)
  have hne : place ≠ spare := by
    rintro rfl
    have hfree : tree.node? place = none := by simpa using List.find?_some hspare
    simp [hnode] at hfree
  have hsteps : ∀ step ∈ [SavingStep.create, .fill, .flush, .permit], step ≠ .move := by decide
  have hall : (tree.takeSteps spare place content SavingStep.all).1 = true ↔
      ∀ step ∈ SavingStep.all, tree.bars place step = false := takeSteps_fst_iff hsteps hne
  have hinstall : (tree.install place content).1 =
      (tree.takeSteps spare place content SavingStep.all).1 := by
    simp only [install, hspare]
    split <;> simp [*]
  rw [replace, makeRoom_of_file hplace hfile hasks]
  simp only [hinstall, hall, bars, hfile, Bool.and_false, Bool.or_false]
  exact ⟨fun h step => h step (by cases step <;> decide), fun h step _ => h step⟩

/-- If the system refuses nothing, every text that can be read can be replaced. -/
theorem writable_of_refusals_eq_nil (h : tree.refusals = []) (path : String) :
    tree.Writable path := by
  intro source content hread
  obtain ⟨place, mode, hplace, hnode, hasks, -⟩ := read_eq_text_iff.1 hread
  rw [replace_fst_iff hplace hnode hasks]
  simp [refuses, h]

end FileTree

end CodeSplice
