/-
Module: CodeSplice.Proofs.Text.Said
Purpose: What a text says when indentation and white space at the ends of lines do not count: its lines,
  trimmed. White space in front of a text adds empty lines only, one for each line feed in it.
Main exports: White, splitLines_joinLines, said, said_white_append, ended_white_append, squeezed
-/
import CodeSplice.Text.Lines
import CodeSplice.Text.Space

namespace CodeSplice.Text

/-! ### White space -/

/-- Nothing but white space. -/
def White (cs : List Char) : Prop :=
  ∀ c ∈ cs, isSpace c = true

@[simp] theorem white_nil : White [] := by
  simp [White]

@[simp] theorem white_cons {c : Char} {cs : List Char} :
    White (c :: cs) ↔ isSpace c = true ∧ White cs := by
  simp [White]

@[simp] theorem white_append {cs ds : List Char} : White (cs ++ ds) ↔ White cs ∧ White ds := by
  simp [White, or_imp, forall_and]

theorem white_replicate {c : Char} (h : isSpace c = true) (count : Nat) :
    White (List.replicate count c) := by
  intro d hd
  rw [List.eq_of_mem_replicate hd]
  exact h

@[simp] theorem trimStart_nil : trimStart [] = [] := rfl

@[simp] theorem trimEnd_nil : trimEnd [] = [] := rfl

@[simp] theorem trim_nil : trim [] = [] := rfl

theorem trimStart_cons_of_space {c : Char} {cs : List Char} (h : isSpace c = true) :
    trimStart (c :: cs) = trimStart cs := by
  simp [trimStart, h]

theorem trimStart_cons_of_not_space {c : Char} {cs : List Char} (h : isSpace c = false) :
    trimStart (c :: cs) = c :: cs := by
  simp [trimStart, h]

theorem trimStart_white_append {w cs : List Char} (h : White w) :
    trimStart (w ++ cs) = trimStart cs := by
  induction w with
  | nil => rfl
  | cons c w ih =>
    obtain ⟨hc, hw⟩ := white_cons.1 h
    rw [List.cons_append, trimStart_cons_of_space hc, ih hw]

theorem trimEnd_append_white {w cs : List Char} (h : White w) :
    trimEnd (cs ++ w) = trimEnd cs := by
  have hrev : White w.reverse := fun c hc => h c (List.mem_reverse.1 hc)
  have := @trimStart_white_append _ cs.reverse hrev
  simp only [trimStart] at this
  simp only [trimEnd, List.reverse_append, this]

/-- A text is what trimming leaves, and white space. -/
theorem exists_trimEnd (cs : List Char) : ∃ w, cs = trimEnd cs ++ w ∧ White w := by
  refine ⟨(cs.reverse.takeWhile isSpace).reverse, ?_, fun c hc => ?_⟩
  · rw [trimEnd, ← List.reverse_append, List.takeWhile_append_dropWhile, List.reverse_reverse]
  · exact List.all_eq_true.1 List.all_takeWhile c (List.mem_reverse.1 hc)

theorem exists_trimStart (cs : List Char) : ∃ w, cs = w ++ trimStart cs ∧ White w :=
  ⟨cs.takeWhile isSpace, List.takeWhile_append_dropWhile.symm,
    fun c hc => List.all_eq_true.1 List.all_takeWhile c hc⟩

/-- A character in front of a text stays when the end is trimmed, unless the text is trimmed away and
it is white space itself. -/
theorem trimEnd_cons (c : Char) (cs : List Char) :
    trimEnd (c :: cs) = if isSpace c ∧ trimEnd cs = [] then [] else c :: trimEnd cs := by
  obtain ⟨w, hcs, hw⟩ := exists_trimEnd cs
  have hlast : ∀ d, (trimEnd cs).getLast? = some d → isSpace d = false :=
    fun d hd => not_isSpace_getLast_trimEnd hd
  generalize trimEnd cs = ds at hcs hlast
  subst hcs
  rw [← List.cons_append, trimEnd_append_white hw]
  by_cases hnil : ds = []
  · subst hnil
    cases hc : isSpace c <;> simp [trimEnd, hc]
  · obtain ⟨front, last, rfl⟩ : ∃ front last, ds = front ++ [last] :=
      ⟨_, _, (List.dropLast_concat_getLast hnil).symm⟩
    simp [trimEnd, hlast last (by simp)]

@[simp] theorem trimEnd_trimEnd (cs : List Char) : trimEnd (trimEnd cs) = trimEnd cs := by
  obtain ⟨w, hcs, hw⟩ := exists_trimEnd cs
  have h := congrArg trimEnd hcs
  rw [trimEnd_append_white hw] at h
  exact h.symm

/-- Trimming from the front and from the back are independent. -/
theorem trim_eq_trimStart (cs : List Char) : trim cs = trimStart (trimEnd cs) := by
  unfold trim
  induction cs with
  | nil => rfl
  | cons c cs ih =>
    cases hc : isSpace c with
    | true =>
      rw [trimStart_cons_of_space hc, ih, trimEnd_cons]
      split
      · rename_i h
        rw [h.2]
      · rw [trimStart_cons_of_space hc]
    | false =>
      rw [trimStart_cons_of_not_space hc, trimEnd_cons, if_neg (by simp [hc]),
        trimStart_cons_of_not_space hc]

@[simp] theorem trim_trimEnd (cs : List Char) : trim (trimEnd cs) = trim cs := by
  rw [trim_eq_trimStart, trim_eq_trimStart, trimEnd_trimEnd]

/-- The characters of a text that are not white space. -/
def solid (cs : List Char) : List Char :=
  cs.filter fun c => !isSpace c

@[simp] theorem solid_append (cs ds : List Char) : solid (cs ++ ds) = solid cs ++ solid ds := by
  simp [solid]

theorem solid_of_white {cs : List Char} (h : White cs) : solid cs = [] := by
  simpa [solid, List.filter_eq_nil_iff, White] using h

theorem solid_trimEnd (cs : List Char) : solid (trimEnd cs) = solid cs := by
  obtain ⟨w, hcs, hw⟩ := exists_trimEnd cs
  have h := congrArg solid hcs
  rw [solid_append, solid_of_white hw, List.append_nil] at h
  exact h.symm

theorem solid_trim (cs : List Char) : solid (trim cs) = solid cs := by
  obtain ⟨w, hcs, hw⟩ := exists_trimStart cs
  have h := congrArg solid hcs
  rw [solid_append, solid_of_white hw, List.nil_append] at h
  rw [trim, solid_trimEnd, h]

/-! ### Lines -/

theorem splitLines_cons {c : Char} {cs : List Char} (h : c ≠ '\n') :
    ∃ line lines, splitLines cs = line :: lines ∧ splitLines (c :: cs) = (c :: line) :: lines := by
  cases hs : splitLines cs with
  | nil => exact absurd hs (splitLines_ne_nil cs)
  | cons line lines => exact ⟨line, lines, rfl, by simp [splitLines, h, hs]⟩

theorem splitLines_of_not_mem {cs : List Char} (h : '\n' ∉ cs) : splitLines cs = [cs] := by
  induction cs with
  | nil => rfl
  | cons c cs ih =>
    obtain ⟨hc, hcs⟩ := not_or.1 (mt List.mem_cons.2 h)
    simp [splitLines, Ne.symm hc, ih hcs]

theorem splitLines_append_cons (front back : List Char) :
    splitLines (front ++ '\n' :: back) = splitLines front ++ splitLines back := by
  induction front with
  | nil => rfl
  | cons c front ih =>
    by_cases hc : c = '\n'
    · simp [splitLines, hc, ih]
    · cases hlines : splitLines front with
      | nil => exact absurd hlines (splitLines_ne_nil front)
      | cons line lines =>
        rw [hlines] at ih
        simp [splitLines, hc, hlines, ih]

theorem splitLines_append_newline {line cs : List Char} (h : '\n' ∉ line) :
    splitLines (line ++ '\n' :: cs) = line :: splitLines cs := by
  rw [splitLines_append_cons, splitLines_of_not_mem h, List.singleton_append]

/-- Lines that have been put together come apart again. -/
theorem splitLines_joinLines {lines : List (List Char)} (hne : lines ≠ [])
    (h : ∀ line ∈ lines, '\n' ∉ line) : splitLines (joinLines lines) = lines := by
  induction lines with
  | nil => exact absurd rfl hne
  | cons line lines ih =>
    have hline := h line List.mem_cons_self
    cases lines with
    | nil => exact splitLines_of_not_mem hline
    | cons next lines =>
      rw [joinLines, splitLines_append_newline hline,
        ih (List.cons_ne_nil _ _) fun other hother => h other (List.mem_cons_of_mem _ hother)]
      exact List.cons_ne_nil next lines

/-- The lines of a text without the white space around them. -/
def said (cs : List Char) : List (List Char) :=
  (splitLines cs).map trim

/-- The lines of a text without the white space around them, except that in front of the first one. -/
def ended (cs : List Char) : List (List Char) :=
  match splitLines cs with
  | [] => []
  | line :: lines => trimEnd line :: lines.map trim

theorem said_eq_ended (cs : List Char) : said cs = (ended cs).modifyHead trimStart := by
  unfold said ended
  cases splitLines cs <;> simp [trim_eq_trimStart]

theorem ended_ne_nil (cs : List Char) : ended cs ≠ [] := by
  unfold ended
  cases h : splitLines cs with
  | nil => exact absurd h (splitLines_ne_nil cs)
  | cons => simp

@[simp] theorem ended_nil : ended [] = [[]] := rfl

/-- A character in front of a text stands in front of its first line. -/
theorem ended_cons {c : Char} {cs line : List Char} {lines : List (List Char)} (hc : c ≠ '\n')
    (h : ended cs = line :: lines) :
    ended (c :: cs) = (if isSpace c ∧ line = [] then [] else c :: line) :: lines := by
  obtain ⟨first, rest, hcs, hccs⟩ := @splitLines_cons c cs hc
  simp only [ended, hcs, List.cons.injEq] at h
  obtain ⟨rfl, rfl⟩ := h
  simp only [ended, hccs, trimEnd_cons]

theorem ended_newline_cons (cs : List Char) : ended ('\n' :: cs) = [] :: said cs := by
  simp [ended, said, splitLines]

theorem isSpace_newline : isSpace '\n' = true := by
  decide

/-- White space in front of a text says nothing but empty lines. -/
theorem said_white_append {w cs : List Char} (h : White w) :
    said (w ++ cs) = List.replicate (w.count '\n') [] ++ said cs := by
  induction w with
  | nil => rfl
  | cons c w ih =>
    obtain ⟨hc, hw⟩ := white_cons.1 h
    by_cases hn : c = '\n'
    · subst hn
      rw [List.cons_append, List.count_cons_self, List.replicate_succ, List.cons_append, ← ih hw]
      simp [said, splitLines]
    · rw [List.count_cons_of_ne hn, ← ih hw, List.cons_append, said_eq_ended, said_eq_ended]
      obtain ⟨line, lines, hended⟩ := List.exists_cons_of_ne_nil (ended_ne_nil (w ++ cs))
      rw [ended_cons hn hended, hended]
      simp only [List.modifyHead_cons]
      split
      · rename_i h
        rw [h.2]
      · rw [trimStart_cons_of_space hc]

/-- White space with a line feed in it ends the line in front of it. -/
theorem ended_white_append {w cs : List Char} (h : White w) (hn : '\n' ∈ w) :
    ended (w ++ cs) = List.replicate (w.count '\n') [] ++ said cs := by
  induction w with
  | nil => simp at hn
  | cons c w ih =>
    obtain ⟨hc, hw⟩ := white_cons.1 h
    by_cases hcn : c = '\n'
    · subst hcn
      rw [List.cons_append, List.count_cons_self, List.replicate_succ, List.cons_append,
        ended_newline_cons, said_white_append hw]
    · have hmem : '\n' ∈ w := (List.mem_cons.1 hn).resolve_left (Ne.symm hcn)
      obtain ⟨count, hcount⟩ := Nat.exists_eq_succ_of_ne_zero
        (Nat.ne_of_gt (List.count_pos_iff.2 hmem))
      have hended := ih hw hmem
      rw [hcount, List.replicate_succ, List.cons_append] at hended
      rw [List.count_cons_of_ne hcn, hcount, List.replicate_succ, List.cons_append,
        List.cons_append, ended_cons hcn hended, if_pos ⟨hc, rfl⟩]

/-! ### Runs of empty lines -/

/-- Keep one of each run of empty lines. -/
def squeezed : List (List Char) → List (List Char)
  | [] => []
  | line :: lines =>
    if line = [] ∧ lines.head? = some [] then squeezed lines else line :: squeezed lines

theorem squeezed_cons {line : List Char} {lines : List (List Char)} (h : line ≠ []) :
    squeezed (line :: lines) = line :: squeezed lines := by
  simp [squeezed, h]

theorem squeezed_replicate_append {count : Nat} {line : List Char} {lines : List (List Char)}
    (h : line ≠ []) :
    squeezed (List.replicate (count + 1) [] ++ line :: lines) = [] :: line :: squeezed lines := by
  induction count with
  | zero => simp [squeezed, h]
  | succ count ih =>
    rw [List.replicate_succ, List.cons_append, squeezed,
      if_pos ⟨rfl, by simp [List.replicate_succ]⟩, ih]

end CodeSplice.Text
