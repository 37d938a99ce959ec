/-
Module: CodeSplice.Proofs.Layout.Unit
Purpose: Which unit of indentation is found in a text. Of the increases of indentation from one line that
  counts to the next one, the unit is the one that occurs most often, and the smallest of those that do.
  A text without an increase has a unit of two columns.
Main exports: Counts, rises, Commonest, Commonest.eq, commonest_commonStep, unitOf_eq_iff
-/
import CodeSplice.Proofs.Layout.Depth
import CodeSplice.Proofs.Layout.Literals

namespace CodeSplice.Layout

open Text

/-! ### Lines that count -/

/-- A line, given with the position at which it begins, that counts for the unit: it does not begin
between two characters of a literal, it is not blank, and its text does not begin with a star. -/
structure Counts (literals : List Span) (line : Nat × List Char) : Prop where
  outside : ∀ span ∈ literals, line.1 ≤ span.start ∨ span.stop ≤ line.1
  visible : ∃ c ∈ line.2, isSpace c = false
  starless : (body line.2).head? ≠ some '*'

/-- Trimming leaves nothing of a line only if the line is white space. -/
theorem trimEnd_body_eq_nil_iff {line : List Char} : trimEnd (body line) = [] ↔ White line := by
  constructor
  · intro hnil
    obtain ⟨tail, hbody, htail⟩ := exists_trimEnd (body line)
    rw [hnil, List.nil_append] at hbody
    rw [← lead_append_body line, hbody]
    exact white_append.2 ⟨white_lead line, htail⟩
  · exact trimEnd_body_of_white

theorem counted_iff {literals : List Span} {line : Nat × List Char} :
    counted literals line = true ↔ Counts literals line := by
  have hvisible : trimEnd (body line.2) ≠ [] ↔ ∃ c ∈ line.2, isSpace c = false := by
    rw [Ne, trimEnd_body_eq_nil_iff]
    simp [White]
  simp only [counted, Bool.and_eq_true, Bool.not_eq_true', inside_eq_false_iff, bne_iff_ne,
    List.isEmpty_eq_false_iff, hvisible]
  constructor
  · rintro ⟨⟨outside, visible⟩, starless⟩
    exact ⟨outside, visible, starless⟩
  · intro h
    exact ⟨⟨h.outside, h.visible⟩, h.starless⟩

instance (literals : List Span) : DecidablePred (Counts literals) := fun _ =>
  decidable_of_iff _ counted_iff

/-- The columns of a line's indentation: one for each space and two for each tab. -/
def indentation (line : List Char) : Nat :=
  (lead line).count ' ' + 2 * (lead line).count '\t'

theorem columns_lead (line : List Char) : columns (lead line) = indentation line := by
  have hblank : ∀ c ∈ lead line, isBlank c = true := List.all_eq_true.1 List.all_takeWhile
  unfold indentation
  generalize lead line = blanks at hblank
  induction blanks with
  | nil => rfl
  | cons c blanks ih =>
    have hrest := ih fun d hd => hblank d (List.mem_cons_of_mem c hd)
    have hc := hblank c List.mem_cons_self
    simp only [isBlank, Bool.or_eq_true, beq_iff_eq] at hc
    rcases hc with rfl | rfl
    · simp [columns, hrest]
      omega
    · simp [columns, hrest]
      omega

/-- The lines of a text that count. -/
def countedLines (source : List Char) (literals : List Span) : List (Nat × List Char) :=
  (splitLinesFrom 0 source).filter (Counts literals ·)

/-- How often the indentation increases by `step` columns from a line that counts to the next one. -/
def rises (source : List Char) (literals : List Span) (step : Nat) : Nat :=
  ((countedLines source literals).zip (countedLines source literals).tail).countP
    fun (line, next) => indentation next.2 = indentation line.2 + step

theorem unitOf_eq_commonStep (source : List Char) (literals : List Span) :
    unitOf source literals = commonStep
      (increases ((countedLines source literals).map fun line => indentation line.2)) := by
  have hfilter : (splitLinesFrom 0 source).filter (counted literals) =
      countedLines source literals :=
    List.filter_congr fun line _ => by rw [Bool.eq_iff_iff, counted_iff, decide_eq_true_iff]
  rw [unitOf, hfilter]
  simp only [columns_lead]

/-! ### Increases -/

theorem pos_of_mem_increases {numbers : List Nat} {step : Nat} (h : step ∈ increases numbers) :
    0 < step := by
  fun_induction increases numbers with
  | case1 a b rest hlt ih =>
    rcases List.mem_cons.1 h with rfl | h
    · exact Nat.sub_pos_of_lt hlt
    · exact ih h
  | case2 a b rest hle ih => exact ih h
  | case3 => cases h

/-- A step occurs among the increases as often as a number is followed by one that is greater by the
step. -/
theorem count_increases {step : Nat} (hstep : 0 < step) (numbers : List Nat) :
    (increases numbers).count step =
      (numbers.zip numbers.tail).countP fun (number, next) => next = number + step := by
  fun_induction increases numbers with
  | case1 a b rest hlt ih =>
    have heq : b - a = step ↔ b = a + step := by omega
    rw [List.count_cons, ih, List.tail_cons, List.tail_cons, List.zip_cons_cons, List.countP_cons]
    simp [heq]
  | case2 a b rest hle ih =>
    have hne : b ≠ a + step := by omega
    rw [ih, List.tail_cons, List.tail_cons, List.zip_cons_cons, List.countP_cons]
    simp [hne]
  | case3 numbers hshort =>
    rcases numbers with - | ⟨a, - | ⟨b, rest⟩⟩
    · rfl
    · rfl
    · exact absurd rfl (hshort a b rest)

theorem count_increases_indentation (source : List Char) (literals : List Span) {step : Nat}
    (hstep : 0 < step) :
    (increases ((countedLines source literals).map fun line => indentation line.2)).count step =
      rises source literals step := by
  rw [count_increases hstep, ← List.map_tail, List.zip_map, List.countP_map]
  rfl

/-! ### The most frequent step -/

/-- The unit for steps that occur `often`: a step that occurs as often as any other one, the smallest
of them, and two if no step occurs. -/
structure Commonest (often : Nat → Nat) (unit : Nat) : Prop where
  pos : 0 < unit
  most : ∀ step, 0 < step → often step ≤ often unit
  least : ∀ step, 0 < step → 0 < often step → often step = often unit → unit ≤ step
  otherwise : (∀ step, 0 < step → often step = 0) → unit = 2

/-- There is one such unit only. -/
theorem Commonest.eq {often : Nat → Nat} {unit other : Nat} (h : Commonest often unit)
    (h' : Commonest often other) : unit = other := by
  have hoften : often unit = often other :=
    Nat.le_antisymm (h'.most unit h.pos) (h.most other h'.pos)
  rcases Nat.eq_zero_or_pos (often unit) with hzero | hpos
  · have hnone : ∀ step, 0 < step → often step = 0 := fun step hstep =>
      Nat.le_zero.1 (hzero ▸ h.most step hstep)
    rw [h.otherwise hnone, h'.otherwise hnone]
  · exact Nat.le_antisymm (h.least other h'.pos (hoften ▸ hpos) hoften.symm)
      (h'.least unit h.pos hpos hoften)

theorem Commonest.congr {often others : Nat → Nat} {unit : Nat} (h : Commonest often unit)
    (heq : ∀ step, 0 < step → often step = others step) : Commonest others unit where
  pos := h.pos
  most step hstep := by
    rw [← heq step hstep, ← heq unit h.pos]
    exact h.most step hstep
  least step hstep := by
    rw [← heq step hstep, ← heq unit h.pos]
    exact h.least step hstep
  otherwise hnone := h.otherwise fun step hstep => (heq step hstep).trans (hnone step hstep)

section

variable {steps : List Nat} {a b c : Nat}

theorem preferred_eq_false_iff : preferred steps a b = false ↔
    steps.count a ≤ steps.count b ∧ (steps.count a = steps.count b → b ≤ a) := by
  simp only [preferred, Bool.or_eq_false_iff, Bool.and_eq_false_imp, decide_eq_false_iff_not,
    beq_iff_eq, Nat.not_lt]

theorem preferred_asymm (h : preferred steps a b = true) : preferred steps b a = false := by
  simp only [preferred, Bool.or_eq_true, Bool.and_eq_true, decide_eq_true_eq, beq_iff_eq] at h
  rw [preferred_eq_false_iff]
  omega

theorem not_preferred_trans (h : preferred steps a b = false) (h' : preferred steps b c = false) :
    preferred steps a c = false := by
  rw [preferred_eq_false_iff] at h h' ⊢
  omega

end

/-- Going through numbers and keeping the one that is preferred leaves one of them to which no other
one is preferred. -/
theorem of_foldl_preferred {steps numbers : List Nat} {first best : Nat}
    (h : numbers.foldl (fun best s => if preferred steps s best then s else best) first = best) :
    best ∈ first :: numbers ∧ ∀ s ∈ first :: numbers, preferred steps s best = false := by
  induction numbers generalizing first with
  | nil =>
    obtain rfl : first = best := h
    simp [preferred]
  | cons next numbers ih =>
    rw [List.foldl_cons] at h
    split at h
    · rename_i hnext
      obtain ⟨hmem, hall⟩ := ih h
      have hfirst := not_preferred_trans (preferred_asymm hnext) (hall next List.mem_cons_self)
      exact ⟨List.mem_cons_of_mem first hmem, List.forall_mem_cons.2 ⟨hfirst, hall⟩⟩
    · rename_i hnext
      obtain ⟨hmem, hall⟩ := ih h
      rw [List.forall_mem_cons] at hall
      have hnext := not_preferred_trans (Bool.not_eq_true _ ▸ hnext) hall.1
      refine ⟨?_, List.forall_mem_cons.2 ⟨hall.1, List.forall_mem_cons.2 ⟨hnext, hall.2⟩⟩⟩
      exact List.cons_subset_cons first (List.subset_cons_self next numbers) hmem

/-- The step that is chosen is the most frequent one. -/
theorem commonest_commonStep {steps : List Nat} (h : ∀ step ∈ steps, 0 < step) :
    Commonest steps.count (commonStep steps) := by
  cases steps with
  | nil => exact ⟨by decide, by simp, by simp, fun _ => rfl⟩
  | cons first rest =>
    obtain ⟨hmem, hbest⟩ := @of_foldl_preferred _ rest first (commonStep (first :: rest)) rfl
    simp only [preferred_eq_false_iff] at hbest
    refine ⟨h _ hmem, fun step _ => ?_, fun step _ hoften heq => ?_, fun hnone => ?_⟩
    · rcases Nat.eq_zero_or_pos ((first :: rest).count step) with hzero | hpos
      · exact hzero ▸ Nat.zero_le _
      · exact (hbest step (List.count_pos_iff.1 hpos)).1
    · exact (hbest step (List.count_pos_iff.1 hoften)).2 heq
    · exact absurd (hnone _ (h _ hmem)) (Nat.pos_iff_ne_zero.1 (List.count_pos_iff.2 hmem))

/-- The unit of a text is the most frequent increase of indentation from a line that counts to the next
one, the smallest increase of those that are most frequent, and two columns if there is none. -/
theorem unitOf_eq_iff (source : List Char) (literals : List Span) (unit : Nat) :
    unitOf source literals = unit ↔ Commonest (rises source literals) unit := by
  have hunit : Commonest (rises source literals) (unitOf source literals) := by
    rw [unitOf_eq_commonStep]
    refine (commonest_commonStep fun step => pos_of_mem_increases).congr fun step hstep => ?_
    exact count_increases_indentation source literals hstep
  constructor
  · rintro rfl
    exact hunit
  · exact hunit.eq

/-- Two and four columns are as frequent, and what is aligned with a star does not count. -/
example : unitOf "/**\n * a\n */\na(\n    b\n)\nc(\n\td\n)".toList [] = 2 := by decide

end CodeSplice.Layout
