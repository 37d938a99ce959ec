/-
Module: CodeSplice.Proofs.Layout.Relaid
Purpose: What laying a text out anew may change: the white space around line feeds, and nothing else.
  Inside a template literal every line feed stays; elsewhere several empty lines may become one. The
  relation can be cut into pieces that begin or end with something visible, and each piece says the
  same before and after.
Main exports: Relaid, Relaid.cut, Relaid.ended_of_outside, Relaid.ended_of_inside, Relaid.solid_eq
-/
import CodeSplice.Proofs.Text.Said

namespace CodeSplice.Layout

open Text

/-- Every line feed of a run of white space has the given property, read off the place behind it. -/
def Feeds (p : Nat → Prop) (position : Nat) (w : List Char) : Prop :=
  ∀ i, w[i]? = some '\n' → p (position + i + 1)

/-- How a run of white space with a line feed may change. `inside` tells which places lie inside a
template literal, and `rest` is what follows the run. -/
structure RunRelaid (inside : Nat → Bool) (position : Nat) (w w' rest : List Char) : Prop where
  white : White w
  white' : White w'
  mem : '\n' ∈ w
  mem' : '\n' ∈ w'
  /-- Outside of literals one empty line is left of several. -/
  count_outside : Feeds (inside · = false) position w → w'.count '\n' = min (w.count '\n') 2
  /-- The run goes on as far as it can, as long as no literal is met. -/
  longest : Feeds (inside · = false) position w → ∀ v u, rest = v ++ '\n' :: u → White v →
    ∃ q, position + w.length ≤ q ∧ q ≤ position + w.length + v.length ∧ inside q = true
  count_inside : Feeds (inside · = true) position w → w'.count '\n' = w.count '\n'

/-- A run of white space that may change in front of a text may change in front of the beginning of
that text. -/
theorem RunRelaid.take {inside : Nat → Bool} {position : Nat} {w w' x y : List Char}
    (h : RunRelaid inside position w w' (x ++ y)) : RunRelaid inside position w w' x :=
  { h with
    longest := by
      intro hfeeds v u hx hv
      exact h.longest hfeeds v (u ++ y) (by simp [hx]) hv }

/-- The second text is the first one, which stands at the given place, laid out anew. -/
inductive Relaid (inside : Nat → Bool) : Nat → List Char → List Char → Prop where
  | nil {position : Nat} : Relaid inside position [] []
  | keep {position : Nat} {c : Char} {s o : List Char} (hc : c ≠ '\n')
      (rest : Relaid inside (position + 1) s o) : Relaid inside position (c :: s) (c :: o)
  | run {position : Nat} {w w' s o : List Char} (relaid : RunRelaid inside position w w' s)
      (rest : Relaid inside (position + w.length) s o) : Relaid inside position (w ++ s) (w' ++ o)

namespace Relaid

variable {inside : Nat → Bool} {position : Nat} {s o : List Char}

/-- A line of text may stay as it is. -/
theorem keepAll {line : List Char} (h : '\n' ∉ line)
    (rest : Relaid inside (position + line.length) s o) :
    Relaid inside position (line ++ s) (line ++ o) := by
  induction line generalizing position with
  | nil => exact rest
  | cons c line ih =>
    obtain ⟨hc, hline⟩ := not_or.1 (mt List.mem_cons.2 h)
    refine .keep (Ne.symm hc) (ih hline ?_)
    simpa only [List.length_cons, Nat.add_assoc, Nat.add_comm 1] using rest

/-- Laying out anew keeps all that is not white space. -/
theorem solid_eq (h : Relaid inside position s o) : solid o = solid s := by
  induction h with
  | nil => rfl
  | keep _ _ ih =>
    simp only [solid, List.filter_cons] at ih ⊢
    rw [ih]
  | run relaid _ ih =>
    rw [solid_append, solid_append, solid_of_white relaid.white, solid_of_white relaid.white', ih]

/-- A piece that begins with something visible still does. -/
theorem cons_of_visible {c : Char} (hc : isSpace c = false)
    (h : Relaid inside position (c :: s) o) :
    ∃ o', o = c :: o' ∧ Relaid inside (position + 1) s o' := by
  generalize hs : c :: s = t at h
  cases h with
  | nil => simp at hs
  | keep _ rest =>
    obtain ⟨rfl, rfl⟩ := List.cons.inj hs
    exact ⟨_, rfl, rest⟩
  | @run _ w w' _ _ relaid rest =>
    cases w with
    | nil => exact absurd relaid.mem (by simp)
    | cons d w =>
      obtain ⟨rfl, -⟩ := List.cons.inj hs
      simp [(white_cons.1 relaid.white).1] at hc

theorem eq_nil (h : Relaid inside position [] o) : o = [] := by
  generalize hs : ([] : List Char) = t at h
  cases h with
  | nil => rfl
  | keep => simp at hs
  | run relaid =>
    obtain ⟨rfl, -⟩ := List.append_eq_nil_iff.1 hs.symm
    exact absurd relaid.mem (by simp)

/-- Where something visible ends or begins, what was laid out anew falls into two parts. -/
theorem cut {x y : List Char} (h : Relaid inside position (x ++ y) o)
    (hxy : (∀ c, x.getLast? = some c → isSpace c = false) ∨
      ∀ c, y.head? = some c → isSpace c = false) :
    ∃ o₁ o₂, o = o₁ ++ o₂ ∧ Relaid inside position x o₁ ∧
      Relaid inside (position + x.length) y o₂ := by
  generalize ht : x ++ y = t at h
  induction h generalizing x with
  | nil =>
    obtain ⟨rfl, rfl⟩ := List.append_eq_nil_iff.1 ht
    exact ⟨[], [], rfl, .nil, .nil⟩
  | @keep position c s o hc rest ih =>
    cases x with
    | nil =>
      obtain rfl : y = c :: s := ht
      exact ⟨[], c :: o, rfl, .nil, .keep hc rest⟩
    | cons d x =>
      obtain ⟨rfl, rfl⟩ := List.cons.inj ht
      have hxy' : (∀ c, x.getLast? = some c → isSpace c = false) ∨
          ∀ c, y.head? = some c → isSpace c = false := by
        refine hxy.imp_left fun hx c hc => hx c ?_
        rw [List.getLast?_cons, hc]
        rfl
      obtain ⟨o₁, o₂, rfl, h₁, h₂⟩ := ih hxy' rfl
      refine ⟨d :: o₁, o₂, rfl, .keep hc h₁, ?_⟩
      simpa only [List.length_cons, Nat.add_assoc, Nat.add_comm 1] using h₂
  | @run position w w' s o relaid rest ih =>
    by_cases hx : x = []
    · subst hx
      obtain rfl : y = w ++ s := ht
      exact ⟨[], w' ++ o, rfl, .nil, .run relaid rest⟩
    -- The run lies in front of the cut, because what is visible there does not lie in the run.
    obtain ⟨x', rfl, rfl⟩ : ∃ x', x = w ++ x' ∧ s = x' ++ y := by
      rcases List.append_eq_append_iff.1 ht with ⟨c', hw, hy⟩ | hx'
      · rcases hxy with hlast | hhead
        · obtain ⟨front, last, rfl⟩ : ∃ front last, x = front ++ [last] :=
            ⟨_, _, (List.dropLast_concat_getLast hx).symm⟩
          have hspace := relaid.white last (by simp [hw])
          simp [hlast last (by simp)] at hspace
        · cases c' with
          | nil => exact ⟨[], by simpa using hw.symm, by simpa using hy.symm⟩
          | cons c c' =>
            have hspace := relaid.white c (by simp [hw])
            simp [hhead c (by simp [hy])] at hspace
      · exact hx'
    have hxy' : (∀ c, x'.getLast? = some c → isSpace c = false) ∨
        ∀ c, y.head? = some c → isSpace c = false := by
      refine hxy.imp_left fun hx c hc => hx c ?_
      rw [List.getLast?_append, hc]
      rfl
    obtain ⟨o₁, o₂, rfl, h₁, h₂⟩ := ih hxy' rfl
    refine ⟨w' ++ o₁, o₂, by simp, .run relaid.take h₁, ?_⟩
    simpa only [List.length_append, Nat.add_assoc] using h₂

/-- A piece that ends with something visible still does. -/
theorem getLast_visible {c : Char} (hc : isSpace c = false)
    (h : Relaid inside position (s ++ [c]) o) : ∃ o', o = o' ++ [c] := by
  obtain ⟨o₁, o₂, rfl, -, h₂⟩ := h.cut (.inr (by simpa using hc))
  obtain ⟨o', rfl, h'⟩ := h₂.cons_of_visible hc
  exact ⟨o₁, by rw [h'.eq_nil]⟩

/-! ### What a piece says -/

theorem white_of_trim_eq_nil {cs : List Char} (h : trim cs = []) : White cs := by
  obtain ⟨w, hcs, hw⟩ := exists_trimStart cs
  obtain ⟨w', hcs', hw'⟩ := exists_trimEnd (trimStart cs)
  rw [← trim, h, List.nil_append] at hcs'
  rw [hcs, hcs']
  exact white_append.2 ⟨hw, hw'⟩

/-- The first line of a text: it is all of the text or ends with a line feed. -/
theorem splitLines_eq_cons {cs line : List Char} {lines : List (List Char)}
    (h : splitLines cs = line :: lines) : cs = line ∨ ∃ rest, cs = line ++ '\n' :: rest := by
  have hjoin := joinLines_splitLines cs
  rw [h] at hjoin
  cases lines with
  | nil => exact .inl hjoin.symm
  | cons next lines => exact .inr ⟨_, hjoin.symm⟩

/-- Outside of literals a piece that ends with something visible says the same as before, except that
one empty line is left of several. -/
theorem ended_of_outside (h : Relaid inside position s o)
    (houtside : ∀ q, position ≤ q → q ≤ position + s.length → inside q = false)
    (hlast : ∀ c, s.getLast? = some c → isSpace c = false) :
    ∃ line lines, ended s = line :: lines ∧ ended o = line :: squeezed lines := by
  induction h with
  | nil => exact ⟨[], [], rfl, rfl⟩
  | @keep position c s o hc rest ih =>
    obtain ⟨line, lines, hs, ho⟩ := ih
      (fun q hle hlt => houtside q (by omega) (by simp only [List.length_cons]; omega))
      (fun d hd => hlast d (by rw [List.getLast?_cons, hd]; rfl))
    exact ⟨_, lines, ended_cons hc hs, ended_cons hc ho⟩
  | @run position w w' s o relaid rest ih =>
    obtain ⟨line, lines, hs, ho⟩ := ih
      (fun q hle hlt => houtside q (by omega) (by simp only [List.length_append]; omega))
      (fun d hd => hlast d (by rw [List.getLast?_append, hd]; rfl))
    have hfeeds : Feeds (inside · = false) position w := by
      intro i hi
      have := (List.getElem?_eq_some_iff.1 hi).1
      exact houtside _ (by omega) (by simp only [List.length_append]; omega)
    -- The run is the longest one, so the line behind it is not empty.
    have hline : trimStart line ≠ [] := by
      intro hnil
      obtain ⟨first, others, hsplit⟩ := List.exists_cons_of_ne_nil (splitLines_ne_nil s)
      simp only [ended, hsplit, List.cons.injEq] at hs
      obtain ⟨rfl, -⟩ := hs
      rw [← trim_eq_trimStart] at hnil
      have hwhite := white_of_trim_eq_nil hnil
      rcases splitLines_eq_cons hsplit with rfl | ⟨others, rfl⟩
      · have hws : White (w ++ s) := white_append.2 ⟨relaid.white, hwhite⟩
        have hne : w ++ s ≠ [] := fun hnil => by
          have := relaid.mem
          simp [(List.append_eq_nil_iff.1 hnil).1] at this
        have := hlast _ (List.getLast?_eq_some_getLast hne)
        rw [hws _ (List.getLast_mem hne)] at this
        contradiction
      · obtain ⟨q, hle, hlt, hinside⟩ := relaid.longest hfeeds first others rfl hwhite
        rw [houtside q (by omega) (by simp only [List.length_append]; omega)] at hinside
        contradiction
    have hsaid : said s = trimStart line :: lines := by rw [said_eq_ended, hs]; rfl
    have hsaid' : said o = trimStart line :: squeezed lines := by rw [said_eq_ended, ho]; rfl
    obtain ⟨count, hcount⟩ := Nat.exists_eq_succ_of_ne_zero
      (Nat.ne_of_gt (List.count_pos_iff.2 relaid.mem))
    rw [ended_white_append relaid.white relaid.mem, ended_white_append relaid.white' relaid.mem',
      relaid.count_outside hfeeds, hcount, hsaid, hsaid']
    refine ⟨[], List.replicate count [] ++ trimStart line :: lines, rfl, ?_⟩
    cases count with
    | zero => simp [squeezed_cons hline]
    | succ count =>
      rw [squeezed_replicate_append hline, Nat.min_eq_right (by omega)]
      rfl

/-- Inside a literal a piece says the same as before. -/
theorem ended_of_inside (h : Relaid inside position s o)
    (hinside : Feeds (inside · = true) position s) : ended o = ended s := by
  induction h with
  | nil => rfl
  | @keep position c s o hc rest ih =>
    have hrest : Feeds (inside · = true) (position + 1) s := by
      intro i hi
      have := hinside (i + 1) (by simpa using hi)
      rwa [show position + (i + 1) + 1 = position + 1 + i + 1 by omega] at this
    obtain ⟨line, lines, hs⟩ := List.exists_cons_of_ne_nil (ended_ne_nil s)
    rw [ended_cons hc hs, ended_cons hc ((ih hrest).trans hs)]
  | @run position w w' s o relaid rest ih =>
    have hw : Feeds (inside · = true) position w := by
      intro i hi
      refine hinside i ?_
      rw [List.getElem?_append_left (List.getElem?_eq_some_iff.1 hi).1]
      exact hi
    have hrest : Feeds (inside · = true) (position + w.length) s := by
      intro i hi
      have := hinside (w.length + i) (by simpa [List.getElem?_append_right] using hi)
      rwa [show position + (w.length + i) + 1 = position + w.length + i + 1 by omega] at this
    rw [ended_white_append relaid.white relaid.mem, ended_white_append relaid.white' relaid.mem',
      relaid.count_inside hw, said_eq_ended, said_eq_ended, ih hrest]

end Relaid

end CodeSplice.Layout
