/-
Module: CodeSplice.Text.Search
Purpose: Where a text occurs in another one, in bytes.
Main exports: byteLength, byteIndex?, byteIndex?_eq_some_iff
-/

namespace CodeSplice.Text

/-- The length of a text in bytes. -/
def byteLength : List Char → Nat
  | [] => 0
  | c :: cs => c.utf8Size + byteLength cs

/-- The position in bytes at which a text occurs first in another one. -/
def byteIndex? (needle : List Char) : List Char → Option Nat
  | [] => if needle.isEmpty then some 0 else none
  | c :: cs =>
    if needle.isPrefixOf (c :: cs) then some 0
    else (byteIndex? needle cs).map (c.utf8Size + ·)

/-- The position found is that of the first place at which the text occurs. -/
theorem byteIndex?_eq_some_iff {needle cs : List Char} {n : Nat} :
    byteIndex? needle cs = some n ↔
      ∃ front back, cs = front ++ needle ++ back ∧ byteLength front = n ∧
        ∀ front' back', cs = front' ++ needle ++ back' → front.length ≤ front'.length := by
  induction cs generalizing n with
  | nil =>
    simp only [byteIndex?]
    split
    · rename_i hempty
      obtain rfl : needle = [] := List.isEmpty_iff.1 hempty
      constructor
      · rintro ⟨⟩
        exact ⟨[], [], rfl, rfl, fun _ _ _ => Nat.zero_le _⟩
      · rintro ⟨front, back, heq, rfl, -⟩
        obtain ⟨hfront, -⟩ := List.append_eq_nil_iff.1 heq.symm
        rw [List.append_nil] at hfront
        rw [hfront]
        rfl
    · rename_i hne
      constructor
      · exact nofun
      · rintro ⟨front, back, heq, -⟩
        obtain ⟨hfront, -⟩ := List.append_eq_nil_iff.1 heq.symm
        exact absurd (List.isEmpty_iff.2 (List.append_eq_nil_iff.1 hfront).2) hne
  | cons c cs ih =>
    simp only [byteIndex?]
    split
    · rename_i hprefix
      obtain ⟨back, hback⟩ := List.isPrefixOf_iff_prefix.1 hprefix
      constructor
      · rintro ⟨⟩
        exact ⟨[], back, hback.symm, rfl, fun _ _ _ => Nat.zero_le _⟩
      · rintro ⟨front, -, -, rfl, hfirst⟩
        obtain rfl : front = [] := List.length_eq_zero_iff.1
          (Nat.le_zero.1 (hfirst [] back hback.symm))
        rfl
    · rename_i hprefix
      -- The text occurs behind the first character, as often as in what follows it.
      have hcons : ∀ front back, c :: cs = front ++ needle ++ back →
          ∃ front', front = c :: front' ∧ cs = front' ++ needle ++ back := by
        intro front back heq
        cases front with
        | nil => exact absurd (List.isPrefixOf_iff_prefix.2 ⟨back, heq.symm⟩) hprefix
        | cons d front =>
          obtain ⟨rfl, hcs⟩ := List.cons.inj heq
          exact ⟨front, rfl, hcs⟩
      rw [Option.map_eq_some_iff]
      constructor
      · rintro ⟨m, hm, rfl⟩
        obtain ⟨front, back, hcs, rfl, hfirst⟩ := ih.1 hm
        refine ⟨c :: front, back, by rw [hcs]; rfl, rfl, fun front' back' heq => ?_⟩
        obtain ⟨front', rfl, hcs'⟩ := hcons front' back' heq
        exact Nat.succ_le_succ (hfirst front' back' hcs')
      · rintro ⟨front, back, heq, rfl, hfirst⟩
        obtain ⟨front, rfl, hcs⟩ := hcons front back heq
        refine ⟨_, ih.2 ⟨front, back, hcs, rfl, fun front' back' hcs' => ?_⟩, rfl⟩
        exact Nat.le_of_succ_le_succ (hfirst (c :: front') back' (by rw [hcs']; rfl))

end CodeSplice.Text
