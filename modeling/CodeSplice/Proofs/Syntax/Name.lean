/-
Module: CodeSplice.Proofs.Syntax.Name
Purpose: Names at the front of a text. A name is as long as it is wherever no name goes on behind it, and
  the keys under which spellings are found tell all spellings apart; so the code of a spelling of the
  grammar is that of no other symbol.
Main exports: IsName, EndsName, IsName.front, IsName.wordLength_append, spellingKey_injective,
  Index.mem_entries, Alphabet.Owns, Alphabet.Owns.eq_of_code
-/
import CodeSplice.Proofs.Syntax.Scan
import Mathlib.Data.List.Induction
import Mathlib.Data.List.TakeWhile

namespace CodeSplice.Syntax

open Text

/-! ### Names -/

/-- The text is a name from its beginning to its end. -/
def IsName (text : List Char) : Prop :=
  text ≠ [] ∧ wordLength text = text.length

instance (text : List Char) : Decidable (IsName text) :=
  inferInstanceAs (Decidable (_ ∧ _))

/-- No name goes on into the text. -/
def EndsName (rest : List Char) : Prop :=
  ∀ c ∈ rest.head?, isWordPart c = false ∧ c ≠ '\\'

theorem takeWhile_append_of_head {p : Char → Bool} {front rest : List Char}
    (hfront : ∀ c ∈ front, p c) (hrest : ∀ c ∈ rest.head?, p c = false) :
    (front ++ rest).takeWhile p = front := by
  rw [List.takeWhile_append_of_pos hfront]
  cases rest with
  | nil => simp
  | cons c rest => simp [hrest c rfl]

/-- An escape sequence lies in the text and does not depend on what stands behind it. -/
theorem unicodeEscapeLength_append {cs : List Char} (h : unicodeEscapeLength cs ≠ 0)
    (rest : List Char) : unicodeEscapeLength cs ≤ cs.length ∧
      unicodeEscapeLength (cs ++ rest) = unicodeEscapeLength cs := by
  unfold unicodeEscapeLength at h
  split at h
  · rename_i digits
    simp only [ne_eq, ite_eq_right_iff, Classical.not_imp] at h
    have hinside : (digits.takeWhile isHex).length < digits.length := by
      by_contra hlength
      rw [List.drop_of_length_le (Nat.le_of_not_lt hlength)] at h
      simp at h
    have htake : (digits ++ rest).takeWhile isHex = digits.takeWhile isHex := by
      rw [List.takeWhile_append, if_neg (Nat.ne_of_lt hinside)]
    have hhead : ((digits ++ rest).drop (digits.takeWhile isHex).length).head? =
        (digits.drop (digits.takeWhile isHex).length).head? := by
      rw [List.drop_append_of_le_length (Nat.le_of_lt hinside), List.head?_append,
        List.head?_eq_some_head (by simpa using hinside), Option.some_or]
    simp only [List.cons_append, unicodeEscapeLength, htake, hhead, if_pos h.1, List.length_cons,
      and_true]
    omega
  · rename_i a b c d others _
    have hfive : ∀ more, unicodeEscapeLength ('u' :: a :: b :: c :: d :: more) = 5 := by
      intro more
      simp only [ne_eq, ite_eq_right_iff, Classical.not_imp] at h
      simp [unicodeEscapeLength, h.1]
    simp [hfive]
  · exact absurd rfl h

theorem wordPartLength_append {skip : Nat} {text rest : List Char} (hskip : skip ≤ text.length)
    (h : wordPartLength skip text = text.length) (hrest : EndsName rest) :
    wordPartLength skip (text ++ rest) = text.length := by
  induction text generalizing skip with
  | nil =>
    obtain rfl : skip = 0 := Nat.le_zero.1 hskip
    cases rest with
    | nil => rfl
    | cons c rest =>
      obtain ⟨hpart, hslash⟩ := hrest c rfl
      simp [wordPartLength, hpart, hslash]
  | cons c text ih =>
    cases skip with
    | succ skip =>
      simp only [wordPartLength, List.length_cons, Nat.add_right_cancel_iff] at h
      simp [wordPartLength, ih (Nat.le_of_succ_le_succ hskip) h]
    | zero =>
      simp only [wordPartLength] at h
      simp only [List.cons_append, wordPartLength]
      by_cases hslash : (c == '\\') = true
      · rw [if_pos hslash] at h ⊢
        cases hescape : unicodeEscapeLength text with
        | zero => simp [hescape] at h
        | succ length =>
          have hne : unicodeEscapeLength text ≠ 0 := by simp [hescape]
          obtain ⟨hle, heq⟩ := unicodeEscapeLength_append hne rest
          rw [hescape] at hle heq
          simp only [hescape, List.length_cons, Nat.add_right_cancel_iff] at h
          simp only [heq, List.length_cons, ih hle h]
      · rw [if_neg hslash] at h ⊢
        by_cases hpart : isWordPart c = true
        · rw [if_pos hpart, List.length_cons, Nat.add_right_cancel_iff] at h
          rw [if_pos hpart, ih (Nat.zero_le _) h, List.length_cons]
        · simp [hpart] at h

namespace IsName

variable {text rest : List Char}

/-- How a name begins. -/
theorem front (h : IsName text) : ∃ c others, text = c :: others ∧ c.isDigit = false ∧
    (isWordPart c = true ∨ c = '\\') := by
  obtain ⟨hne, hlength⟩ := h
  cases text with
  | nil => exact absurd rfl hne
  | cons c others =>
    refine ⟨c, others, rfl, ?_⟩
    simp only [wordLength, List.head?_cons, Option.map_some, Option.getD_some] at hlength
    cases hdigit : c.isDigit with
    | true => simp [hdigit] at hlength
    | false =>
      refine ⟨rfl, ?_⟩
      by_contra hfront
      rw [not_or] at hfront
      simp [hdigit, wordPartLength, hfront.1, hfront.2] at hlength

/-- A name is as long as it is wherever it ends. -/
theorem wordLength_append (h : IsName text) (hrest : EndsName rest) :
    wordLength (text ++ rest) = text.length := by
  obtain ⟨c, others, rfl, hdigit, -⟩ := h.front
  have hlength := h.2
  simp only [wordLength, List.cons_append, List.head?_cons, Option.map_some, Option.getD_some,
    hdigit, Bool.false_eq_true, if_false] at hlength ⊢
  exact wordPartLength_append (Nat.zero_le _) hlength hrest

end IsName

/-! ### Spellings -/

/-- A key has 21 bits for each character. -/
theorem spellingKey_append (text : List Char) (c : Char) :
    spellingKey (text ++ [c]) = spellingKey text * 0x200000 + c.toNat := by
  simp [spellingKey, Nat.shiftLeft_eq]

theorem toNat_lt (c : Char) : c.toNat < 0x200000 := by
  rcases c.valid with hlow | ⟨-, hhigh⟩
  · exact Nat.lt_trans hlow (by decide)
  · exact Nat.lt_trans hhigh (by decide)

theorem spellingKey_pos (text : List Char) : 0 < spellingKey text := by
  induction text using List.reverseRecOn with
  | nil => exact Nat.one_pos
  | append_singleton text c ih =>
    rw [spellingKey_append]
    omega

theorem spellingKey_append_ne_nil (text : List Char) (c : Char) :
    spellingKey (text ++ [c]) ≠ spellingKey [] := by
  have hpos := spellingKey_pos text
  rw [spellingKey_append, show spellingKey [] = 1 from rfl]
  omega

/-- Spellings are told apart by their keys. -/
theorem spellingKey_injective : Function.Injective spellingKey := by
  intro first second h
  induction first using List.reverseRecOn generalizing second with
  | nil =>
    cases second using List.reverseRecOn with
    | nil => rfl
    | append_singleton text c => exact absurd h.symm (spellingKey_append_ne_nil text c)
  | append_singleton text c ih =>
    cases second using List.reverseRecOn with
    | nil => exact absurd h (spellingKey_append_ne_nil text c)
    | append_singleton other d =>
      have hc := toNat_lt c
      have hd := toNat_lt d
      rw [spellingKey_append, spellingKey_append] at h
      rw [ih (show spellingKey text = spellingKey other by omega),
        Char.toNat_inj.1 (show c.toNat = d.toNat by omega)]

/-- The keys of an index with their codes. -/
def Index.entries : Index → List (Nat × Nat)
  | none => []
  | entry key code smaller larger => smaller.entries ++ (key, code) :: larger.entries

theorem Index.mem_entries {key code : Nat} {index : Index} (h : index.find? key = some code) :
    (key, code) ∈ index.entries := by
  induction index with
  | none => cases h
  | entry other known smaller larger ihs ihl =>
    rw [find?] at h
    rw [entries, List.mem_append, List.mem_cons]
    cases hless : Nat.blt key other with
    | true =>
      rw [hless] at h
      exact .inl (ihs h)
    | false =>
      cases hgreater : Nat.blt other key with
      | true =>
        rw [hless, hgreater] at h
        exact .inr (.inr (ihl h))
      | false =>
        rw [hless, hgreater] at h
        have hkey : key = other := by
          have hle : ¬ key < other := by simp [← Nat.blt_eq, hless]
          have hge : ¬ other < key := by simp [← Nat.blt_eq, hgreater]
          omega
        exact .inr (.inl (by rw [hkey, Option.some_inj.1 h]))

/-! ### Codes of spellings -/

theorem TokenKind.ctorIdx_lt_count (kind : TokenKind) : kind.ctorIdx < TokenKind.count := by
  cases kind <;> decide

/-- The code of a spelling is that of no other symbol. -/
structure Alphabet.Owns (alphabet : Alphabet) (text : List Char) : Prop where
  le : TokenKind.count ≤ alphabet.terminalCode (.spelled text)
  lt : alphabet.terminalCode (.spelled text) < alphabet.size
  key : ∀ entry ∈ alphabet.index.entries, entry.2 = alphabet.terminalCode (.spelled text) →
    entry.1 = spellingKey text

instance (alphabet : Alphabet) (text : List Char) : Decidable (alphabet.Owns text) :=
  decidable_of_iff (_ ∧ _ ∧ _) ⟨fun h => ⟨h.1, h.2.1, h.2.2⟩, fun h => ⟨h.le, h.lt, h.key⟩⟩

theorem Alphabet.Owns.eq_of_code {alphabet : Alphabet} {text : List Char} (h : alphabet.Owns text)
    {symbol : Symbol} (hcode : alphabet.code symbol = alphabet.terminalCode (.spelled text)) :
    symbol = .terminal (.spelled text) := by
  have hlt := h.lt
  cases symbol with
  | phrase phrase =>
    simp only [code, phraseCode] at hcode
    omega
  | terminal terminal =>
    cases terminal with
    | kind kind =>
      have := kind.ctorIdx_lt_count
      have := h.le
      simp only [code, terminalCode] at *
      omega
    | spelled other =>
      rw [code, terminalCode] at hcode
      cases hfind : alphabet.index.find? (spellingKey other) with
      | none =>
        rw [hfind, Option.getD_none] at hcode
        omega
      | some found =>
        rw [hfind, Option.getD_some] at hcode
        rw [spellingKey_injective (h.key _ (Index.mem_entries hfind) hcode)]

end CodeSplice.Syntax
