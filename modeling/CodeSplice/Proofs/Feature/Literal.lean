/-
Module: CodeSplice.Proofs.Feature.Literal
Purpose: What a string literal in single quotes stands for: a reader of such literals, character by
  character, by the rules for strict code, and the value it finds in the literals that are generated.
  Line ends are not escaped, so a value that has one is not read back.
Main exports: Literal.Reader, literalUnits?, Denotes, codeUnits_injective, denotes_stringLiteral_iff,
  not_forall_denotes_stringLiteral
-/
import CodeSplice.Feature.ApiDocs
import Mathlib.Data.List.Basic

namespace CodeSplice

/-- The code units of a code point in UTF-16. -/
def utf16 (point : Nat) : List Nat :=
  if point < 0x10000 then [point]
  else [0xD800 + (point - 0x10000) / 0x400, 0xDC00 + (point - 0x10000) % 0x400]

/-- The code units of a text. -/
def codeUnits (cs : List Char) : List Nat :=
  cs.flatMap fun c => utf16 c.toNat

namespace Literal

/-- The value of a hexadecimal digit. -/
def hexDigit? (c : Char) : Option Nat :=
  if c.isDigit then some (c.toNat - 48)
  else if 'a' ≤ c ∧ c ≤ 'f' then some (c.toNat - 87)
  else if 'A' ≤ c ∧ c ≤ 'F' then some (c.toNat - 55)
  else none

/-- The letters that stand for a control character behind a backslash. -/
def control? : Char → Option Nat
  | 'b' => some 8
  | 't' => some 9
  | 'n' => some 10
  | 'v' => some 11
  | 'f' => some 12
  | 'r' => some 13
  | _ => none

/-- Where a reader of a literal stands. -/
inductive Reader where
  | start
  /-- Between two characters of the value. -/
  | plain
  /-- Behind a backslash. -/
  | escape
  /-- Behind `\0`, which no digit may follow. -/
  | zero
  /-- Behind a backslash and a carriage return; a line feed that follows belongs to them. -/
  | continued
  /-- Behind `\u`. -/
  | code
  /-- Within the digits of a code unit: how many are left behind the next one, and the number so far. -/
  | digits (left value : Nat)
  /-- Within the braces of `\u{…}`: the number so far. -/
  | braced (value : Option Nat)
  | closed
deriving DecidableEq, Repr

namespace Reader

/-- Read a character that is not part of an escape. -/
def plainNext? (c : Char) : Option (Reader × List Nat) :=
  if c = '\'' then some (.closed, [])
  else if c = '\\' then some (.escape, [])
  else if c = '\n' ∨ c = '\r' then none
  else some (.plain, utf16 c.toNat)

/-- Read the character behind a backslash. A backslash in front of a line end continues the literal
on the next line. -/
def escapeNext? (c : Char) : Option (Reader × List Nat) :=
  if c = 'x' then some (.digits 1 0, [])
  else if c = 'u' then some (.code, [])
  else if c = '0' then some (.zero, [0])
  else if c.isDigit then none
  else if c = '\r' then some (.continued, [])
  else if c = '\n' ∨ c = '\u2028' ∨ c = '\u2029' then some (.plain, [])
  else match control? c with
    | some unit => some (.plain, [unit])
    | none => some (.plain, utf16 c.toNat)

/-- Read one character: where the reader stands behind it and the code units that are complete. -/
def next? : Reader → Char → Option (Reader × List Nat)
  | .start, c => if c = '\'' then some (.plain, []) else none
  | .plain, c => plainNext? c
  | .escape, c => escapeNext? c
  | .zero, c => if c.isDigit then none else plainNext? c
  | .continued, c => if c = '\n' then some (.plain, []) else plainNext? c
  | .code, c =>
    if c = '{' then some (.braced none, []) else (hexDigit? c).map fun digit => (.digits 2 digit, [])
  | .digits 0 value, c => (hexDigit? c).map fun digit => (.plain, [16 * value + digit])
  | .digits (left + 1) value, c =>
    (hexDigit? c).map fun digit => (.digits left (16 * value + digit), [])
  | .braced value, c =>
    if c = '}' then value.map fun point => (.plain, utf16 point)
    else do
      let point := 16 * value.getD 0 + (← hexDigit? c)
      if point ≤ 0x10FFFF then some (.braced (some point), []) else none
  | .closed, _ => none

/-- Read a text to its end, which must be that of the literal. -/
def run? : Reader → List Char → Option (List Nat)
  | reader, [] => if reader = .closed then some [] else none
  | reader, c :: cs => do
    let (reader, units) ← reader.next? c
    return units ++ (← run? reader cs)

theorem run?_cons {reader reader' : Reader} {c : Char} {units : List Nat}
    (h : reader.next? c = some (reader', units)) (cs : List Char) :
    reader.run? (c :: cs) = (reader'.run? cs).map (units ++ ·) := by
  cases hcs : reader'.run? cs <;> simp [run?, h, hcs]

theorem run?_cons_eq_none {reader : Reader} {c : Char} (h : reader.next? c = none) (cs : List Char) :
    reader.run? (c :: cs) = none := by
  simp [run?, h]

/-- Between two characters, what is written for a character that ends no line is read as this
character. -/
theorem run?_escaped {c : Char} (h : c ≠ '\n' ∧ c ≠ '\r') (cs : List Char) :
    Reader.plain.run? (escaped c ++ cs) = (Reader.plain.run? cs).map (utf16 c.toNat ++ ·) := by
  by_cases hback : c = '\\'
  · subst hback
    have hescape : Reader.plain.next? '\\' = some (.escape, []) := rfl
    have hplain : Reader.escape.next? '\\' = some (.plain, utf16 '\\'.toNat) := rfl
    rw [show escaped '\\' ++ cs = '\\' :: '\\' :: cs from rfl, run?_cons hescape, run?_cons hplain,
      Option.map_map]
    rfl
  by_cases hquote : c = '\''
  · subst hquote
    have hescape : Reader.plain.next? '\\' = some (.escape, []) := rfl
    have hplain : Reader.escape.next? '\'' = some (.plain, utf16 '\''.toNat) := rfl
    rw [show escaped '\'' ++ cs = '\\' :: '\'' :: cs from rfl, run?_cons hescape, run?_cons hplain,
      Option.map_map]
    rfl
  · have hnext : Reader.plain.next? c = some (.plain, utf16 c.toNat) := by
      simp [next?, plainNext?, hback, hquote, h.1, h.2]
    simpa [escaped, hback, hquote] using run?_cons hnext cs

/-- A line end is not escaped, and the reader stops at it. -/
theorem run?_lineEnd {c : Char} (h : c = '\n' ∨ c = '\r') (cs : List Char) :
    Reader.plain.run? (escaped c ++ cs) = none := by
  obtain rfl | rfl := h <;> exact run?_cons_eq_none rfl cs

/-- The contents of a literal as they are written, up to the closing quote. -/
theorem run?_contents (value : List Char) :
    Reader.plain.run? (value.flatMap escaped ++ ['\'']) =
      if '\n' ∈ value ∨ '\r' ∈ value then none else some (codeUnits value) := by
  induction value with
  | nil => rfl
  | cons c value ih =>
    rw [List.flatMap_cons, List.append_assoc]
    by_cases hc : c = '\n' ∨ c = '\r'
    · rw [run?_lineEnd hc, if_pos]
      obtain rfl | rfl := hc <;> simp
    · rw [not_or] at hc
      rw [run?_escaped hc, ih]
      have hfeed : ('\n' ∈ c :: value) = ('\n' ∈ value) := by simp [Ne.symm hc.1]
      have hreturn : ('\r' ∈ c :: value) = ('\r' ∈ value) := by simp [Ne.symm hc.2]
      simp only [hfeed, hreturn, apply_ite (Option.map (utf16 c.toNat ++ ·)), Option.map_none,
        Option.map_some]
      rfl

end Reader

end Literal

open Literal

/-- The code units that a text stands for if it is one string literal in single quotes. -/
def literalUnits? (text : String) : Option (List Nat) :=
  Reader.start.run? text.toList

example : literalUnits? "'\\x41\\u0042\\u{1f600}\\0'" = some [0x41, 0x42, 0xD83D, 0xDE00, 0] := by
  decide +kernel

/-- The text is one string literal in single quotes, on one line, and stands for the value. -/
def Denotes (text value : String) : Prop :=
  literalUnits? text = some (codeUnits value.toList) ∧ '\n' ∉ text.toList ∧ '\r' ∉ text.toList

/-- What the generated literal of a value stands for. -/
theorem literalUnits?_stringLiteral (value : String) :
    literalUnits? (stringLiteral value) =
      if '\n' ∈ value.toList ∨ '\r' ∈ value.toList then none
      else some (codeUnits value.toList) := by
  have hlist : (stringLiteral value).toList =
      '\'' :: (value.toList.flatMap escaped ++ ['\'']) := by
    simp [stringLiteral]
  have hopen : Reader.start.next? '\'' = some (.plain, []) := rfl
  rw [literalUnits?, hlist, Reader.run?_cons hopen, Reader.run?_contents]
  exact congrFun Option.map_id _

theorem mem_stringLiteral {value : String} {c : Char} (h : c ∈ (stringLiteral value).toList) :
    c = '\'' ∨ c = '\\' ∨ c ∈ value.toList := by
  simp only [stringLiteral, String.toList_append, String.toList_ofList, List.mem_append,
    List.mem_flatMap] at h
  obtain (h | ⟨d, hd, hc⟩) | h := h
  · exact .inl (by simpa using h)
  · unfold escaped at hc
    split at hc
    · obtain rfl | rfl : c = '\\' ∨ c = d := by simpa using hc
      · exact .inr (.inl rfl)
      · exact .inr (.inr hd)
    · obtain rfl : c = d := by simpa using hc
      exact .inr (.inr hd)
  · exact .inl (by simpa using h)

/-- The generated literal of a value stands for the value, whatever characters it has but line feeds
and carriage returns. -/
theorem denotes_stringLiteral_iff (value : String) :
    Denotes (stringLiteral value) value ↔ '\n' ∉ value.toList ∧ '\r' ∉ value.toList := by
  rw [Denotes, literalUnits?_stringLiteral]
  constructor
  · rintro ⟨hunits, -⟩
    rw [← not_or]
    intro hends
    rw [if_pos hends] at hunits
    exact absurd hunits (by simp)
  · rintro ⟨hfeed, hreturn⟩
    refine ⟨if_neg (not_or.2 ⟨hfeed, hreturn⟩), fun h => hfeed ?_, fun h => hreturn ?_⟩
    · simpa using mem_stringLiteral h
    · simpa using mem_stringLiteral h

/-- A value may have a line end, and then its literal is none. -/
theorem not_forall_denotes_stringLiteral : ¬ ∀ value, Denotes (stringLiteral value) value :=
  fun h => absurd (h "\n").1 (by decide +kernel)

/-! ### One value for a literal -/

/-- The code units of a text determine its first character: no character is a surrogate. -/
theorem utf16_append_inj {c d : Char} {cs ds : List Nat}
    (h : utf16 c.toNat ++ cs = utf16 d.toNat ++ ds) : c = d ∧ cs = ds := by
  have hc := c.valid
  have hd := d.valid
  simp only [UInt32.isValidChar, Nat.isValidChar] at hc hd
  change c.toNat < 0xd800 ∨ 0xdfff < c.toNat ∧ c.toNat < 0x110000 at hc
  change d.toNat < 0xd800 ∨ 0xdfff < d.toNat ∧ d.toNat < 0x110000 at hd
  unfold utf16 at h
  split at h <;> split at h <;>
    simp only [List.cons_append, List.nil_append, List.cons.injEq] at h
  · exact ⟨Char.toNat_inj.1 h.1, h.2⟩
  · omega
  · omega
  · exact ⟨Char.toNat_inj.1 (by omega), h.2.2⟩

theorem codeUnits_injective : Function.Injective codeUnits := by
  intro cs
  induction cs with
  | nil =>
    intro ds h
    cases ds with
    | nil => rfl
    | cons d ds =>
      simp only [codeUnits, List.flatMap_nil, List.flatMap_cons, utf16] at h
      split at h <;> simp at h
  | cons c cs ih =>
    intro ds h
    cases ds with
    | nil =>
      simp only [codeUnits, List.flatMap_nil, List.flatMap_cons, utf16] at h
      split at h <;> simp at h
    | cons d ds =>
      obtain ⟨rfl, htail⟩ := utf16_append_inj (by simpa only [codeUnits, List.flatMap_cons] using h)
      rw [ih htail]

/-- A literal stands for one value only. -/
theorem Denotes.unique {text value value' : String} (h : Denotes text value)
    (h' : Denotes text value') : value = value' :=
  String.toList_inj.1 (codeUnits_injective (Option.some.inj (h.1.symm.trans h'.1)))

end CodeSplice
