/-
Module: CodeSplice.Proofs.Syntax.Scan
Purpose: The tokens that scanning finds. A token is read as a comment or as an interpreter line only if
  one stands there, and then it takes all of it; what is read as a keyword or a mark is spelled like it.
  Only the unmarked end of a statement and the end of the text have no characters.
Main exports: Expectation.next?_remark, Expectation.next?_spelled, Expectation.next?_solid
-/
import CodeSplice.Syntax.Scan

namespace CodeSplice.Syntax

open Text

/-- What is in sight as a comment or as an interpreter line is one. -/
structure Sighting.IsRemark (cs : List Char) (sighting : Sighting) : Prop where
  comment : sighting.terminal = .kind .comment →
    0 < sighting.length ∧ sighting.length = commentLength (cs.drop sighting.skip)
  interpreter : sighting.terminal = .kind .interpreter →
    sighting.length = interpreterLength (cs.drop sighting.skip)

/-- A terminal that neither a comment nor an interpreter line is read as. -/
def Terminal.IsCode (terminal : Terminal) : Prop :=
  terminal ≠ .kind .comment ∧ terminal ≠ .kind .interpreter

theorem Terminal.isCode_spelled (text : List Char) : (Terminal.spelled text).IsCode :=
  ⟨nofun, nofun⟩

/-- A terminal of a kind of its own, which is no comment and no interpreter line. -/
def Terminal.IsPlain (terminal : Terminal) : Prop :=
  ∃ kind, terminal = .kind kind ∧ kind ≠ .comment ∧ kind ≠ .interpreter

theorem Terminal.IsPlain.isCode {terminal : Terminal} (h : terminal.IsPlain) : terminal.IsCode := by
  obtain ⟨kind, rfl, hcomment, hline⟩ := h
  exact ⟨fun heq => hcomment (Terminal.kind.inj heq), fun heq => hline (Terminal.kind.inj heq)⟩

theorem Sighting.isRemark_of_isCode {cs : List Char} {sighting : Sighting}
    (h : sighting.terminal.IsCode) : sighting.IsRemark cs :=
  ⟨fun hcomment => absurd hcomment h.1, fun hline => absurd hline h.2⟩

theorem choiceMark?_terminal {cs : List Char} {sighting : Sighting}
    (h : choiceMark? cs = some sighting) : sighting.terminal = .kind .choiceMark := by
  unfold choiceMark? at h
  simp only at h
  split at h
  · split at h
    · split at h
      · obtain rfl := Option.some_inj.1 h
        rfl
      · simp at h
    · split at h
      · simp at h
      · obtain rfl := Option.some_inj.1 h
        rfl
  · simp at h

theorem markup?_terminal {cs : List Char} {sighting : Sighting}
    (h : markup? cs = some sighting) : sighting.terminal = .kind .markup := by
  unfold markup? at h
  simp only at h
  split at h
  · obtain rfl := Option.some_inj.1 h
    rfl
  · simp at h

theorem regexBody?_kind {cs : List Char} {sighting : Sighting}
    (h : regexBody? cs = some sighting) : ∃ kind, sighting.terminal = .kind kind := by
  unfold regexBody? at h
  simp only at h
  split at h
  · obtain rfl := Option.some_inj.1 h
    exact ⟨_, rfl⟩
  · split at h
    · obtain rfl := Option.some_inj.1 h
      exact ⟨_, rfl⟩
    · simp at h

theorem regexBody?_remark {cs : List Char} {sighting : Sighting}
    (h : regexBody? cs = some sighting) : sighting.IsRemark cs := by
  unfold regexBody? at h
  simp only at h
  split at h
  · rename_i hremark
    simp only [Bool.and_eq_true, bne_iff_ne] at hremark
    obtain rfl := Option.some_inj.1 h
    exact ⟨fun _ => ⟨Nat.pos_of_ne_zero hremark.1.1, rfl⟩, nofun⟩
  · split at h
    · obtain rfl := Option.some_inj.1 h
      exact Sighting.isRemark_of_isCode ⟨nofun, nofun⟩
    · simp at h

namespace Expectation

variable (expectation : Expectation)

theorem lineEnd?_terminal {cs : List Char} {sighting : Sighting}
    (h : expectation.lineEnd? cs = some sighting) : sighting.terminal.IsPlain := by
  unfold lineEnd? at h
  split at h
  · obtain rfl := Option.some_inj.1 h
    exact ⟨_, rfl, nofun, nofun⟩
  · split at h
    · obtain ⟨mark, hmark, rfl⟩ := Option.map_eq_some_iff.1 h
      have hterminal : mark.terminal = .kind .choiceMark := choiceMark?_terminal hmark
      exact ⟨_, hterminal, nofun, nofun⟩
    · simp at h

theorem special?_terminal {cs : List Char} {sighting : Sighting}
    (h : expectation.special? cs = some sighting) : sighting.terminal.IsPlain := by
  unfold special? at h
  split at h
  · split at h
    · obtain rfl := Option.some_inj.1 h
      exact ⟨_, rfl, nofun, nofun⟩
    · simp at h
  · split at h
    · exact expectation.lineEnd?_terminal h
    · split at h
      · exact ⟨_, choiceMark?_terminal h, nofun, nofun⟩
      · split at h
        · simp at h
        · exact ⟨_, markup?_terminal h, nofun, nofun⟩

theorem immediate?_terminal {cs : List Char} {sighting : Sighting}
    (h : expectation.immediate? cs = some sighting) : sighting.terminal.IsPlain := by
  unfold immediate? at h
  have single : ∀ (condition : Bool) (other : Sighting),
      (if condition then some other else none) = some sighting → sighting = other := by
    intro condition other hother
    cases condition <;> simp_all
  simp only [HOrElse.hOrElse, OrElse.orElse, Option.orElse_eq_or, Option.or_eq_some_iff] at h
  rcases h with h | ⟨-, h | ⟨-, h⟩⟩
  · obtain rfl := single _ _ h
    exact ⟨_, rfl, nofun, nofun⟩
  · obtain rfl := single _ _ h
    exact ⟨_, rfl, nofun, nofun⟩
  · obtain rfl := single _ _ h
    exact ⟨_, rfl, nofun, nofun⟩

theorem isCode_wordTerminal (text : List Char) : (expectation.wordTerminal text).IsCode := by
  unfold wordTerminal
  split
  · exact Terminal.isCode_spelled text
  · exact ⟨nofun, nofun⟩

/-- Among the candidates for the longest token there is no comment, and an interpreter line is one. -/
theorem isRemark_of_mem_candidates {cs : List Char} {sighting : Sighting}
    (h : sighting ∈ expectation.candidates cs) : sighting.terminal ≠ .kind .comment ∧
      (sighting.terminal = .kind .interpreter → sighting.length = interpreterLength cs) := by
  have ofCode : sighting.terminal.IsCode → sighting.terminal ≠ .kind .comment ∧
      (sighting.terminal = .kind .interpreter → sighting.length = interpreterLength cs) :=
    fun hcode => ⟨hcode.1, fun hline => absurd hline hcode.2⟩
  unfold candidates at h
  simp only [List.mem_append] at h
  have single : ∀ (condition : Bool) (other : Sighting),
      sighting ∈ (if condition then [other] else []) → sighting = other := by
    intro condition other hother
    cases condition <;> simp_all
  rcases h with (((h | h) | h) | h) | h
  · obtain ⟨⟨text, code⟩, -, hmark⟩ := List.mem_filterMap.1 h
    split at hmark
    · obtain rfl := Option.some_inj.1 hmark
      exact ofCode (Terminal.isCode_spelled text)
    · simp at hmark
  · obtain rfl := single _ _ h
    exact ofCode ⟨nofun, nofun⟩
  · obtain rfl := single _ _ h
    exact ofCode ⟨nofun, nofun⟩
  · obtain rfl := single _ _ h
    exact ⟨nofun, fun _ => rfl⟩
  · split at h
    · obtain rfl := List.mem_singleton.1 h
      exact ofCode (expectation.isCode_wordTerminal _)
    · simp at h

theorem foldl_longer_mem (first : Sighting) (others : List Sighting) :
    others.foldl longer first = first ∨ others.foldl longer first ∈ others := by
  induction others generalizing first with
  | nil => exact .inl rfl
  | cons other others ih =>
    rw [List.foldl_cons]
    rcases ih (longer first other) with h | h
    · rw [h, longer]
      split <;> simp
    · exact .inr (by simp [h])

theorem longest?_remark {cs : List Char} {sighting : Sighting}
    (h : expectation.longest? cs = some sighting) : sighting.IsRemark cs := by
  unfold longest? at h
  generalize (if expectation.hasKind .regexFlags then flagsLength cs else 0) = flags at h
  simp only at h
  split at h
  · obtain rfl := Option.some_inj.1 h
    exact Sighting.isRemark_of_isCode ⟨nofun, nofun⟩
  · split at h
    · rename_i hlength
      obtain rfl := Option.some_inj.1 h
      simp only [bne_iff_ne] at hlength
      rcases foldl_longer_mem { terminal := .kind .comment, length := commentLength _ }
        (expectation.candidates (cs.drop (cs.takeWhile isGap).length)) with hbest | hbest
      · rw [hbest] at hlength ⊢
        exact ⟨fun _ => ⟨Nat.pos_of_ne_zero hlength, rfl⟩, nofun⟩
      · obtain ⟨hcomment, hline⟩ := expectation.isRemark_of_mem_candidates hbest
        exact ⟨fun hterminal => absurd hterminal hcomment, hline⟩
    · split at h
      · obtain rfl := Option.some_inj.1 h
        exact Sighting.isRemark_of_isCode ⟨nofun, nofun⟩
      · simp at h

/-- The next token is read as a comment or as an interpreter line only if it is one. -/
theorem next?_remark {cs : List Char} {sighting : Sighting}
    (h : expectation.next? cs = some sighting) : sighting.IsRemark cs := by
  unfold next? at h
  simp only [HOrElse.hOrElse, OrElse.orElse, Option.orElse_eq_or, Option.or_eq_some_iff] at h
  rcases h with h | ⟨-, h | ⟨-, h | ⟨-, h⟩⟩⟩
  · exact Sighting.isRemark_of_isCode (expectation.special?_terminal h).isCode
  · exact Sighting.isRemark_of_isCode (expectation.immediate?_terminal h).isCode
  · split at h
    · exact regexBody?_remark h
    · simp at h
  · split at h
    · obtain rfl := Option.some_inj.1 h
      exact Sighting.isRemark_of_isCode ⟨nofun, nofun⟩
    · exact expectation.longest?_remark h

end Expectation

/-! ### Keywords and marks -/

/-- What is in sight as a keyword or a mark is spelled like it. -/
def Sighting.IsSpelled (cs : List Char) (sighting : Sighting) : Prop :=
  ∀ text, sighting.terminal = .spelled text →
    (cs.drop sighting.skip).take sighting.length = text ∧ sighting.length = text.length

theorem Sighting.isSpelled_of_kind {cs : List Char} {sighting : Sighting} {kind : TokenKind}
    (h : sighting.terminal = .kind kind) : sighting.IsSpelled cs := by
  intro text htext
  rw [h] at htext
  cases htext

theorem Terminal.IsPlain.isSpelled {cs : List Char} {sighting : Sighting}
    (h : sighting.terminal.IsPlain) : sighting.IsSpelled cs := by
  obtain ⟨kind, hkind, -⟩ := h
  exact Sighting.isSpelled_of_kind hkind

theorem wordPartLength_le (skip : Nat) (cs : List Char) : wordPartLength skip cs ≤ cs.length := by
  induction cs generalizing skip with
  | nil => exact Nat.le_refl _
  | cons c cs ih =>
    cases skip with
    | succ skip => exact Nat.succ_le_succ (ih skip)
    | zero =>
      simp only [wordPartLength]
      split
      · split
        · exact Nat.zero_le _
        · exact Nat.succ_le_succ (ih _)
      · split
        · exact Nat.succ_le_succ (ih 0)
        · exact Nat.zero_le _

theorem wordLength_le (cs : List Char) : wordLength cs ≤ cs.length := by
  unfold wordLength
  split
  · exact Nat.zero_le _
  · exact wordPartLength_le 0 cs

namespace Expectation

variable (expectation : Expectation)

/-- A candidate for the longest token that is a keyword or a mark stands at the front. -/
theorem take_of_mem_candidates {cs text : List Char} {sighting : Sighting}
    (h : sighting ∈ expectation.candidates cs) (htext : sighting.terminal = .spelled text) :
    cs.take sighting.length = text ∧ sighting.length = text.length := by
  unfold candidates at h
  simp only [List.mem_append] at h
  have single : ∀ (condition : Bool) (other : Sighting),
      sighting ∈ (if condition then [other] else []) → sighting = other := by
    intro condition other hother
    cases condition <;> simp_all
  rcases h with (((h | h) | h) | h) | h
  · obtain ⟨⟨mark, code⟩, -, hmark⟩ := List.mem_filterMap.1 h
    split at hmark
    · rename_i hprefix
      obtain rfl := Option.some_inj.1 hmark
      obtain rfl := Terminal.spelled.inj htext
      rw [Bool.and_eq_true, List.isPrefixOf_iff_prefix] at hprefix
      exact ⟨(List.prefix_iff_eq_take.1 hprefix.2).symm, rfl⟩
    · simp at hmark
  · obtain rfl := single _ _ h
    cases htext
  · obtain rfl := single _ _ h
    cases htext
  · obtain rfl := single _ _ h
    cases htext
  · split at h
    · obtain rfl := List.mem_singleton.1 h
      simp only [wordTerminal] at htext
      split at htext
      · obtain rfl := Terminal.spelled.inj htext
        exact ⟨rfl, (List.length_take_of_le (wordLength_le cs)).symm⟩
      · cases htext
    · simp at h

theorem longest?_spelled {cs : List Char} {sighting : Sighting}
    (h : expectation.longest? cs = some sighting) : sighting.IsSpelled cs := by
  unfold longest? at h
  generalize (if expectation.hasKind .regexFlags then flagsLength cs else 0) = flags at h
  simp only at h
  split at h
  · obtain rfl := Option.some_inj.1 h
    exact Sighting.isSpelled_of_kind rfl
  · split at h
    · obtain rfl := Option.some_inj.1 h
      rcases foldl_longer_mem { terminal := .kind .comment, length := commentLength _ }
        (expectation.candidates (cs.drop (cs.takeWhile isGap).length)) with hbest | hbest
      · rw [hbest]
        exact Sighting.isSpelled_of_kind rfl
      · intro text htext
        have htake := expectation.take_of_mem_candidates hbest htext
        exact htake
    · split at h
      · obtain rfl := Option.some_inj.1 h
        exact Sighting.isSpelled_of_kind rfl
      · simp at h

/-- The next token is spelled like the keyword or the mark that it is read as. -/
theorem next?_spelled {cs : List Char} {sighting : Sighting}
    (h : expectation.next? cs = some sighting) : sighting.IsSpelled cs := by
  unfold next? at h
  simp only [HOrElse.hOrElse, OrElse.orElse, Option.orElse_eq_or, Option.or_eq_some_iff] at h
  rcases h with h | ⟨-, h | ⟨-, h | ⟨-, h⟩⟩⟩
  · exact (expectation.special?_terminal h).isSpelled
  · exact (expectation.immediate?_terminal h).isSpelled
  · split at h
    · obtain ⟨kind, hkind⟩ := regexBody?_kind h
      exact Sighting.isSpelled_of_kind hkind
    · simp at h
  · split at h
    · obtain rfl := Option.some_inj.1 h
      exact Sighting.isSpelled_of_kind rfl
    · exact expectation.longest?_spelled h

end Expectation

/-! ### Tokens without characters -/

/-- What is in sight has characters, unless it is the end of a statement or of the text. -/
def Sighting.IsSolid (sighting : Sighting) : Prop :=
  sighting.terminal = .kind .lineEnd ∨ sighting.terminal = .kind .endOfText ∨ 0 < sighting.length

theorem choiceMark?_solid {cs : List Char} {sighting : Sighting}
    (h : choiceMark? cs = some sighting) : sighting.IsSolid := by
  unfold choiceMark? at h
  simp only at h
  split at h
  · split at h
    · split at h
      · obtain rfl := Option.some_inj.1 h
        exact .inr (.inr Nat.one_pos)
      · simp at h
    · split at h
      · simp at h
      · obtain rfl := Option.some_inj.1 h
        exact .inr (.inr Nat.one_pos)
  · simp at h

theorem markup?_solid {cs : List Char} {sighting : Sighting}
    (h : markup? cs = some sighting) : sighting.IsSolid := by
  unfold markup? at h
  simp only at h
  split at h
  · rename_i hmark
    obtain rfl := Option.some_inj.1 h
    refine .inr (.inr ?_)
    generalize cs.drop (cs.takeWhile fun c =>
      isPlainGap c || c == '\u2028' || c == '\u2029').length = rest at hmark ⊢
    cases rest with
    | nil => exact absurd hmark (by decide)
    | cons c rest =>
      have hc : c = '<' ∨ c = '-' := by
        simp only [Bool.or_eq_true, List.isPrefixOf_iff_prefix] at hmark
        rcases hmark with ⟨behind, hbehind⟩ | ⟨behind, hbehind⟩
        · exact .inl (List.cons.inj hbehind).1.symm
        · exact .inr (List.cons.inj hbehind).1.symm
      have hpass : (!breaksLine c && c != '\x00') = true := by
        rcases hc with rfl | rfl <;> decide
      rw [List.takeWhile_cons, if_pos hpass, List.length_cons]
      exact Nat.succ_pos _
  · simp at h

theorem regexBody?_solid {cs : List Char} {sighting : Sighting}
    (h : regexBody? cs = some sighting) : sighting.IsSolid := by
  unfold regexBody? at h
  simp only at h
  split at h
  · rename_i hremark
    simp only [Bool.and_eq_true, bne_iff_ne] at hremark
    obtain rfl := Option.some_inj.1 h
    exact .inr (.inr (Nat.pos_of_ne_zero hremark.1.1))
  · split at h
    · rename_i hlength
      obtain rfl := Option.some_inj.1 h
      exact .inr (.inr (Nat.pos_of_ne_zero (by simpa using hlength)))
    · simp at h

namespace Expectation

variable (expectation : Expectation)

theorem lineEnd?_solid {cs : List Char} {sighting : Sighting}
    (h : expectation.lineEnd? cs = some sighting) : sighting.IsSolid := by
  unfold lineEnd? at h
  split at h
  · obtain rfl := Option.some_inj.1 h
    exact .inl rfl
  · split at h
    · obtain ⟨mark, hmark, rfl⟩ := Option.map_eq_some_iff.1 h
      have hsolid : mark.IsSolid := choiceMark?_solid hmark
      exact hsolid
    · simp at h

theorem special?_solid {cs : List Char} {sighting : Sighting}
    (h : expectation.special? cs = some sighting) : sighting.IsSolid := by
  unfold special? at h
  split at h
  · split at h
    · obtain rfl := Option.some_inj.1 h
      exact .inr (.inr (Nat.succ_pos _))
    · simp at h
  · split at h
    · exact expectation.lineEnd?_solid h
    · split at h
      · exact choiceMark?_solid h
      · split at h
        · simp at h
        · exact markup?_solid h

theorem immediate?_solid {cs : List Char} {sighting : Sighting}
    (h : expectation.immediate? cs = some sighting) : sighting.IsSolid := by
  unfold immediate? at h
  have single : ∀ (kind kind' : TokenKind) (length : Nat),
      (if (expectation.hasKind kind && length != 0) = true then
        some ({ terminal := .kind kind', length } : Sighting) else none) = some sighting →
      sighting.IsSolid := by
    intro kind kind' length hsingle
    split at hsingle
    · rename_i hlength
      simp only [Bool.and_eq_true, bne_iff_ne] at hlength
      obtain rfl := Option.some_inj.1 hsingle
      exact .inr (.inr (Nat.pos_of_ne_zero hlength.2))
    · simp at hsingle
  simp only [HOrElse.hOrElse, OrElse.orElse, Option.orElse_eq_or, Option.or_eq_some_iff] at h
  rcases h with h | ⟨-, h | ⟨-, h⟩⟩
  · exact single _ _ _ h
  · exact single _ _ _ h
  · exact single _ _ _ h

theorem longest?_solid {cs : List Char} {sighting : Sighting}
    (h : expectation.longest? cs = some sighting) : sighting.IsSolid := by
  unfold longest? at h
  generalize (if expectation.hasKind .regexFlags then flagsLength cs else 0) = flags at h
  simp only at h
  split at h
  · rename_i hflags
    simp only [Bool.and_eq_true, bne_iff_ne] at hflags
    obtain rfl := Option.some_inj.1 h
    exact .inr (.inr (Nat.pos_of_ne_zero hflags.1))
  · split at h
    · rename_i hlength
      obtain rfl := Option.some_inj.1 h
      exact .inr (.inr (Nat.pos_of_ne_zero (by simpa using hlength)))
    · split at h
      · obtain rfl := Option.some_inj.1 h
        exact .inr (.inl rfl)
      · simp at h

/-- The next token has characters, unless it is the end of a statement or of the text. -/
theorem next?_solid {cs : List Char} {sighting : Sighting}
    (h : expectation.next? cs = some sighting) : sighting.IsSolid := by
  unfold next? at h
  simp only [HOrElse.hOrElse, OrElse.orElse, Option.orElse_eq_or, Option.or_eq_some_iff] at h
  rcases h with h | ⟨-, h | ⟨-, h | ⟨-, h⟩⟩⟩
  · exact expectation.special?_solid h
  · exact expectation.immediate?_solid h
  · split at h
    · exact regexBody?_solid h
    · simp at h
  · split at h
    · obtain rfl := Option.some_inj.1 h
      exact .inr (.inr Nat.one_pos)
    · exact expectation.longest?_solid h

end Expectation

end CodeSplice.Syntax
