/-
Module: CodeSplice.Proofs.Syntax.Remark
Purpose: What a comment looks like. It begins with a slash; a comment of several lines also ends with
  one, and a comment that begins with two slashes has one line.
Main exports: IsComment, isComment_take, Token.Placed.isComment, Token.Placed.exists_visible
-/
import CodeSplice.Proofs.Syntax.Placement
import CodeSplice.Proofs.Text.Said

namespace CodeSplice.Syntax

open Text

/-- The text of a comment. -/
structure IsComment (cs : List Char) : Prop where
  head : cs.head? = some '/'
  last : '\n' ∈ cs → cs.getLast? = some '/'
  line : "//".toList.isPrefixOf cs = true → '\n' ∉ cs

theorem getLast?_blockComment {cs : List Char} {length : Nat}
    (h : blockCommentLength cs = some length) :
    0 < length ∧ (cs.take length).getLast? = some '/' := by
  induction cs using blockCommentLength.induct generalizing length with
  | case1 cs =>
    obtain rfl : 2 = length := by simpa [blockCommentLength] using h
    simp
  | case2 c cs hne hnul =>
    rw [blockCommentLength, if_pos hnul] at h
    · simp at h
    · exact hne
  | case3 c cs hne hnul ih =>
    rw [blockCommentLength, if_neg hnul] at h
    · obtain ⟨rest, hrest, rfl⟩ := Option.map_eq_some_iff.1 h
      obtain ⟨hpos, hlast⟩ := ih hrest
      exact ⟨Nat.succ_pos _, by rw [List.take_succ_cons, List.getLast?_cons, hlast]; rfl⟩
    · exact hne
  | case4 => simp [blockCommentLength] at h

/-- What a comment takes of a text is a comment. -/
theorem isComment_take {cs : List Char} (h : 0 < commentLength cs) :
    IsComment (cs.take (commentLength cs)) := by
  unfold commentLength at h ⊢
  split
  · rename_i rest
    have htake : ('/' :: '/' :: rest).take
        ((rest.takeWhile fun c => !endsLine c && c != '\x00').length + 2) =
        '/' :: '/' :: rest.takeWhile fun c => !endsLine c && c != '\x00' := by
      simp only [List.take_succ_cons]
      rw [← List.prefix_iff_eq_take.1 (List.takeWhile_prefix _)]
    have hline : '\n' ∉ '/' :: '/' :: rest.takeWhile fun c => !endsLine c && c != '\x00' := by
      intro hmem
      rcases List.mem_cons.1 hmem with heq | hmem
      · exact absurd heq (by decide)
      · rcases List.mem_cons.1 hmem with heq | hmem
        · exact absurd heq (by decide)
        · have := List.all_eq_true.1 List.all_takeWhile _ hmem
          simp [endsLine] at this
    rw [htake]
    exact ⟨rfl, fun hmem => absurd hmem hline, fun _ => hline⟩
  · rename_i rest
    cases hlength : blockCommentLength rest with
    | none => simp [hlength] at h
    | some length =>
      obtain ⟨hpos, hlast⟩ := getLast?_blockComment hlength
      refine ⟨rfl, fun _ => ?_, fun hline => ?_⟩
      · simp only [Option.map_some, Option.getD_some, List.take_succ_cons]
        rw [List.getLast?_cons, List.getLast?_cons, hlast]
        rfl
      · simp [List.isPrefixOf] at hline
  · simp at h

/-- A comment that is placed in a text looks like one. -/
theorem Token.Placed.isComment {text : List Char} {token : Token} (h : token.Placed text)
    (hc : token.is .comment = true) : IsComment token.text.toList := by
  obtain ⟨hlt, hstop⟩ := h.remark hc
  have hlength : token.extent.stop - token.extent.start =
      commentLength (text.drop token.extent.start) := by omega
  rw [h.text_eq, slice, hlength]
  exact isComment_take (by omega)

/-- What an interpreter line takes of a text begins with its mark. -/
theorem head?_take_interpreterLength {cs : List Char} (h : 0 < interpreterLength cs) :
    (cs.take (interpreterLength cs)).head? = some '#' := by
  unfold interpreterLength at h ⊢
  split
  · rfl
  · simp at h

/-- A comment and an interpreter line begin with something that can be seen. -/
theorem Token.Placed.exists_visible {text : List Char} {token : Token} (h : token.Placed text)
    (hkind : (token.is .comment || token.is .interpreter) = true) :
    ∃ c rest, token.text.toList = c :: rest ∧ isSpace c = false := by
  cases hcomment : token.is .comment with
  | true =>
    obtain ⟨rest, hrest⟩ := List.head?_eq_some_iff.1 (h.isComment hcomment).head
    exact ⟨'/', rest, hrest, by decide⟩
  | false =>
    have hline : token.is .interpreter = true := by simpa [hcomment] using hkind
    have hkind' : token.terminal = .kind .interpreter := by simpa [Token.is] using hline
    have hlt := h.solid (by simp [Token.is, hkind']) (by simp [Token.is, hkind'])
    have hstop := h.interpreter hline
    have htext := h.text_eq
    rw [slice, hstop, Nat.add_sub_cancel_left] at htext
    obtain ⟨rest, hrest⟩ := List.head?_eq_some_iff.1
      (htext ▸ head?_take_interpreterLength (by omega))
    exact ⟨'#', rest, hrest, by decide⟩

theorem IsComment.trimEnd_ne_nil {cs : List Char} (h : IsComment cs) :
    ∃ rest, trimEnd cs = '/' :: rest := by
  have hhead := h.head
  cases cs with
  | nil => simp at hhead
  | cons c cs =>
    obtain rfl : c = '/' := by simpa using hhead
    exact ⟨trimEnd cs, by rw [trimEnd_cons, if_neg (by simp [show isSpace '/' = false by decide])]⟩

/-- The white space at the end of a comment says nothing. -/
theorem IsComment.said_trimEnd {cs : List Char} (h : IsComment cs) : said (trimEnd cs) = said cs := by
  by_cases hmem : '\n' ∈ cs
  · have hlast := h.last hmem
    obtain ⟨front, rfl⟩ := List.getLast?_eq_some_iff.1 hlast
    have htrim : trimEnd (front ++ ['/']) = front ++ ['/'] := by
      simp [trimEnd, show isSpace '/' = false by decide]
    rw [htrim]
  · obtain ⟨w, hcs, hw⟩ := exists_trimEnd cs
    have hmem' : '\n' ∉ trimEnd cs := by
      intro hn
      rw [hcs] at hmem
      exact hmem (List.mem_append_left w hn)
    simp [said, splitLines_of_not_mem hmem, splitLines_of_not_mem hmem']

end CodeSplice.Syntax
