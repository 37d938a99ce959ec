/-
Module: CodeSplice.Proofs.Document.Bears
Purpose: Which comments of a source stand in a text that is made from it. A text bears comments if it is
  made of stretches of the source without comments, of words of its own that hold no slash, and of the
  comments, each with what it says. What is laid out anew bears the comments of its stretch.
Main exports: Source.Bears, Source.Sound, Source.between, Source.bears_of_laid
-/
import CodeSplice.Document.Reading
import CodeSplice.Proofs.Layout.Measure
import CodeSplice.Proofs.Syntax.Remark

namespace CodeSplice

open Layout Syntax Text

/-- The place behind a token, the white space at its end not counted. -/
def Syntax.Token.solidStop (token : Token) : Nat :=
  token.extent.start + (trimEnd token.text.toList).length

/-- A comment that is laid out anew outside of template literals says the same, one empty line for
several. -/
theorem Syntax.IsComment.said_relaid {cs o : List Char} (h : IsComment cs) {inside : Nat → Bool}
    {start : Nat} (outside : ∀ q, start ≤ q → q ≤ start + (trimEnd cs).length → inside q = false)
    (ho : Relaid inside start (trimEnd cs) o) : said o = squeezed (said cs) := by
  obtain ⟨rest, hrest⟩ := h.trimEnd_ne_nil
  have hslash : isSpace '/' = false := by decide
  obtain ⟨line, lines, hs, ho⟩ :=
    ho.ended_of_outside outside fun c hc => not_isSpace_getLast_trimEnd hc
  obtain ⟨line', hline⟩ : ∃ line', line = '/' :: line' := by
    obtain ⟨first, others, hended⟩ := List.exists_cons_of_ne_nil (ended_ne_nil rest)
    rw [hrest, ended_cons (by decide) hended, if_neg (by simp [hslash])] at hs
    exact ⟨first, (List.cons.inj hs).1.symm⟩
  have hsaid : said (trimEnd cs) = line :: lines := by
    rw [said_eq_ended, hs, hline, List.modifyHead_cons, trimStart_cons_of_not_space hslash]
  rw [← h.said_trimEnd, hsaid, squeezed_cons (by simp [hline]), said_eq_ended, ho, hline,
    List.modifyHead_cons, trimStart_cons_of_not_space hslash]

namespace Source

/-- What a comment says where it is written again: its lines, but outside of template literals one empty
line for several. -/
def shown (source : Source) (remark : Token) : List (List Char) :=
  if source.literals.any fun literal =>
      decide (literal.start ≤ remark.extent.start) && decide (remark.extent.stop ≤ literal.stop) then
    said remark.text.toList
  else squeezed (said remark.text.toList)

/-- A stretch without comments. -/
def Free (source : Source) (start stop : Nat) : Prop :=
  ∀ r ∈ source.remarks, r.solidStop ≤ start ∨ stop ≤ r.extent.start

/-- A text bears comments of a source, in the order in which they stand in it. -/
inductive Bears (source : Source) : List Char → List Token → Prop where
  | nil : Bears source [] []
  | plain {text own : List Char} {rs : List Token} (h : Bears source text rs) (slash : '/' ∉ own) :
      Bears source (text ++ own) rs
  | code {text own : List Char} {rs : List Token} (h : Bears source text rs) (start stop : Nat)
      (free : source.Free start stop)
      (solid_eq : solid own = solid (Text.slice source.text start stop)) :
      Bears source (text ++ own) rs
  | remark {text own : List Char} {rs : List Token} (h : Bears source text rs) {r : Token}
      (mem : r ∈ source.remarks) (ne_nil : own ≠ [])
      (last : ∀ c, own.getLast? = some c → isSpace c = false)
      (said_eq : said own = source.shown r) : Bears source (text ++ own) (rs ++ [r])

namespace Bears

variable {source : Source} {s t : List Char} {rs qs : List Token}

theorem append (h : Bears source s rs) (h' : Bears source t qs) :
    Bears source (s ++ t) (rs ++ qs) := by
  induction h' with
  | nil => simpa using h
  | plain _ slash ih =>
    rw [← List.append_assoc]
    exact ih.plain slash
  | code _ start stop free solid_eq ih =>
    rw [← List.append_assoc]
    exact ih.code start stop free solid_eq
  | remark _ mem ne_nil last said_eq ih =>
    rw [← List.append_assoc, ← List.append_assoc]
    exact ih.remark mem ne_nil last said_eq

theorem ofPlain {own : List Char} (slash : '/' ∉ own) : Bears source own [] :=
  Bears.nil.plain slash

theorem ofCode {own : List Char} (start stop : Nat) (free : source.Free start stop)
    (solid_eq : solid own = solid (Text.slice source.text start stop)) : Bears source own [] :=
  Bears.nil.code start stop free solid_eq

theorem snoc_eq_append {s text own : List Char} {c : Char} (h : s ++ [c] = text ++ own) :
    (own = [] ∧ s ++ [c] = text) ∨ ∃ front, own = front ++ [c] ∧ s = text ++ front := by
  by_cases hown : own = []
  · exact .inl ⟨hown, by rw [h, hown, List.append_nil]⟩
  · obtain ⟨front, last, rfl⟩ : ∃ front last, own = front ++ [last] :=
      ⟨_, _, (List.dropLast_concat_getLast hown).symm⟩
    rw [← List.append_assoc] at h
    obtain ⟨rfl, hlast⟩ := List.append_inj' h rfl
    obtain rfl : c = last := by simpa using hlast
    exact .inr ⟨front, rfl, rfl⟩

/-- A text without the line feed at its end bears the same comments. -/
theorem dropNewline (h : Bears source (s ++ ['\n']) rs) : Bears source s rs := by
  generalize ht : s ++ ['\n'] = t at h
  induction h generalizing s with
  | nil => simp at ht
  | @plain text own rs h slash ih =>
    rcases snoc_eq_append ht with ⟨-, htext⟩ | ⟨front, rfl, rfl⟩
    · exact ih htext
    · exact h.plain fun hmem => slash (by simp [hmem])
  | @code text own rs h start stop free solid_eq ih =>
    rcases snoc_eq_append ht with ⟨-, htext⟩ | ⟨front, rfl, rfl⟩
    · exact ih htext
    · have hnewline : solid ['\n'] = [] :=
        solid_of_white (white_cons.2 ⟨isSpace_newline, white_nil⟩)
      refine h.code start stop free ?_
      rw [← solid_eq, solid_append, hnewline, List.append_nil]
  | @remark text own rs h r mem ne_nil last said_eq ih =>
    rcases snoc_eq_append ht with ⟨rfl, -⟩ | ⟨front, rfl, -⟩
    · exact absurd rfl ne_nil
    · have := last '\n' (by simp)
      rw [isSpace_newline] at this
      contradiction

end Bears

/-! ### Sources -/

/-- The comments of a source are placed in its text and come one after another, and each of them lies
in a template literal or outside of it. -/
structure Sound (source : Source) : Prop where
  placed : ∀ r ∈ source.remarks, r.Placed source.text ∧ r.is .comment = true
  inOrder : InOrder (source.remarks.map Token.extent)
  literal : ∀ r ∈ source.remarks, ∀ literal ∈ source.literals,
    (literal.start ≤ r.extent.start ∧ r.extent.stop ≤ literal.stop) ∨
      r.extent.stop ≤ literal.start ∨ literal.stop ≤ r.extent.start

/-- The comments that begin in a stretch. -/
def between (source : Source) (start stop : Nat) : List Token :=
  source.remarks.filter fun r => decide (start ≤ r.extent.start) && decide (r.extent.start < stop)

/-- No comment stands on both sides of a place. -/
def Splits (source : Source) (position : Nat) : Prop :=
  ∀ r ∈ source.remarks, r.solidStop ≤ position ∨ position ≤ r.extent.start

variable {source : Source}

theorem slash_not_mem {w : List Char} (h : White w) : '/' ∉ w := by
  intro hmem
  have := h '/' hmem
  simp [show isSpace '/' = false by decide] at this

namespace Sound

theorem isComment (h : source.Sound) {r : Token} (hr : r ∈ source.remarks) :
    IsComment r.text.toList :=
  (h.placed r hr).1.isComment (h.placed r hr).2

theorem solidStop_le (h : source.Sound) {r : Token} (hr : r ∈ source.remarks) :
    r.solidStop ≤ r.extent.stop := by
  have hplaced := (h.placed r hr).1
  obtain ⟨w, htext, -⟩ := exists_trimEnd r.text.toList
  have hlength := congrArg List.length htext
  rw [List.length_append] at hlength
  have hslice : r.text.toList.length ≤ r.extent.stop - r.extent.start := by
    rw [hplaced.text_eq, Text.slice]
    exact List.length_take_le _ _
  have := hplaced.start_le
  simp only [Token.solidStop]
  omega

theorem start_lt_solidStop (h : source.Sound) {r : Token} (hr : r ∈ source.remarks) :
    r.extent.start < r.solidStop := by
  obtain ⟨rest, hrest⟩ := (h.isComment hr).trimEnd_ne_nil
  simp only [Token.solidStop, hrest, List.length_cons]
  omega

/-- The comments of a source are different from each other. -/
theorem nodup (h : source.Sound) : source.remarks.Nodup := by
  refine (List.pairwise_map.1 h.inOrder).imp_of_mem ?_
  rintro first second hfirst - hle rfl
  have := h.start_lt_solidStop hfirst
  have := h.solidStop_le hfirst
  omega

/-- The solid part of a comment stands where the comment does. -/
theorem slice_solid (h : source.Sound) {r : Token} (hr : r ∈ source.remarks) :
    Text.slice source.text r.extent.start r.solidStop = trimEnd r.text.toList := by
  have htext := (h.placed r hr).1.text_eq
  obtain ⟨w, hw, -⟩ := exists_trimEnd r.text.toList
  have hle := h.solidStop_le hr
  rw [htext] at hw
  generalize hsolid : trimEnd (Text.slice source.text r.extent.start r.extent.stop) = solid at hw
  have hlength : r.solidStop = r.extent.start + solid.length := by
    rw [Token.solidStop, htext, hsolid]
  rw [htext, hsolid]
  have hsplit : Text.slice source.text r.extent.start r.solidStop ++
      Text.slice source.text r.solidStop r.extent.stop = solid ++ w := by
    rw [slice_append (Nat.le_of_lt (h.start_lt_solidStop hr)) hle, hw]
  have hsame : (Text.slice source.text r.extent.start r.solidStop).length = solid.length := by
    have hslice : solid.length ≤ (source.text.drop r.extent.start).length := by
      have := congrArg List.length hw
      rw [Text.slice, List.length_take, List.length_append] at this
      omega
    rw [Text.slice, List.length_take]
    omega
  exact (List.append_inj hsplit hsame).1

/-- A comment that is laid out anew, be it as the text of something else, is borne if it says what it is to
say. -/
theorem bears_said (h : source.Sound) {r : Token} (hr : r ∈ source.remarks)
    {inside : Nat → Bool} {start : Nat} {o : List Char}
    (ho : Relaid inside start (trimEnd r.text.toList) o) (hsaid : said o = source.shown r) :
    source.Bears o [r] := by
  obtain ⟨rest, hrest⟩ := (h.isComment hr).trimEnd_ne_nil
  obtain ⟨front, last, hfront⟩ : ∃ front last, trimEnd r.text.toList = front ++ [last] :=
    ⟨_, _, (List.dropLast_concat_getLast (by simp [hrest])).symm⟩
  have hlast : isSpace last = false :=
    @not_isSpace_getLast_trimEnd r.text.toList last (by simp [hfront])
  obtain ⟨o', rfl⟩ : ∃ o', o = o' ++ [last] := Relaid.getLast_visible hlast (hfront ▸ ho)
  exact Bears.nil.remark hr (by simp) (by simpa using hlast) hsaid

/-- A comment that is laid out anew is borne. -/
theorem bears_remark (h : source.Sound) {r : Token} (hr : r ∈ source.remarks) {o : List Char}
    (ho : Relaid (inside source.literals) r.extent.start (trimEnd r.text.toList) o) :
    source.Bears o [r] := by
  have hcomment := h.isComment hr
  have hstop := h.solidStop_le hr
  simp only [Token.solidStop] at hstop
  refine h.bears_said hr ho ?_
  unfold shown
  split
  · rename_i hinside
    obtain ⟨literal, hliteral, hwithin⟩ := List.any_eq_true.1 hinside
    simp only [Bool.and_eq_true, decide_eq_true_eq] at hwithin
    have hfeeds : Feeds (inside source.literals · = true) r.extent.start (trimEnd r.text.toList) := by
      intro i hi
      have hlt := (List.getElem?_eq_some_iff.1 hi).1
      have hne : i + 1 ≠ (trimEnd r.text.toList).length := by
        intro heq
        have := @not_isSpace_getLast_trimEnd r.text.toList '\n'
          (by rw [List.getLast?_eq_getElem?, ← heq]; simpa using hi)
        rw [isSpace_newline] at this
        contradiction
      refine List.any_eq_true.2 ⟨literal, hliteral, ?_⟩
      simp only [Span.interior, Bool.and_eq_true, decide_eq_true_eq]
      omega
    rw [said_eq_ended, ho.ended_of_inside hfeeds, ← said_eq_ended, hcomment.said_trimEnd]
  · rename_i hinside
    refine hcomment.said_relaid (fun q hle hlt => ?_) ho
    refine Bool.eq_false_iff.2 fun hq => ?_
    obtain ⟨literal, hliteral, hinterior⟩ := List.any_eq_true.1 hq
    simp only [Span.interior, Bool.and_eq_true, decide_eq_true_eq] at hinterior
    rcases h.literal r hr literal hliteral with hwithin | hbefore | hbehind
    · exact hinside (List.any_eq_true.2 ⟨literal, hliteral, by simpa using hwithin⟩)
    · omega
    · omega

/-- A stretch that is laid out anew bears its comments. -/
theorem bears_relaid (h : source.Sound) {start stop : Nat} {remarks : List Token} {o : List Char}
    (ho : Relaid (inside source.literals) start (Text.slice source.text start stop) o)
    (mem : ∀ r ∈ remarks, r ∈ source.remarks ∧ start ≤ r.extent.start ∧ r.solidStop ≤ stop)
    (inOrder : remarks.Pairwise fun r r' => r.solidStop ≤ r'.extent.start)
    (others : ∀ r ∈ source.remarks, r ∈ remarks ∨ r.solidStop ≤ start ∨ stop ≤ r.extent.start) :
    source.Bears o remarks := by
  induction remarks generalizing start o with
  | nil =>
    exact .ofCode start stop (fun r hr => by simpa using others r hr) ho.solid_eq
  | cons r remarks ih =>
    obtain ⟨hr, hstart, hstop⟩ := mem r (by simp)
    have hlt := h.start_lt_solidStop hr
    have hsolid := h.slice_solid hr
    obtain ⟨rest, hrest⟩ := (h.isComment hr).trimEnd_ne_nil
    have hslash : isSpace '/' = false := by decide
    have hlength : (trimEnd r.text.toList).length = r.solidStop - r.extent.start := by
      simp only [Token.solidStop]
      omega
    rw [← slice_append hstart (by omega : r.extent.start ≤ stop),
      ← slice_append (Nat.le_of_lt hlt) hstop, hsolid] at ho
    obtain ⟨o₁, o₂, rfl, h₁, h₂⟩ := ho.cut (.inr (by simp [hrest, hslash]))
    obtain ⟨o₂, o₃, rfl, h₂, h₃⟩ :=
      h₂.cut (.inl fun c hc => not_isSpace_getLast_trimEnd hc)
    have hfront : start + (Text.slice source.text start r.extent.start).length = r.extent.start := by
      have : r.extent.start < source.text.length := by
        have := congrArg List.length hsolid
        simp only [Text.slice, List.length_take, List.length_drop] at this
        omega
      simp only [Text.slice, List.length_take, List.length_drop]
      omega
    rw [hfront] at h₂ h₃
    rw [show r.extent.start + (trimEnd r.text.toList).length = r.solidStop from rfl] at h₃
    simp only [List.pairwise_cons] at inOrder
    have hfree : source.Free start r.extent.start := by
      intro r' hr'
      rcases others r' hr' with hmem | hle | hle
      · rcases List.mem_cons.1 hmem with rfl | hmem
        · exact .inr (Nat.le_refl _)
        · have := inOrder.1 r' hmem
          exact .inr (by omega)
      · exact .inl hle
      · exact .inr (by omega)
    have hbears := ih h₃ (fun r' hr' => ⟨(mem r' (by simp [hr'])).1, inOrder.1 r' hr',
        (mem r' (by simp [hr'])).2.2⟩) inOrder.2 fun r' hr' => by
      rcases others r' hr' with hmem | hle | hle
      · rcases List.mem_cons.1 hmem with rfl | hmem
        · exact .inr (.inl (Nat.le_refl _))
        · exact .inl hmem
      · exact .inr (.inl (by omega))
      · exact .inr (.inr hle)
    have hcode : source.Bears o₁ [] := .ofCode _ _ hfree h₁.solid_eq
    simpa using hcode.append ((h.bears_remark hr h₂).append hbears)

/-- The characters of a comment stand in the text from its start to the end of its solid part. -/
theorem getElem?_solid (h : source.Sound) {r : Token} (hr : r ∈ source.remarks) :
    (∃ c, source.text[r.extent.start]? = some c ∧ isSpace c = false) ∧
      ∃ c, source.text[r.solidStop - 1]? = some c ∧ isSpace c = false := by
  have hsolid := h.slice_solid hr
  have hlt := h.start_lt_solidStop hr
  have hget : ∀ i, i < r.solidStop - r.extent.start →
      source.text[r.extent.start + i]? = (trimEnd r.text.toList)[i]? := by
    intro i hi
    rw [← hsolid, Text.slice, List.getElem?_take_of_lt hi, List.getElem?_drop]
  obtain ⟨rest, hrest⟩ := (h.isComment hr).trimEnd_ne_nil
  refine ⟨⟨'/', ?_, by decide⟩, ?_⟩
  · have := hget 0 (by omega)
    simpa [hrest] using this
  · have hlast := hget (r.solidStop - r.extent.start - 1) (by omega)
    rw [show r.extent.start + (r.solidStop - r.extent.start - 1) = r.solidStop - 1 by omega] at hlast
    have hlength : r.solidStop - r.extent.start = (trimEnd r.text.toList).length := by
      simp only [Token.solidStop]
      omega
    rw [hlength, ← List.getLast?_eq_getElem?] at hlast
    refine ⟨(trimEnd r.text.toList).getLast (by simp [hrest]), ?_, ?_⟩
    · rw [hlast, List.getLast?_eq_some_getLast]
    · exact not_isSpace_getLast_trimEnd (List.getLast?_eq_some_getLast _)

/-- What is laid out anew bears the comments of its stretch, unless one of them goes beyond it. -/
theorem bears_laid (h : source.Sound) {start stop : Nat} {o : List Char}
    (hstart : source.Splits start) (hstop : source.Splits stop)
    (ho : Laid (inside source.literals) start (Text.slice source.text start stop) o) :
    source.Bears o (source.between start stop) := by
  obtain @⟨lead, core, tail, lead', core', tail', source_eq, output_eq, white, white', whiteTail,
    whiteTail', relaid⟩ := ho
  have hget : ∀ i, start ≤ i → i < stop → source.text[i]? = (lead ++ core ++ tail)[i - start]? := by
    intro i hle hlt
    rw [← source_eq, Text.slice, List.getElem?_take_of_lt (by omega), List.getElem?_drop]
    congr 1
    omega
  -- A comment of the stretch begins and ends with something solid, so it lies in the core.
  have hcore : ∀ r ∈ source.between start stop, r ∈ source.remarks ∧
      start + lead.length ≤ r.extent.start ∧ r.solidStop ≤ start + lead.length + core.length := by
    intro r hr
    simp only [between, List.mem_filter, Bool.and_eq_true, decide_eq_true_eq] at hr
    obtain ⟨hr, hle, hlt⟩ := hr
    have hsolid := h.start_lt_solidStop hr
    have hstop' := (hstop r hr).resolve_right (by omega)
    obtain ⟨⟨first, hfirst, hfirst'⟩, last, hlast, hlast'⟩ := h.getElem?_solid hr
    refine ⟨hr, ?_, ?_⟩
    · refine Nat.le_of_not_lt fun hlt' => ?_
      rw [hget _ hle hlt, List.append_assoc, List.getElem?_append_left (by omega)] at hfirst
      rw [white first (List.mem_of_getElem? hfirst)] at hfirst'
      contradiction
    · refine Nat.le_of_not_lt fun hlt' => ?_
      rw [hget _ (by omega) (by omega),
        List.getElem?_append_right (by simp only [List.length_append]; omega)] at hlast
      rw [whiteTail last (List.mem_of_getElem? hlast)] at hlast'
      contradiction
  have hslice : Text.slice source.text (start + lead.length) (start + lead.length + core.length) =
      core := by
    have hcut := congrArg (fun l => (l.drop lead.length).take core.length) source_eq
    simp only [Text.slice, List.append_assoc, List.drop_left, List.take_left, List.drop_take,
      List.take_take, List.drop_drop] at hcut
    have hlength := congrArg List.length source_eq
    simp only [Text.slice, List.length_take, List.length_append] at hlength
    rw [Text.slice, Nat.add_sub_cancel_left]
    rwa [Nat.min_eq_left (by omega)] at hcut
  rw [← hslice] at relaid
  have hbears := h.bears_relaid relaid hcore ?_ ?_
  · have hall := ((Bears.ofPlain (slash_not_mem white')).append hbears).append
      (Bears.ofPlain (slash_not_mem whiteTail') : source.Bears tail' [])
    simpa [output_eq] using hall
  · refine List.Pairwise.filter _ ?_
    have hpairs := List.pairwise_map.1 h.inOrder
    exact hpairs.imp_of_mem fun hr _ hle => Nat.le_trans (h.solidStop_le hr) hle
  · intro r hr
    by_cases hle : start ≤ r.extent.start
    · by_cases hlt : r.extent.start < stop
      · exact .inl (by simp [between, hr, hle, hlt])
      · have hlength := congrArg List.length source_eq
        simp only [Text.slice, List.length_take, List.length_append] at hlength
        exact .inr (.inr (by omega))
    · have := (hstart r hr).resolve_right hle
      exact .inr (.inl (by omega))

end Sound

end Source

end CodeSplice
