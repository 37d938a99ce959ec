/-
Module: CodeSplice.Proofs.Document.Carries
Purpose: Which comments the steps of a writer bring into its text. A step carries comments if the text
  behind it bears them in addition to those of the text in front of it. Blocks, comments, entries and
  containers are such steps.
Main exports: Source.Carries, Source.carries_block, Source.CarriesComments, Source.Held,
  Source.carries_renderEntries, Source.carries_renderBraced
-/
import CodeSplice.Proofs.Document.Bears

namespace CodeSplice

open Layout Syntax Text

namespace Source

variable {source : Source} {rs qs ps : List Token}

/-- The text behind a step bears the given comments in addition to those of the text in front of it. -/
def Carries (source : Source) (step : Writer → Writer) (rs : List Token) : Prop :=
  ∀ w qs, source.Bears w.text.toList qs → source.Bears (step w).text.toList (qs ++ rs)

/-- A text that is there or not bears comments. -/
def Says (source : Source) : Option String → List Token → Prop
  | none, rs => rs = []
  | some text, rs => source.Bears text.toList rs

theorem Bears.eq_nil (h : source.Bears [] rs) : rs = [] := by
  generalize htext : ([] : List Char) = text at h
  induction h with
  | nil => rfl
  | plain _ _ ih => exact ih (List.append_eq_nil_iff.1 htext.symm).1.symm
  | code _ _ _ _ _ ih => exact ih (List.append_eq_nil_iff.1 htext.symm).1.symm
  | remark _ _ ne_nil => exact absurd (List.append_eq_nil_iff.1 htext.symm).2 ne_nil

/-! ### Steps -/

namespace Carries

variable {step next : Writer → Writer}

theorem comp (h : source.Carries step rs) (h' : source.Carries next qs) :
    source.Carries (fun w => next (step w)) (rs ++ qs) := by
  intro w os hw
  rw [← List.append_assoc]
  exact h' _ _ (h w os hw)

/-- A step that leaves the text as it is carries nothing. -/
theorem ofText (h : ∀ w, (step w).text = w.text) : source.Carries step [] := by
  intro w os hw
  rw [h w, List.append_nil]
  exact hw

theorem raw {text : String} (h : source.Bears text.toList rs) :
    source.Carries (·.raw text) rs := by
  intro w os hw
  simp only [Writer.raw, String.toList_append]
  exact hw.append h

theorem line {text : String} (h : source.Bears text.toList rs) :
    source.Carries (·.line text) rs := by
  intro w os hw
  have hmargin : source.Bears w.margin.toList [] := .ofPlain (slash_not_mem (white_spaces _))
  have hnewline : source.Bears "\n".toList [] := .ofPlain (by decide)
  have hline := (hmargin.append h).append hnewline
  simp only [Writer.line, Writer.raw, String.toList_append]
  simpa using hw.append hline

theorem blank : source.Carries Writer.blank [] :=
  raw (.ofPlain (by decide))

theorem deeper : source.Carries Writer.deeper [] :=
  ofText fun _ => rfl

theorem shallower : source.Carries Writer.shallower [] :=
  ofText fun _ => rfl

theorem extendLast {text : String} (h : source.Bears text.toList rs) :
    source.Carries (·.extendLast text) rs := by
  intro w os hw
  simp only [Writer.extendLast]
  split
  · rename_i hlast
    obtain ⟨front, hfront⟩ := List.getLast?_eq_some_iff.1 hlast
    rw [hfront] at hw
    have hnewline : source.Bears "\n".toList [] := .ofPlain (by decide)
    simp only [hfront, List.dropLast_concat, String.toList_append, String.toList_ofList]
    simpa using (hw.dropNewline.append h).append hnewline
  · exact raw h w os hw

/-- A step that writes nothing carries nothing. -/
theorem eq_nil (h : source.Carries step rs) (hnone : ∀ w, (step w).text = w.text) : rs = [] := by
  have hempty := h { indent := default } [] .nil
  rw [hnone] at hempty
  simpa using hempty.eq_nil

end Carries

theorem carries_appendComment {comment : Option String} (h : source.Says comment rs) :
    source.Carries (appendComment · comment) rs := by
  cases comment with
  | none =>
    obtain rfl : rs = [] := h
    exact .ofText fun _ => rfl
  | some text =>
    have hspace : source.Bears " ".toList [] := .ofPlain (by decide)
    refine .extendLast ?_
    rw [String.toList_append]
    exact hspace.append h

/-- Two comments as one. -/
theorem says_joinComments {first second : Option String} (h : source.Says first rs)
    (h' : source.Says second qs) : source.Says (joinComments first second) (rs ++ qs) := by
  cases first with
  | none =>
    obtain rfl : rs = [] := h
    exact h'
  | some text =>
    cases second with
    | none =>
      obtain rfl : qs = [] := h'
      simpa [joinComments, Says] using h
    | some more =>
      have hspace : source.Bears " ".toList [] := .ofPlain (by decide)
      simp only [joinComments, Says, String.toList_append]
      simpa using (Bears.append h hspace).append h'

/-! ### Blocks -/

/-- A block of the source carries the comments of its stretch. -/
theorem carries_block (hs : source.Sound) {start stop : Nat} (hstart : source.Splits start)
    (hstop : source.Splits stop) :
    source.Carries (source.block ⟨start, stop⟩).render (source.between start stop) := by
  intro w os hw
  rw [Block.toList_text_render]
  exact hw.append (hs.bears_laid hstart hstop (laid_ofRange source.text ⟨start, stop⟩ _ _ w))

/-- A block without lines carries nothing. -/
theorem eq_nil_of_isEmpty {block : Block} (h : source.Carries block.render rs)
    (hempty : block.isEmpty = true) : rs = [] := by
  refine h.eq_nil fun w => ?_
  simp only [Block.isEmpty, List.isEmpty_iff] at hempty
  simp [Block.render, hempty]

theorem carries_renderOpen {block : Block} (h : source.Carries block.render rs) {suffix : String}
    (hsuffix : '/' ∉ suffix.toList) : source.Carries (block.renderOpen suffix) rs := by
  by_cases hempty : block.isEmpty = true
  · obtain rfl := eq_nil_of_isEmpty h hempty
    have htrim : '/' ∉ trimStart suffix.toList := by
      intro hmem
      exact hsuffix ((List.dropWhile_sublist _).mem hmem)
    have hline : source.Carries (·.line (String.ofList (trimStart suffix.toList))) [] :=
      .line (by rw [String.toList_ofList]; exact .ofPlain htrim)
    intro w os hw
    simpa only [Block.renderOpen, hempty, if_true] using hline w os hw
  · have hopen := h.comp (.extendLast (.ofPlain hsuffix))
    rw [List.append_nil] at hopen
    intro w os hw
    simpa only [Block.renderOpen, hempty, Bool.false_eq_true, if_false] using hopen w os hw

/-! ### Comments on lines of their own -/

theorem carries_separate (below wanted : Bool) :
    source.Carries (separate · below wanted) [] := by
  unfold separate
  cases below && wanted
  · exact .ofText fun _ => rfl
  · exact .blank

/-- Comments carry the given ones, whatever stands above them. -/
def CarriesComments (source : Source) (comments : List Comment) (rs : List Token) : Prop :=
  ∀ below forced, source.Carries (renderComments · below forced comments) rs

namespace CarriesComments

variable {comments : List Comment}

theorem nil : source.CarriesComments [] [] :=
  fun _ _ => .ofText fun _ => rfl

theorem single {comment : Comment} (h : source.Carries comment.text.render rs) :
    source.CarriesComments [comment] rs := by
  intro below forced
  have := (carries_separate below (comment.blankBefore || forced)).comp h
  simpa only [renderComments, List.nil_append] using this

theorem append {others : List Comment} (h : source.CarriesComments comments rs)
    (h' : source.CarriesComments others qs) :
    source.CarriesComments (comments ++ others) (rs ++ qs) := by
  -- The comments in front decide what stands above the others.
  have hsplit : ∀ below forced, ∃ below' forced', ∀ w,
      renderComments w below forced (comments ++ others) =
        renderComments (renderComments w below forced comments) below' forced' others := by
    clear h
    induction comments with
    | nil => exact fun below forced => ⟨below, forced, fun _ => rfl⟩
    | cons comment comments ih =>
      intro below forced
      obtain ⟨below', forced', hrest⟩ := ih true false
      exact ⟨below', forced', fun w => hrest _⟩
  intro below forced
  obtain ⟨below', forced', heq⟩ := hsplit below forced
  have := (h below forced).comp (h' below' forced')
  simpa only [← heq] using this

theorem eq_nil (h : source.CarriesComments [] rs) : rs = [] :=
  (h true false).eq_nil fun _ => rfl

end CarriesComments

/-! ### Entries -/

section

variable {α : Type} {node : α → Writer → Writer} {entry : Entry α} {entries : List (Entry α)}

/-- An entry carries comments, whatever stands above it. -/
def CarriesEntry (source : Source) (node : α → Writer → Writer) (entry : Entry α)
    (rs : List Token) : Prop :=
  ∀ below forced, source.Carries (renderEntry node · below forced entry) rs

theorem carriesEntry {comments : List Comment} {blankBefore : Bool} {inner : α}
    (h : source.CarriesComments comments rs) (h' : source.Carries (node inner) qs) :
    source.CarriesEntry node { comments, blankBefore, node := inner } (rs ++ qs) := by
  intro below forced
  have hseparate := @carries_separate source (below || !comments.isEmpty)
    (blankBefore || (forced && !(!comments.isEmpty)))
  have := ((h below forced).comp hseparate).comp h'
  simpa only [renderEntry, appendComment, List.append_nil] using this

/-- A comment behind an entry that has none there joins those of the entry. -/
theorem CarriesEntry.trail (h : source.CarriesEntry node entry rs) (hnone : entry.trailing = none)
    {text : String} (h' : source.Bears text.toList qs) :
    source.CarriesEntry node { entry with trailing := some text } (rs ++ qs) := by
  intro below forced
  have hentry := h below forced
  simp only [renderEntry, hnone, appendComment] at hentry
  have htrailing : source.Says (some text) qs := h'
  have hboth := hentry.comp (carries_appendComment htrailing)
  intro w os hw
  simpa only [renderEntry] using hboth w os hw

/-- The comments of the entries of a container, of which the last one comes first. -/
inductive Held (source : Source) (node : α → Writer → Writer) :
    List (Entry α) → List Token → Prop where
  | nil : Held source node [] []
  | cons {entry : Entry α} {entries : List (Entry α)} {rs qs : List Token}
      (others : Held source node entries rs) (last : source.CarriesEntry node entry qs) :
      Held source node (entry :: entries) (rs ++ qs)

/-- Rendering entries with one more at the end renders that one last. -/
theorem exists_renderAfter_concat (apart : α → α → Bool) (node : α → Writer → Writer)
    (entries : List (Entry α)) (entry : Entry α) (previous : Option α) :
    ∃ below forced, ∀ w, renderAfter apart node w previous (entries ++ [entry]) =
      renderEntry node (renderAfter apart node w previous entries) below forced entry := by
  induction entries generalizing previous with
  | nil => exact ⟨_, _, fun _ => rfl⟩
  | cons first entries ih =>
    obtain ⟨below, forced, heq⟩ := ih (some first.node)
    exact ⟨below, forced, fun w => heq _⟩

theorem Held.carries (h : source.Held node entries rs) (apart : α → α → Bool)
    (previous : Option α) :
    source.Carries (renderAfter apart node · previous entries.reverse) rs := by
  induction h with
  | nil => exact .ofText fun _ => rfl
  | @cons entry entries rs qs others last ih =>
    obtain ⟨below, forced, heq⟩ :=
      exists_renderAfter_concat apart node entries.reverse entry previous
    rw [List.reverse_cons]
    have := ih.comp (last below forced)
    simpa only [← heq] using this

theorem Held.eq_nil (h : source.Held node [] rs) : rs = [] := by
  cases h
  rfl

/-- A container carries the comments of its entries and those behind them. -/
theorem carries_renderEntries (h : source.Held node entries rs) {dangling : List Comment}
    (h' : source.CarriesComments dangling qs) (apart : α → α → Bool) :
    source.Carries (renderEntries apart node entries.reverse dangling) (rs ++ qs) :=
  (h.carries apart none).comp (h' _ false)

end

/-! ### Braces -/

/-- A head with a body in braces carries the comments of the head, of the brace and of the body. -/
theorem carries_renderBraced {head : Block} (h : source.Carries head.render ps)
    {comment : Option String} (h' : source.Says comment qs) {hollow : Bool} {body : Writer → Writer}
    (hbody : source.Carries body rs) (hhollow : hollow = true → rs = []) :
    source.Carries (renderBraced head comment hollow body) (ps ++ qs ++ rs) := by
  have hopen : ∀ {suffix : String}, '/' ∉ suffix.toList →
      source.Carries (fun w => appendComment (head.renderOpen suffix w) comment) (ps ++ qs) :=
    fun hsuffix => (carries_renderOpen h hsuffix).comp (carries_appendComment h')
  cases hollow with
  | true =>
    obtain rfl := hhollow rfl
    have hsuffix : '/' ∉ " \x7b\x7d".toList := by decide
    rw [List.append_nil]
    intro w os hw
    simpa only [renderBraced, if_true] using hopen hsuffix w os hw
  | false =>
    have hclose : source.Carries (·.line "\x7d") [] := .line (.ofPlain (by decide))
    have hinner := ((Carries.deeper.comp hbody).comp .shallower).comp hclose
    have hsuffix : '/' ∉ " \x7b".toList := by decide
    have hall := (hopen hsuffix).comp hinner
    rw [List.nil_append, List.append_nil, List.append_nil] at hall
    intro w os hw
    simpa only [renderBraced, Bool.false_eq_true, if_false] using hall w os hw

end Source

end CodeSplice
