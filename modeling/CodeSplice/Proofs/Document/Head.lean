/-
Module: CodeSplice.Proofs.Document.Head
Purpose: The comments in front of an opening brace. Those that end the head as line comments go behind
  the brace; the head keeps the others.
Main exports: Source.splits_trimmedStop, Source.carries_head
-/
import CodeSplice.Proofs.Document.Attachment

namespace CodeSplice

open Layout Syntax Text

namespace Source

variable {source : Source} {start stop : Nat}

/-! ### The end of a text without white space -/

/-- What is no white space stands in front of the white space at the end. -/
theorem lt_trimmedStop {position : Nat} {c : Char} (hc : source.text[position]? = some c)
    (hsolid : isSpace c = false) (hstart : start ≤ position) (hstop : position < stop) :
    position < source.trimmedStop start stop := by
  obtain ⟨w, hslice, hw⟩ := exists_trimEnd (Text.slice source.text start stop)
  have hget : (Text.slice source.text start stop)[position - start]? = some c := by
    rw [Text.slice, List.getElem?_take_of_lt (by omega), List.getElem?_drop,
      Nat.add_sub_cancel' hstart, hc]
  refine Nat.lt_of_not_le fun hle => ?_
  unfold trimmedStop at hle
  rw [hslice, List.getElem?_append_right (by omega)] at hget
  rw [hw c (List.mem_of_getElem? hget)] at hsolid
  contradiction

theorem trimmedStop_le (h : start ≤ stop) : source.trimmedStop start stop ≤ stop := by
  obtain ⟨w, hslice, -⟩ := exists_trimEnd (Text.slice source.text start stop)
  have hlength := congrArg List.length hslice
  have hslice : (Text.slice source.text start stop).length ≤ stop - start := by
    rw [Text.slice]
    exact List.length_take_le _ _
  rw [List.length_append] at hlength
  unfold trimmedStop
  omega

section

variable (hs : source.Sound)
include hs

/-- Leaving out the white space at the end cuts no comment in two. -/
theorem splits_trimmedStop (hstart : source.Splits start) (hstop : source.Splits stop)
    (hle : start ≤ stop) : source.Splits (source.trimmedStop start stop) := by
  intro r hr
  have hpos := hs.start_lt_solidStop hr
  have hbound := @trimmedStop_le source start stop hle
  have hfront : start ≤ source.trimmedStop start stop := Nat.le_add_right _ _
  by_cases hlt : r.extent.start < source.trimmedStop start stop
  · rcases hstart r hr with hbefore | hbehind
    · exact .inl (Nat.le_trans hbefore hfront)
    · have hsolid := (hstop r hr).resolve_right (by omega)
      obtain ⟨-, c, hc, hspace⟩ := hs.getElem?_solid hr
      have := lt_trimmedStop hc hspace (show start ≤ r.solidStop - 1 by omega)
        (show r.solidStop - 1 < stop by omega)
      exact .inl (by omega)
  · exact .inr (by omega)

/-- Leaving out the white space at the end leaves out no comment. -/
theorem count_between_trimmedStop (hle : start ≤ stop) (r : Token) :
    (source.between start (source.trimmedStop start stop)).count r =
      (source.between start stop).count r := by
  have hbound := @trimmedStop_le source start stop hle
  have hfront : start ≤ source.trimmedStop start stop := Nat.le_add_right _ _
  suffices hnone : source.between (source.trimmedStop start stop) stop = [] by
    rw [count_between_add hfront hbound, hnone, List.count_nil, Nat.add_zero]
  apply between_eq_nil
  intro other hother
  obtain ⟨⟨c, hc, hspace⟩, -⟩ := hs.getElem?_solid hother
  refine Classical.byContradiction fun hnot => ?_
  have := lt_trimmedStop hc hspace (show start ≤ other.extent.start by omega)
    (show other.extent.start < stop by omega)
  omega

/-! ### Line comments at the end -/

omit hs in
/-- Texts that bear comments, one after another. -/
inductive SaysAll (source : Source) : List String → List Token → Prop where
  | nil : SaysAll source [] []
  | cons {text : String} {texts : List String} {rs qs : List Token}
      (first : source.Bears text.toList rs) (rest : SaysAll source texts qs) :
      SaysAll source (text :: texts) (rs ++ qs)

omit hs in
/-- Texts on one line bear the comments of all of them. -/
theorem SaysAll.intercalate {separator : String} (hplain : '/' ∉ separator.toList)
    {texts : List String} {rs : List Token} (h : source.SaysAll texts rs) :
    source.Bears (separator.intercalate texts).toList rs := by
  induction h with
  | nil => exact .nil
  | @cons text texts rs qs first rest ih =>
    cases texts with
    | nil =>
      cases rest
      simpa using first
    | cons other texts =>
      rw [String.intercalate_cons_cons, String.toList_append, String.toList_append,
        List.append_assoc]
      have hseparator : source.Bears separator.toList [] := .ofPlain hplain
      exact first.append (hseparator.append ih)

/-- Two comments of a source are the same or lie apart. -/
theorem remarks_apart {r other : Token} (hr : r ∈ source.remarks) (hother : other ∈ source.remarks) :
    r = other ∨ r.extent.Apart other.extent :=
  hs.inOrder.apart hr hother

theorem splits_remark {r : Token} (hr : r ∈ source.remarks) : source.Splits r.extent.start := by
  intro other hother
  have hpos := hs.start_lt_solidStop hr
  have hle := hs.solidStop_le hr
  have hstop := hs.solidStop_le hother
  rcases remarks_apart hs hr hother with rfl | hbefore | hbehind
  · exact .inr (Nat.le_refl _)
  · exact .inr (by omega)
  · exact .inl (by omega)

/-- Where a comment reaches to, no other begins behind its start. -/
theorem count_between_remark {r : Token} (hr : r ∈ source.remarks) (hlt : r.extent.start < stop)
    (hle : stop ≤ r.extent.stop) (other : Token) :
    (source.between r.extent.start stop).count other = [r].count other := by
  refine ((List.perm_ext_iff_of_nodup (hs.nodup.filter _) (by simp)).2 ?_).count_eq other
  intro another
  constructor
  · intro hmem
    obtain ⟨hanother, hge, hbelow⟩ := mem_between.1 hmem
    have hpos := hs.start_lt_solidStop hanother
    have hstop := hs.solidStop_le hanother
    rcases remarks_apart hs hr hanother with rfl | hbefore | hbehind
    · exact List.mem_singleton_self _
    · omega
    · omega
  · intro hmem
    obtain rfl := List.mem_singleton.1 hmem
    exact mem_between.2 ⟨hr, Nat.le_refl _, hlt⟩

/-- Moving line comments away from the end of a text moves their tokens. -/
theorem splitLineComments_spec (hstart : source.Splits start) {comments : List String}
    {qs : List Token} (hcomments : source.SaysAll comments qs) {remarks : List Token}
    (hremarks : ∀ r ∈ remarks, r ∈ source.remarks) {stop : Nat} (hstop : source.Splits stop) :
    source.Splits (source.splitLineComments start comments stop remarks).1 ∧
      ∃ qs', source.SaysAll (source.splitLineComments start comments stop remarks).2 qs' ∧
        ∀ r, (source.between start
            (source.splitLineComments start comments stop remarks).1).count r + qs'.count r =
          (source.between start stop).count r + qs.count r := by
  induction remarks generalizing comments qs stop with
  | nil => exact ⟨hstop, qs, hcomments, fun _ => rfl⟩
  | cons remark remarks ih =>
    have hremark := hremarks remark (by simp)
    simp only [splitLineComments]
    split
    · rename_i hguard
      simp only [Bool.and_eq_true, decide_eq_true_eq] at hguard
      obtain ⟨⟨⟨⟨-, hlt⟩, hle⟩, hline⟩, hfront⟩ := hguard
      have hsays : source.SaysAll (Attached.trimmed remark :: comments) ([remark] ++ qs) :=
        .cons (bears_trimmed hs hremark ((hs.isComment hremark).line hline)) hcomments
      have hsplits := splits_trimmedStop hs hstart (splits_remark hs hremark) hfront
      obtain ⟨hstop', qs', hsays', hcount⟩ :=
        ih hsays (fun r hr => hremarks r (by simp [hr])) hsplits
      refine ⟨hstop', qs', hsays', fun r => ?_⟩
      have htrimmed := count_between_trimmedStop hs hfront r
      have hmoved := count_between_remark hs hremark hlt hle r
      have hadd := @count_between_add source start remark.extent.start stop hfront
        (Nat.le_of_lt hlt) r
      have := hcount r
      rw [List.count_append] at this
      omega
    · exact ⟨hstop, qs, hcomments, fun _ => rfl⟩

/-- A head carries its comments, in front of the brace or behind it. -/
theorem carries_head {brace : Nat} (hstart : source.Splits start) (hbrace : source.Splits brace)
    (hle : start ≤ brace) :
    ∃ ps qs, source.Carries (source.head start brace).1.render ps ∧
      source.Says (source.head start brace).2 qs ∧
      ∀ r, ps.count r + qs.count r = (source.between start brace).count r := by
  have hremarks : ∀ r ∈ (source.remarks.filter fun remark =>
      decide (remark.extent.start < brace)).reverse, r ∈ source.remarks :=
    fun r hr => (List.mem_filter.1 (List.mem_reverse.1 hr)).1
  obtain ⟨hstop, qs, hsays, hcount⟩ := splitLineComments_spec hs hstart SaysAll.nil hremarks
    (splits_trimmedStop hs hstart hbrace hle)
  refine ⟨_, qs, carries_block hs hstart hstop, ?_, fun r => ?_⟩
  · simp only [head]
    split
    · rename_i hempty
      rw [List.isEmpty_iff.1 hempty] at hsays
      cases hsays
      rfl
    · exact hsays.intercalate (by decide)
  · rw [hcount r, List.count_nil, Nat.add_zero, count_between_trimmedStop hs hle]

end

end Source

end CodeSplice
