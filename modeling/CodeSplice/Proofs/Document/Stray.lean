/-
Module: CodeSplice.Proofs.Document.Stray
Purpose: What becomes of the comments of imports. An import with a comment outside of the braces keeps its
  text. Any other import has no comments but those in the braces, which it carries as they are read.
Main exports: Source.Names, Source.perm_remarksOf, Source.importLedger, Source.exists_carries_import
-/
import CodeSplice.Proofs.Document.Listing
import Mathlib.Data.List.Flatten
import Mathlib.Data.List.Perm.Subperm

namespace CodeSplice

open Layout Syntax

namespace Source

variable {source : Source}

/-! ### Comments outside of the braces -/

theorem mem_remarksOf {children : List Tree} {r : Token} :
    r ∈ remarksOf children ↔ Tree.leaf r ∈ children ∧ r.is .comment = true := by
  simp only [remarksOf, List.mem_flatMap, List.mem_filter]
  constructor
  · rintro ⟨child, ⟨hchild, hkind⟩, hr⟩
    cases child with
    | node => simp [Tree.isKind] at hkind
    | leaf token =>
      rw [comments_leaf hkind] at hr
      obtain rfl := List.mem_singleton.1 hr
      exact ⟨hchild, hkind⟩
  · rintro ⟨hchild, hcomment⟩
    refine ⟨.leaf r, ⟨hchild, hcomment⟩, ?_⟩
    rw [comments_leaf hcomment]
    exact List.mem_singleton_self r

theorem length_remarksOf (children : List Tree) :
    (remarksOf children).length = (children.filter (·.isKind .comment)).length := by
  induction children with
  | nil => rfl
  | cons child children ih =>
    rw [remarksOf_cons, List.filter_cons]
    split
    · rename_i hkind
      cases child with
      | node => simp [Tree.isKind] at hkind
      | leaf token => rw [comments_leaf hkind, List.length_append, ih, List.length_cons]; simp; omega
    · exact ih

/-- The names in braces of an import are the children of a phrase in its clause, if there are any. -/
theorem namesOf_eq (tree : Tree) :
    namesOf tree = (((tree.child? .importClause).bind (·.child? .namedImports)).map
      (·.children)).getD [] := by
  unfold namesOf namesIn
  cases tree.child? .importClause <;> rfl

/-- A list of names in braces stands in a clause of the import. -/
structure Names (tree named : Tree) : Prop where
  clause : ∃ clause, clause ∈ tree.children ∧ clause.isPhrase .importClause = true ∧
    named ∈ clause.children
  phrase : named.isPhrase .namedImports = true
  children_eq : namesOf tree = named.children

theorem exists_names (tree : Tree) : namesOf tree = [] ∨ ∃ named, Names tree named := by
  rw [namesOf_eq]
  cases hnamed : (tree.child? .importClause).bind (·.child? .namedImports) with
  | none => exact .inl rfl
  | some named =>
    obtain ⟨clause, hclause, hchild⟩ := Option.bind_eq_some_iff.1 hnamed
    obtain ⟨hclauseMem, hclauseKind⟩ := Tree.mem_of_child? hclause
    obtain ⟨hmem, hkind⟩ := Tree.mem_of_child? hchild
    refine .inr ⟨named, ⟨clause, hclauseMem, hclauseKind, hmem⟩, hkind, ?_⟩
    rw [namesOf_eq, hnamed]
    rfl

/-- The comments of what ends with a token that is no comment begin where the import goes on. -/
theorem Frames.start_lt {tree : Tree} {whole : Extent} (frames : source.Frames tree whole)
    {part : Tree} (hpart : part.Placed source.text)
    (hmem : ∀ token ∈ part.tokens, token ∈ tree.tokens)
    (hback : ∃ front last, part.tokens = front ++ [last] ∧ last.is .comment = false) {r : Token}
    (hr : r ∈ part.comments) : r.extent.start < whole.stop := by
  obtain ⟨front, last, htokens, hcode⟩ := hback
  obtain ⟨htoken, hcomment⟩ := Tree.mem_comments.1 hr
  have hlast : last ∈ part.tokens := by simp [htokens]
  have hstop := frames.code_le last (hmem last hlast) hcode
  have hspan := (hpart.token hlast).1.start_le
  have hlt := ((hpart.token htoken).1.remark hcomment).1
  have hinOrder := List.pairwise_map.1 hpart.tokens_inOrder
  rw [htokens, List.pairwise_append] at hinOrder
  rw [htokens] at htoken
  rcases List.mem_append.1 htoken with hfront | hlast'
  · have := hinOrder.2.2 r hfront last (List.mem_singleton_self last)
    omega
  · obtain rfl := List.mem_singleton.1 hlast'
    rw [hcode] at hcomment
    contradiction

theorem Names.holds {tree named : Tree} (names : Names tree named) (h : source.Holds tree)
    (hphrase : tree.isPhrase .importStatement = true) :
    source.Holds named ∧ named.Derived typeScriptAutomaton ∧
      ∀ token ∈ named.tokens, token ∈ tree.tokens := by
  obtain ⟨clause, hclause, hkind, hnamed⟩ := names.clause
  obtain ⟨hholds, -, -⟩ := h.child (Tree.isPhrase_of_ne hphrase (by decide)) hclause
  obtain ⟨hnamedHolds, hderived, -⟩ :=
    hholds.child (Tree.isPhrase_of_ne hkind (by decide)) hnamed
  exact ⟨hnamedHolds, hderived, fun token htoken =>
    Tree.mem_tokens_of_child hclause (Tree.mem_tokens_of_child hnamed htoken)⟩

/-- Two children that have a comment in common are the same. -/
theorem Holds.child_eq {tree : Tree} (h : source.Holds tree) {child other : Tree}
    (hchild : child ∈ tree.children) (hother : other ∈ tree.children) {r : Token}
    (hr : r ∈ child.comments) (hr' : r ∈ other.tokens) : child = other := by
  refine Classical.byContradiction fun hne => ?_
  obtain ⟨htoken, hcomment⟩ := Tree.mem_comments.1 hr
  have hapart := h.placed.child_apart hchild hother hne htoken
  obtain ⟨hplaced, hstart, hstop⟩ := (h.placed.child hother).1.token hr'
  have hlt := (hplaced.remark hcomment).1
  simp only [Extent.Apart] at hapart
  omega

section

variable (hs : source.Sound) {tree : Tree} {whole : Extent} (frames : source.Frames tree whole)
  (hphrase : tree.isPhrase .importStatement = true)
  (hstray : ImportDeclaration.hasStrayComment tree whole.stop = false)
include frames hphrase hstray

/-- If no comment of an import stands outside of the braces, its comments are those in the braces. -/
theorem perm_remarksOf :
    (remarksOf (namesOf tree)).Perm
      (tree.comments.filter fun r => decide (r.extent.start < whole.stop)) := by
  have hlength : (tree.comments.filter fun r => decide (r.extent.start < whole.stop)).length =
      (remarksOf (namesOf tree)).length := by
    rw [length_remarksOf, namesOf_eq]
    simpa [ImportDeclaration.hasStrayComment] using hstray
  have hnodup : (remarksOf (namesOf tree)).Nodup := by
    rcases exists_names tree with hnone | ⟨named, names⟩
    · simp [hnone, remarksOf]
    · rw [names.children_eq]
      have hnodup := (names.holds frames.holds hphrase).1.placed.nodup_comments
      cases named with
      | leaf => simp [Tree.children_eq, Tree.parts, remarksOf]
      | node =>
        rw [Tree.comments_node] at hnodup
        exact hnodup.sublist (List.filter_sublist.flatMap _)
  refine (List.subperm_of_subset hnodup fun r hr => ?_).perm_of_length_le (Nat.le_of_eq hlength)
  rcases exists_names tree with hnone | ⟨named, names⟩
  · simp [hnone, remarksOf] at hr
  · rw [names.children_eq] at hr
    obtain ⟨hleaf, hcomment⟩ := mem_remarksOf.1 hr
    obtain ⟨hholds, hderived, hmem⟩ := names.holds frames.holds hphrase
    have htoken := hholds.mem_tokens_of_leaf names.phrase (by decide) hleaf
    have hback := hderived.back marksPhrases_typeScript names.phrase (by decide)
    refine List.mem_filter.2 ⟨Tree.mem_comments.2 ⟨hmem r htoken, hcomment⟩, ?_⟩
    exact decide_eq_true (frames.start_lt hholds.placed hmem hback
      (Tree.mem_comments.2 ⟨htoken, hcomment⟩))

/-- A comment of an import that ends behind it stands among the names in braces. -/
theorem exists_names_of_mem {r : Token} (hr : r ∈ tree.comments) (hlt : r.extent.start < whole.stop) :
    ∃ named, Names tree named ∧ Tree.leaf r ∈ named.children := by
  have hmem := (perm_remarksOf frames hphrase hstray).mem_iff.2
    (List.mem_filter.2 ⟨hr, decide_eq_true hlt⟩)
  rcases exists_names tree with hnone | ⟨named, names⟩
  · simp [hnone, remarksOf] at hmem
  · rw [names.children_eq] at hmem
    exact ⟨named, names, (mem_remarksOf.1 hmem).1⟩

/-- What stands outside of the clause has no comments. -/
theorem comments_eq_nil_of_child {part inner : Tree} (hpart : part ∈ tree.children)
    (hclause : part.isPhrase .importClause = false) (hplaced : inner.Placed source.text)
    (hinner : ∀ token ∈ inner.tokens, token ∈ part.tokens)
    (hback : ∃ front last, inner.tokens = front ++ [last] ∧ last.is .comment = false) :
    inner.comments = [] := by
  rw [List.eq_nil_iff_forall_not_mem]
  intro r hr
  have hmem : ∀ token ∈ inner.tokens, token ∈ tree.tokens := fun token htoken =>
    Tree.mem_tokens_of_child hpart (hinner token htoken)
  obtain ⟨htoken, hcomment⟩ := Tree.mem_comments.1 hr
  obtain ⟨named, names, hleaf⟩ := exists_names_of_mem frames hphrase hstray
    (Tree.mem_comments.2 ⟨hmem r htoken, hcomment⟩) (frames.start_lt hplaced hmem hback hr)
  obtain ⟨clause, hclauseMem, hkind, hnamed⟩ := names.clause
  have hnamedToken := (names.holds frames.holds hphrase).1.mem_tokens_of_leaf names.phrase
    (by decide) hleaf
  obtain rfl := frames.holds.child_eq hpart hclauseMem
    (Tree.mem_comments.2 ⟨hinner r htoken, hcomment⟩)
    (Tree.mem_tokens_of_child hnamed hnamedToken)
  rw [hclause] at hkind
  contradiction

/-- A part outside of the clause that ends with no comment has none. -/
theorem comments_eq_nil_of_endsMarked {part : Tree} (hpart : part ∈ tree.children) {kind : Phrase}
    (hkind : part.isPhrase kind = true) (hne : kind ≠ .importClause)
    (hends : kind ∈ endsMarked) : part.comments = [] := by
  have hframes := frames.child hphrase (by decide) hpart
  exact comments_eq_nil_of_child frames hphrase hstray hpart (Tree.isPhrase_of_ne hkind hne)
    hframes.holds.placed (fun _ htoken => htoken)
    (hframes.derived.back marksPhrases_typeScript hkind hends)

/-- The names in braces have no comments inside them. -/
theorem comments_eq_nil_of_specifier {child : Tree} (hchild : child ∈ namesOf tree)
    (hkind : child.isPhrase .importSpecifier = true) : child.comments = [] := by
  rw [List.eq_nil_iff_forall_not_mem]
  intro r hr
  rcases exists_names tree with hnone | ⟨named, names⟩
  · simp [hnone] at hchild
  · rw [names.children_eq] at hchild
    obtain ⟨hholds, hderived, hmem⟩ := names.holds frames.holds hphrase
    obtain ⟨htoken, hcomment⟩ := Tree.mem_comments.1 hr
    have hinner : r ∈ named.comments :=
      Tree.mem_comments.2 ⟨Tree.mem_tokens_of_child hchild htoken, hcomment⟩
    have hback := hderived.back marksPhrases_typeScript names.phrase (by decide)
    obtain ⟨other, others, hleaf⟩ := exists_names_of_mem frames hphrase hstray
      (Tree.mem_comments.2 ⟨hmem r (Tree.mem_comments.1 hinner).1, hcomment⟩)
      (frames.start_lt hholds.placed hmem hback hinner)
    rw [← others.children_eq, names.children_eq] at hleaf
    obtain rfl := hholds.child_eq hchild hleaf hr (mem_tokens_leaf hcomment)
    simp [Tree.isPhrase] at hkind

end

/-! ### Imports -/

/-- What stands between the quotes of a string without comments bears none. -/
theorem saysNothing_inner {start stop : Nat} (h : source.Free start stop) :
    source.SaysNothing (String.ofList ((Text.slice source.text start stop).drop 1).dropLast) := by
  rw [SaysNothing, String.toList_ofList]
  generalize hinner : ((Text.slice source.text start stop).drop 1).dropLast = inner
  have hdrop : (Text.slice source.text start stop).drop 1 =
      (source.text.drop (start + 1)).take (stop - start - 1) := by
    rw [Text.slice, List.drop_take, List.drop_drop]
  rw [hdrop] at hinner
  have hprefix : inner <+: source.text.drop (start + 1) := by
    rw [← hinner]
    exact (List.dropLast_prefix _).trans (List.take_prefix _ _)
  cases hcons : inner with
  | nil => exact .nil
  | cons c cs =>
    have hlength : inner.length ≤ stop - start - 1 := by
      rw [← hinner, List.length_dropLast, List.length_take]
      omega
    have hpos : 0 < inner.length := by simp [hcons]
    have hslice : inner = Text.slice source.text (start + 1) (start + 1 + inner.length) := by
      rw [Text.slice, Nat.add_sub_cancel_left]
      exact List.prefix_iff_eq_take.1 hprefix
    rw [← hcons, hslice]
    refine .ofCode _ _ (fun r hr => ?_) rfl
    have := h r hr
    omega

/-- What becomes of the comments of an import. -/
def importLedger (source : Source) (declaration : ImportDeclaration) (tree : Tree)
    (whole : Extent) : Ledger :=
  if declaration.verbatim.isSome then {}
  else if declaration.bare then { lost := source.between whole.start whole.stop }
  else
    { lost := source.between whole.start tree.extent.start ++
        source.between tree.extent.stop whole.stop }

section

variable (hs : source.Sound) {tree : Tree} {whole : Extent} (frames : source.Frames tree whole)
  (hphrase : tree.isPhrase .importStatement = true)
include hs frames hphrase

/-- The comments in the stretch of an import are those of its tree, and those around it. -/
theorem count_between_import (hstray : ImportDeclaration.hasStrayComment tree whole.stop = false)
    (r : Token) :
    (source.between whole.start whole.stop).count r =
      (remarksOf (namesOf tree)).count r + (source.between whole.start tree.extent.start).count r +
        (source.between tree.extent.stop whole.stop).count r := by
  have hperm : (tree.comments.filter fun r => decide (r.extent.start < whole.stop)).Perm
      ((source.between tree.extent.start tree.extent.stop).filter fun r =>
        decide (r.extent.start < whole.stop)) :=
    (frames.holds.perm_comments hs).filter _
  have hstart := frames.start_le
  have hspan := frames.holds.placed.start_le_stop
  -- The import goes on at least to a token of it.
  have hbegin : tree.extent.start ≤ whole.stop := by
    obtain ⟨token, htoken, hcode⟩ := frames.derived.exists_code marksPhrases_typeScript
      (Tree.floats_of_isPhrase hphrase) (Tree.isKind_of_isPhrase hphrase _)
    have hplaced := frames.holds.placed.token htoken
    have := hplaced.1.start_le
    have := frames.code_le token htoken hcode
    omega
  rw [((perm_remarksOf frames hphrase hstray).trans hperm).count_eq r]
  by_cases hlt : r.extent.start < whole.stop
  · rw [List.count_filter (by simpa using hlt)]
    simp only [count_between]
    split <;> split <;> split <;> split <;> omega
  · have hnone : r ∉ (source.between tree.extent.start tree.extent.stop).filter fun r =>
        decide (r.extent.start < whole.stop) :=
      fun hmem => hlt (of_decide_eq_true (List.mem_filter.1 hmem).2)
    rw [List.count_eq_zero.2 hnone]
    simp only [count_between]
    split <;> split <;> split <;> omega

/-- What stands between the quotes of the string that an import names its module by bears no comments. -/
theorem saysNothing_specifier (hstray : ImportDeclaration.hasStrayComment tree whole.stop = false)
    {string : Tree} (hstring : ImportDeclaration.specifier? tree = some string) :
    source.SaysNothing (String.ofList ((source.textOf string).toList.drop 1).dropLast) := by
  suffices hnone : source.Holds string ∧ string.comments = [] by
    rw [textOf, slice, String.toList_ofList]
    exact saysNothing_inner (hnone.1.free hs hnone.2)
  rcases Option.or_eq_some_iff.1 hstring with hstring | ⟨-, hstring⟩
  · obtain ⟨hmem, hkind⟩ := Tree.mem_of_child? hstring
    exact ⟨(frames.child hphrase (by decide) hmem).holds,
      comments_eq_nil_of_endsMarked frames hphrase hstray hmem hkind (by decide) (by decide)⟩
  · obtain ⟨clause, hclause, hstring⟩ := Option.bind_eq_some_iff.1 hstring
    obtain ⟨hclauseMem, hclauseKind⟩ := Tree.mem_of_child? hclause
    obtain ⟨hmem, hkind⟩ := Tree.mem_of_child? hstring
    have hframes := (frames.child hphrase (by decide) hclauseMem).child hclauseKind (by decide) hmem
    exact ⟨hframes.holds, comments_eq_nil_of_child frames hphrase hstray hclauseMem
      (Tree.isPhrase_of_ne hclauseKind (by decide)) hframes.holds.placed
      (fun _ htoken => Tree.mem_tokens_of_child hmem htoken)
      (hframes.derived.back marksPhrases_typeScript hkind (by decide))⟩

/-- An import carries its comments. -/
theorem exists_carries_import {declaration : ImportDeclaration}
    (hread : ImportDeclaration.ofTree? source tree whole = some declaration) (style : Style) :
    ∃ qs, source.Carries (declaration.render style) qs ∧
      source.Accounts (source.importLedger declaration tree whole) whole.start whole.stop qs := by
  obtain ⟨string, hstring, rfl⟩ := Option.map_eq_some_iff.1 hread
  simp only
  split
  · exact exists_carries_block hs frames.splits_start frames.splits_stop
  · rename_i hwritten
    obtain ⟨hstray, hreadable⟩ : ImportDeclaration.hasStrayComment tree whole.stop = false ∧
        ImportDeclaration.isReadable tree = true := by simpa using hwritten
    have hempty : source.Reading
        { specifier := String.ofList ((source.textOf string).toList.drop 1).dropLast } [] :=
      { specifier := saysNothing_specifier hs frames hphrase hstray hstring
        default := by simp
        space := by simp
        attributes := by simp
        lists := lists_nil
        verbatim := rfl }
    obtain ⟨rs, hreading, hcount⟩ := hempty.statement hs frames.holds frames.derived hphrase hreadable
      (fun child hchild hkind =>
        comments_eq_nil_of_endsMarked frames hphrase hstray hchild hkind (by decide) (by decide))
      fun child => comments_eq_nil_of_specifier frames hphrase hstray
    obtain ⟨qs, hcarries, hwritten⟩ := hreading.carries_render style
    refine ⟨qs, hcarries, fun r => ?_⟩
    have hcount := hcount r
    have hwritten := hwritten r
    have hbetween := count_between_import hs frames hphrase hstray r
    rw [importLedger, hreading.verbatim]
    simp only [Option.isSome_none, Bool.false_eq_true, if_false]
    split
    · rename_i hbare
      rw [if_pos hbare] at hwritten
      simp only [List.count_nil]
      omega
    · rename_i hbare
      rw [if_neg hbare] at hwritten
      simp only [List.count_nil, List.count_append]
      omega

end

end Source

end CodeSplice
