/-
Module: CodeSplice.Proofs.Document.Holds
Purpose: The comments of a source in one of its trees. A source holds a tree if the tree is placed
  in its text, is made by its parts, lies in no template literal, and if every comment of the source
  is one of the tree or lies apart from it. Then the comments of the tree are those that begin
  between its ends, and neither end cuts a comment in two. What holds of a tree holds of its
  children.
Main exports: Source.count_between, Source.Holds, Source.Holds.child, Source.sound_ofTree,
  Source.holds_ofTree
-/
import CodeSplice.Proofs.Document.Bears
import CodeSplice.Proofs.Syntax.Front
import CodeSplice.Proofs.Syntax.Order
import CodeSplice.Proofs.Syntax.Run

namespace CodeSplice

open Layout Syntax

namespace Source

variable {source : Source}

/-! ### Counting comments -/

/-- A comment begins in a stretch as often as it is there, or not at all. -/
theorem count_between (r : Token) (start stop : Nat) :
    (source.between start stop).count r =
      if start ≤ r.extent.start ∧ r.extent.start < stop then source.remarks.count r else 0 := by
  unfold between
  split
  · rename_i hbetween
    rw [List.count_filter (by simpa using hbetween)]
  · rename_i hbetween
    rw [List.count_eq_zero]
    intro hmem
    exact hbetween (by simpa using (List.mem_filter.1 hmem).2)

theorem mem_between {r : Token} {start stop : Nat} :
    r ∈ source.between start stop ↔
      r ∈ source.remarks ∧ start ≤ r.extent.start ∧ r.extent.start < stop := by
  simp [between]

theorem between_eq_nil {start stop : Nat}
    (h : ∀ r ∈ source.remarks, r.extent.start < start ∨ stop ≤ r.extent.start) :
    source.between start stop = [] := by
  rw [List.eq_nil_iff_forall_not_mem]
  intro r hr
  obtain ⟨hr, hstart, hstop⟩ := mem_between.1 hr
  have := h r hr
  omega

/-- A stretch in which no comment begins, and into which none reaches, is free of them. -/
theorem Splits.free {start stop : Nat} (h : source.Splits start)
    (hnone : source.between start stop = []) : source.Free start stop := by
  intro r hr
  rcases h r hr with hle | hle
  · exact .inl hle
  · refine .inr (Nat.le_of_not_lt fun hlt => ?_)
    have : r ∈ source.between start stop := mem_between.2 ⟨hr, hle, hlt⟩
    simp [hnone] at this

/-! ### Trees of a source -/

/-- A tree of a source. It lies in no template literal. -/
structure Holds (source : Source) (tree : Tree) : Prop where
  placed : tree.Placed source.text
  made : ∀ part ∈ tree.parts, part.Derived typeScriptAutomaton
  mem : ∀ r ∈ tree.comments, r ∈ source.remarks
  apart : ∀ r ∈ source.remarks, r ∈ tree.tokens ∨ r.extent.Apart tree.extent
  literal : ∀ literal ∈ source.literals,
    (∃ inner ∈ tree.outermost .template, literal = inner.extent.span) ∨
      literal.stop ≤ tree.extent.start ∨ tree.extent.stop ≤ literal.start

namespace Holds

variable {tree : Tree}

/-- A source holds the children of its trees. -/
theorem child (h : source.Holds tree) (hphrase : tree.isPhrase .template = false) {child : Tree}
    (hchild : child ∈ tree.children) :
    source.Holds child ∧ child.Derived typeScriptAutomaton ∧ child.isKind .lineEnd = false := by
  obtain ⟨hderived, hline⟩ := Tree.derived_child h.made hchild
  obtain ⟨hplaced, hwithin⟩ := h.placed.child hchild
  cases tree with
  | leaf token => simp [Tree.children_eq, Tree.parts] at hchild
  | node phrase extent weight parts =>
    have hkind : phrase ≠ .template := by simpa [Tree.isPhrase] using hphrase
    refine ⟨⟨hplaced, hderived.parts, fun r hr => ?_, fun r hr => ?_, fun literal hliteral => ?_⟩,
      hderived, hline⟩
    · apply h.mem
      rw [Tree.comments_node]
      exact List.mem_flatMap.2 ⟨child, hchild, hr⟩
    · rcases h.apart r hr with htoken | hapart
      · rw [← Tree.flatMap_tokens_children] at htoken
        obtain ⟨other, hother, htoken⟩ := List.mem_flatMap.1 htoken
        by_cases heq : other = child
        · exact .inl (heq ▸ htoken)
        · exact .inr (h.placed.child_apart hother hchild heq htoken)
      · exact .inr (hapart.mono ⟨Nat.le_refl _, Nat.le_refl _⟩ hwithin)
    · rcases h.literal literal hliteral with ⟨inner, hinner, rfl⟩ | hapart
      · -- An outermost literal lies in this child or in another one.
        rw [← Tree.flatMap_outermost_children rfl hkind] at hinner
        obtain ⟨other, hother, hinner⟩ := List.mem_flatMap.1 hinner
        rcases h.placed.children_inOrder.apart hother hchild with rfl | hapart
        · exact .inl ⟨inner, hinner, rfl⟩
        · have hinside := (h.placed.child hother).1.outermost_within hinner
          exact .inr (hapart.mono hinside ⟨Nat.le_refl _, Nat.le_refl _⟩)
      · right
        omega

/-- A comment of the source lies apart from a token of a tree, or is this token. -/
theorem token_apart (h : source.Holds tree) {token : Token} (htoken : token ∈ tree.tokens)
    {r : Token} (hr : r ∈ source.remarks) : r = token ∨ r.extent.Apart token.extent := by
  rcases h.apart r hr with hmem | hapart
  · exact h.placed.token_apart hmem htoken
  · exact .inr (hapart.mono ⟨Nat.le_refl _, Nat.le_refl _⟩ (h.placed.token htoken).2)

section

variable (hs : source.Sound)
include hs

/-- No comment is cut in two where a token of a tree begins or ends. -/
theorem splits_token (h : source.Holds tree) {token : Token} (htoken : token ∈ tree.tokens) :
    source.Splits token.extent.start ∧ source.Splits token.extent.stop := by
  have hle := (h.placed.token htoken).1.start_le
  constructor
  · intro r hr
    have hstop := hs.solidStop_le hr
    rcases h.token_apart htoken hr with rfl | hbefore | hbehind
    · exact .inr (Nat.le_refl _)
    · exact .inl (Nat.le_trans hstop hbefore)
    · exact .inr (Nat.le_trans hle hbehind)
  · intro r hr
    have hstop := hs.solidStop_le hr
    rcases h.token_apart htoken hr with rfl | hbefore | hbehind
    · exact .inl hstop
    · exact .inl (by omega)
    · exact .inr hbehind

/-- No comment is cut in two where a tree begins or ends. -/
theorem splits (h : source.Holds tree) :
    source.Splits tree.extent.start ∧ source.Splits tree.extent.stop := by
  have hle := h.placed.start_le_stop
  constructor
  · intro r hr
    have hstop := hs.solidStop_le hr
    rcases h.apart r hr with htoken | hbefore | hbehind
    · exact .inr (h.placed.token htoken).2.1
    · exact .inl (Nat.le_trans hstop hbefore)
    · exact .inr (Nat.le_trans hle hbehind)
  · intro r hr
    have hstop := hs.solidStop_le hr
    rcases h.apart r hr with htoken | hbefore | hbehind
    · exact .inl (Nat.le_trans hstop (h.placed.token htoken).2.2)
    · exact .inl (by omega)
    · exact .inr hbehind

/-- The comments of a tree are those that begin between its ends. -/
theorem mem_comments_iff (h : source.Holds tree) {r : Token} :
    r ∈ tree.comments ↔ r ∈ source.between tree.extent.start tree.extent.stop := by
  constructor
  · intro hr
    have hmem := h.mem r hr
    obtain ⟨htoken, -⟩ := Tree.mem_comments.1 hr
    have hwithin := (h.placed.token htoken).2
    have hlt := hs.start_lt_solidStop hmem
    have hstop := hs.solidStop_le hmem
    exact mem_between.2 ⟨hmem, hwithin.1, by omega⟩
  · intro hr
    obtain ⟨hmem, hstart, hlt⟩ := mem_between.1 hr
    have hsolid := hs.start_lt_solidStop hmem
    have hstop := hs.solidStop_le hmem
    rcases h.apart r hmem with htoken | hbefore | hbehind
    · exact Tree.mem_comments.2 ⟨htoken, (hs.placed r hmem).2⟩
    · omega
    · omega

/-- The comments of a tree are those that begin between its ends, as often as there. -/
theorem perm_comments (h : source.Holds tree) :
    tree.comments.Perm (source.between tree.extent.start tree.extent.stop) :=
  (List.perm_ext_iff_of_nodup h.placed.nodup_comments (hs.nodup.filter _)).2 fun _ =>
    h.mem_comments_iff hs

/-- A tree without comments is free of them. -/
theorem free (h : source.Holds tree) (hnone : tree.comments = []) :
    source.Free tree.extent.start tree.extent.stop := by
  refine (h.splits hs).1.free ?_
  rw [List.eq_nil_iff_forall_not_mem]
  intro r hr
  have := (h.mem_comments_iff hs).2 hr
  simp [hnone] at this

/-- The text of a token that is no comment is free of comments. -/
theorem free_token (h : source.Holds tree) {token : Token} (htoken : token ∈ tree.tokens)
    (hcode : token.is .comment = false) : source.Free token.extent.start token.extent.stop := by
  intro r hr
  have hstop := hs.solidStop_le hr
  rcases h.token_apart htoken hr with rfl | hbefore | hbehind
  · rw [(hs.placed r hr).2] at hcode
    contradiction
  · exact .inl (Nat.le_trans hstop hbefore)
  · exact .inr hbehind

end

end Holds

/-! ### The source of a tree -/

section

variable {text : List Char} {tree : Tree}

theorem sound_ofTree (h : tree.Placed text) : (ofTree text tree).Sound := by
  refine ⟨fun r hr => ?_, ?_, fun r hr literal hliteral => ?_⟩
  · obtain ⟨htoken, hcomment⟩ := Tree.mem_comments.1 hr
    exact ⟨(h.token htoken).1, hcomment⟩
  · exact List.pairwise_map.2 ((List.pairwise_map.1 h.tokens_inOrder).filter _)
  · obtain ⟨inner, hinner, rfl⟩ := List.mem_map.1 hliteral
    obtain ⟨htoken, -⟩ := Tree.mem_comments.1 hr
    exact h.within_or_apart hinner htoken

theorem holds_ofTree (h : tree.Placed text)
    (made : ∀ part ∈ tree.parts, part.Derived typeScriptAutomaton) :
    (ofTree text tree).Holds tree :=
  ⟨h, made, fun _ hr => hr, fun _ hr => .inl (Tree.mem_comments.1 hr).1, fun literal hliteral => by
    obtain ⟨inner, hinner, rfl⟩ := List.mem_map.1 hliteral
    exact .inl ⟨inner, hinner, rfl⟩⟩

end

end Source

end CodeSplice
