/-
Module: CodeSplice.Proofs.Syntax.Order
Purpose: How tokens and phrases lie to each other in a placed tree. Two children have nothing in common,
  a token lies in an outermost phrase or apart from it, and behind the last token of a tree that is no
  comment come the trailing ones.
Main exports: InOrder.apart, Tree.comments_node, Tree.Placed.within_or_apart, Tree.exists_codeExtent
-/
import CodeSplice.Proofs.Syntax.Placement

namespace CodeSplice.Syntax

open Layout

/-- One of two pieces of source ends before the other begins. -/
def Extent.Apart (first second : Extent) : Prop :=
  first.stop ≤ second.start ∨ second.stop ≤ first.start

theorem Extent.Apart.symm {first second : Extent} (h : first.Apart second) : second.Apart first :=
  Or.symm h

/-- Pieces that lie in pieces that are apart are apart. -/
theorem Extent.Apart.mono {first second inner outer : Extent} (h : first.Apart second)
    (hfirst : first.start ≤ inner.start ∧ inner.stop ≤ first.stop)
    (hsecond : second.start ≤ outer.start ∧ outer.stop ≤ second.stop) : inner.Apart outer := by
  simp only [Apart] at h ⊢
  omega

/-- Pieces that come in order are apart. -/
theorem InOrder.apart {α : Type} {pieces : List α} {extent : α → Extent}
    (h : InOrder (pieces.map extent)) {first second : α} (hfirst : first ∈ pieces)
    (hsecond : second ∈ pieces) : first = second ∨ (extent first).Apart (extent second) := by
  have hpairs := List.pairwise_map.1 h
  have hall := List.Pairwise.forall_of_forall_of_flip
    (R := fun a b => a = b ∨ (extent a).Apart (extent b)) (fun _ _ => .inl rfl)
    (hpairs.imp fun hle => .inr (.inl hle)) (hpairs.imp fun hle => .inr (.inr hle))
  exact hall hfirst hsecond

namespace Tree

variable {text : List Char} {tree : Tree}

/-! ### Comments -/

theorem mem_comments {token : Token} :
    token ∈ tree.comments ↔ token ∈ tree.tokens ∧ token.is .comment = true := by
  simp [comments]

theorem comments_leaf_of_code {token : Token} (h : token.is .comment = false) :
    (leaf token).comments = [] := by
  simp only [comments, tokens_leaf]
  split <;> simp [h]

/-- The comments of a phrase are those of its children. -/
theorem comments_node (phrase : Phrase) (extent : Extent) (weight : Int) (parts : List Tree) :
    (node phrase extent weight parts).comments =
      (node phrase extent weight parts).children.flatMap comments := by
  rw [comments, ← flatMap_tokens_children, List.filter_flatMap]
  rfl

namespace Placed

/-- Tokens of one place are the same. -/
theorem token_apart (h : Placed text tree) {first second : Token} (hfirst : first ∈ tree.tokens)
    (hsecond : second ∈ tree.tokens) : first = second ∨ first.extent.Apart second.extent :=
  h.tokens_inOrder.apart hfirst hsecond

/-- The comments of a placed tree are different from each other. -/
theorem nodup_comments (h : Placed text tree) : tree.comments.Nodup := by
  have hpairs := (List.pairwise_map.1 h.tokens_inOrder).filter (·.is .comment)
  refine hpairs.imp_of_mem ?_
  intro first second hfirst hsecond hle heq
  obtain ⟨htoken, hcomment⟩ := mem_comments.1 hfirst
  have hlt := ((h.token htoken).1.remark hcomment).1
  rw [← heq] at hle
  omega

/-- A token of one child lies apart from the other children. -/
theorem child_apart (h : Placed text tree) {child other : Tree} (hchild : child ∈ tree.children)
    (hother : other ∈ tree.children) (hne : child ≠ other) {token : Token}
    (htoken : token ∈ child.tokens) : token.extent.Apart other.extent := by
  have hapart := (h.children_inOrder.apart hchild hother).resolve_left hne
  refine hapart.mono ((h.child hchild).1.token htoken).2 ⟨Nat.le_refl _, Nat.le_refl _⟩

end Placed

/-! ### Outermost phrases -/

mutual

theorem outermostOnto_append (phrase : Phrase) (tree : Tree) (first rest : List Tree) :
    tree.outermostOnto phrase (first ++ rest) = tree.outermostOnto phrase first ++ rest := by
  cases tree with
  | leaf token => rfl
  | node kind extent weight parts =>
    simp only [outermostOnto]
    split
    · rfl
    · exact outermostOfPartsOnto_append phrase parts first rest

theorem outermostOfPartsOnto_append (phrase : Phrase) (parts first rest : List Tree) :
    outermostOfPartsOnto phrase parts (first ++ rest) =
      outermostOfPartsOnto phrase parts first ++ rest := by
  cases parts with
  | nil => rfl
  | cons part parts =>
    simp only [outermostOfPartsOnto]
    rw [outermostOfPartsOnto_append phrase parts first rest, outermostOnto_append phrase part _ rest]

end

theorem outermostOfPartsOnto_eq (phrase : Phrase) (parts rest : List Tree) :
    outermostOfPartsOnto phrase parts rest = parts.flatMap (outermost phrase) ++ rest := by
  induction parts with
  | nil => rfl
  | cons part parts ih =>
    simp only [outermostOfPartsOnto, ih, List.flatMap_cons, List.append_assoc]
    simpa [outermost] using
      outermostOnto_append phrase part [] (parts.flatMap (outermost phrase) ++ rest)

@[simp] theorem outermost_leaf (phrase : Phrase) (token : Token) :
    (leaf token).outermost phrase = [] := rfl

theorem outermost_node (phrase kind : Phrase) (extent : Extent) (weight : Int)
    (parts : List Tree) :
    (node kind extent weight parts).outermost phrase =
      if kind == phrase then [node kind extent weight parts]
      else parts.flatMap (outermost phrase) := by
  simp only [outermost, outermostOnto]
  split <;> simp [outermostOfPartsOnto_eq]

/-- Spreading a part loses no outermost phrase, unless phrases of that kind only group. -/
theorem flatMap_outermost_spread {phrase : Phrase} (h : groups phrase = false) (tree : Tree) :
    tree.spread.flatMap (outermost phrase) = tree.outermost phrase := by
  induction tree using byParts with
  | leaf token =>
    rw [spread_leaf]
    split <;> simp
  | node kind extent weight parts ih =>
    rw [spread_node]
    split
    · rename_i hgroups
      have hkind : (kind == phrase) = false := by
        apply beq_false_of_ne
        rintro rfl
        simp [h] at hgroups
      rw [outermost_node, if_neg (by simp [hkind]), List.flatMap_assoc]
      exact List.flatMap_congr ih
    · simp

/-- The outermost phrases of a kind in a phrase of another kind are those in its children. -/
theorem flatMap_outermost_children {phrase : Phrase} (h : groups phrase = false) {kind : Phrase}
    (hkind : kind ≠ phrase) (extent : Extent) (weight : Int) (parts : List Tree) :
    (node kind extent weight parts).children.flatMap (outermost phrase) =
      (node kind extent weight parts).outermost phrase := by
  rw [children_eq, outermost_node, if_neg (by simpa using hkind), parts_node, List.flatMap_assoc]
  exact List.flatMap_congr fun part _ => flatMap_outermost_spread h part

namespace Placed

/-- An outermost phrase lies within the tree. -/
theorem outermost_within (h : Placed text tree) {phrase : Phrase} {inner : Tree}
    (hinner : inner ∈ tree.outermost phrase) :
    tree.extent.start ≤ inner.extent.start ∧ inner.extent.stop ≤ tree.extent.stop := by
  induction tree using byParts with
  | leaf token => simp at hinner
  | node kind extent weight parts ih =>
    rw [outermost_node] at hinner
    split at hinner
    · obtain rfl := List.mem_singleton.1 hinner
      exact ⟨Nat.le_refl _, Nat.le_refl _⟩
    · obtain ⟨part, hpart, hinner⟩ := List.mem_flatMap.1 hinner
      have hwithin := h.within hpart
      have hpartWithin := ih part hpart (h.part hpart) hinner
      simp only [extent_node] at hwithin ⊢
      omega

/-- A token of a tree lies in an outermost phrase of the tree, or apart from it. -/
theorem within_or_apart (h : Placed text tree) {phrase : Phrase} {inner : Tree}
    (hinner : inner ∈ tree.outermost phrase) {token : Token} (htoken : token ∈ tree.tokens) :
    (inner.extent.start ≤ token.extent.start ∧ token.extent.stop ≤ inner.extent.stop) ∨
      token.extent.Apart inner.extent := by
  induction tree using byParts with
  | leaf token => simp at hinner
  | node kind extent weight parts ih =>
    rw [outermost_node] at hinner
    split at hinner
    · obtain rfl := List.mem_singleton.1 hinner
      exact .inl (h.token htoken).2
    · obtain ⟨part, hpart, hinner⟩ := List.mem_flatMap.1 hinner
      rw [tokens_node] at htoken
      obtain ⟨other, hother, htoken⟩ := List.mem_flatMap.1 htoken
      rcases h.parts_inOrder.apart hother hpart with rfl | hapart
      · exact ih other hother (h.part hother) hinner htoken
      · exact .inr (hapart.mono ((h.part hother).token htoken).2
          ((h.part hpart).outermost_within hinner))

end Placed

/-! ### The comments at the end -/

/-- A tree with a token that is no comment ends with one, apart from the trailing comments. -/
theorem exists_codeExtent (h : ∃ token ∈ tree.tokens, token.is .comment = false) :
    ∃ front last, tree.tokens = front ++ last :: tree.trailing ∧ last.is .comment = false ∧
      tree.codeExtent = tree.extent.cover last.extent ∧
      ∀ token ∈ tree.trailing, token.is .comment = true := by
  have hsplit : tree.tokens = (tree.tokens.reverse.dropWhile (·.is .comment)).reverse ++
      tree.trailing := by
    rw [trailing, ← List.reverse_append, List.takeWhile_append_dropWhile, List.reverse_reverse]
  have htrailing : ∀ token ∈ tree.trailing, token.is .comment = true := by
    intro token htoken
    exact List.all_eq_true.1 List.all_takeWhile token (List.mem_reverse.1 htoken)
  cases hcode : tree.tokens.reverse.dropWhile (·.is .comment) with
  | nil =>
    obtain ⟨token, htoken, hcomment⟩ := h
    rw [hcode, List.reverse_nil, List.nil_append] at hsplit
    rw [hsplit] at htoken
    rw [htrailing token htoken] at hcomment
    contradiction
  | cons last others =>
    have hlast : last.is .comment = false := by
      have := List.head?_dropWhile_not (fun token : Token => token.is .comment) tree.tokens.reverse
      rw [hcode] at this
      simpa using this
    refine ⟨others.reverse, last, ?_, hlast, ?_, htrailing⟩
    · rw [hcode] at hsplit
      simpa using hsplit
    · simp only [codeExtent, hcode]

end Tree

end CodeSplice.Syntax
