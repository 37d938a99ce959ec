/-
Module: CodeSplice.Proofs.Syntax.Placement
Purpose: Where the tokens of a tree stand. A token is placed in a text if its text stands there where
  its extent says; a tree is placed if its tokens are, if they come one after another, and if each
  phrase reaches from its first part to its last. In a placed tree the extent of a phrase and the
  tokens in it say the same.
Main exports: Token.Placed, Tree.Placed, Tree.Placed.ofParts, Tree.Placed.tokens_inOrder,
  Tree.Placed.child
-/
import CodeSplice.Proofs.Syntax.Spread
import CodeSplice.Syntax.Lexeme

namespace CodeSplice.Syntax

open Layout Text

/-- A token stands in a text where its extent says. A comment takes what a comment takes there, an
interpreter line what such a line takes, a keyword or a mark is spelled like it, and only the unmarked
end of a statement and the end of the text take nothing. -/
structure Token.Placed (text : List Char) (token : Token) : Prop where
  start_le : token.extent.start ≤ token.extent.stop
  text_eq : token.text.toList = slice text token.extent.start token.extent.stop
  endRow_eq : token.extent.endRow = token.extent.row + token.text.toList.count '\n'
  remark : token.is .comment = true →
    token.extent.start < token.extent.stop ∧
      token.extent.stop = token.extent.start + commentLength (text.drop token.extent.start)
  interpreter : token.is .interpreter = true →
    token.extent.stop = token.extent.start + interpreterLength (text.drop token.extent.start)
  spelled : ∀ spelling, token.terminal = .spelled spelling →
    token.text.toList = spelling ∧ token.extent.stop = token.extent.start + spelling.length
  solid : token.is .lineEnd = false → token.is .endOfText = false →
    token.extent.start < token.extent.stop

/-- Pieces of source that come one after another. -/
def InOrder (extents : List Extent) : Prop :=
  extents.Pairwise fun first second => first.stop ≤ second.start

/-- Pieces that lie in pieces that come in order are in order. -/
theorem InOrder.flatMap {α β : Type} {outer : List α} {extent : α → Extent} {inner : α → List β}
    {extent' : β → Extent}
    (within : ∀ a ∈ outer, ∀ b ∈ inner a, (extent a).start ≤ (extent' b).start ∧
      (extent' b).stop ≤ (extent a).stop)
    (inOrder : ∀ a ∈ outer, InOrder ((inner a).map extent'))
    (h : InOrder (outer.map extent)) : InOrder ((outer.flatMap inner).map extent') := by
  induction outer with
  | nil => exact .nil
  | cons a outer ih =>
    simp only [InOrder, List.map_cons, List.pairwise_cons] at h
    simp only [InOrder, List.flatMap_cons, List.map_append, List.pairwise_append]
    refine ⟨inOrder a (by simp), ih (fun a ha => within a (by simp [ha]))
      (fun a ha => inOrder a (by simp [ha])) h.2, ?_⟩
    intro first hfirst second hsecond
    obtain ⟨b, hb, rfl⟩ := List.mem_map.1 hfirst
    obtain ⟨c, hc, rfl⟩ := List.mem_map.1 hsecond
    obtain ⟨d, hd, hc⟩ := List.mem_flatMap.1 hc
    have h1 := within a (by simp) b hb
    have h2 := within d (by simp [hd]) c hc
    have h3 := h.1 _ (List.mem_map_of_mem hd)
    omega

namespace Tree

@[simp] theorem extent_leaf (token : Token) : (leaf token).extent = token.extent := rfl

@[simp] theorem extent_node (phrase : Phrase) (extent : Extent) (weight : Int)
    (parts : List Tree) : (node phrase extent weight parts).extent = extent := rfl

@[simp] theorem parts_node (phrase : Phrase) (extent : Extent) (weight : Int)
    (parts : List Tree) : (node phrase extent weight parts).parts = parts := rfl

/-- A tree stands in a text where its extents say. -/
inductive Placed (text : List Char) : Tree → Prop where
  | leaf {token : Token} (placed : token.Placed text) : Placed text (.leaf token)
  | node {phrase : Phrase} {extent : Extent} {weight : Int} {parts : List Tree} {first last : Tree}
      (placed : ∀ part ∈ parts, Placed text part)
      (inOrder : InOrder (parts.map Tree.extent))
      (head : parts.head? = some first) (start_eq : extent.start = first.extent.start)
      (tail : parts.getLast? = some last) (stop_eq : extent.stop = last.extent.stop) :
      Placed text (.node phrase extent weight parts)
  /-- The phrase of an empty text. -/
  | empty {phrase : Phrase} {extent : Extent} {weight : Int}
      (start_le : extent.start ≤ extent.stop) : Placed text (.node phrase extent weight [])

namespace Placed

variable {text : List Char} {tree : Tree}

/-- The parts of a placed tree are placed. -/
theorem part (h : Placed text tree) {part : Tree} (hp : part ∈ tree.parts) : Placed text part := by
  cases h with
  | leaf => simp [parts] at hp
  | node placed => exact placed part hp
  | empty => simp at hp

theorem parts_inOrder (h : Placed text tree) : InOrder (tree.parts.map extent) := by
  cases h with
  | leaf => exact .nil
  | node _ inOrder => exact inOrder
  | empty => exact .nil

/-- In a list in order that begins with `first`, no piece starts before `first` ends. -/
theorem stop_le_of_mem_tail {first : Tree} {rest : List Tree}
    (h : InOrder ((first :: rest).map Tree.extent)) {part : Tree} (hp : part ∈ rest) :
    first.extent.stop ≤ part.extent.start := by
  simp only [InOrder, List.map_cons, List.pairwise_cons] at h
  exact h.1 _ (List.mem_map_of_mem hp)

theorem start_le_stop (h : Placed text tree) : tree.extent.start ≤ tree.extent.stop := by
  induction tree using byParts with
  | leaf token =>
    cases h with
    | leaf placed => exact placed.start_le
  | node phrase extent weight parts ih =>
    cases h with
    | empty start_le => exact start_le
    | @node _ _ _ _ first last placed inOrder head start_eq tail stop_eq =>
      simp only [extent_node, start_eq, stop_eq]
      have hf : first ∈ parts := List.mem_of_head? head
      have hl : last ∈ parts := List.mem_of_getLast? tail
      have h1 := ih first hf (placed first hf)
      have h2 := ih last hl (placed last hl)
      cases parts with
      | nil => simp at head
      | cons part parts =>
        obtain rfl : part = first := by simpa using head
        rcases List.mem_cons.1 hl with rfl | hl
        · exact h1
        · have := stop_le_of_mem_tail inOrder hl
          omega

/-- A part lies within its phrase. -/
theorem within (h : Placed text tree) {part : Tree} (hp : part ∈ tree.parts) :
    tree.extent.start ≤ part.extent.start ∧ part.extent.stop ≤ tree.extent.stop := by
  cases h with
  | leaf => simp [parts] at hp
  | empty => simp at hp
  | @node phrase extent weight parts first last placed inOrder head start_eq tail stop_eq =>
    simp only [parts_node] at hp
    simp only [extent_node, start_eq, stop_eq]
    have hf := (placed first (List.mem_of_head? head)).start_le_stop
    have hl := (placed last (List.mem_of_getLast? tail)).start_le_stop
    have hpp := (placed part hp).start_le_stop
    constructor
    · cases parts with
      | nil => simp at head
      | cons other parts =>
        obtain rfl : other = first := by simpa using head
        rcases List.mem_cons.1 hp with rfl | hp
        · exact Nat.le_refl _
        · have := stop_le_of_mem_tail inOrder hp
          omega
    · obtain ⟨front, rfl⟩ := List.getLast?_eq_some_iff.1 tail
      rcases List.mem_append.1 hp with hp | hp
      · simp only [InOrder, List.map_append, List.pairwise_append] at inOrder
        have := inOrder.2.2 _ (List.mem_map_of_mem hp) last.extent (by simp)
        omega
      · obtain rfl : part = last := by simpa using hp
        exact Nat.le_refl _

/-- The trees in the place of a part are placed, come in order and lie within it. -/
theorem spread (h : Placed text tree) :
    (∀ piece ∈ tree.spread, Placed text piece ∧ tree.extent.start ≤ piece.extent.start ∧
      piece.extent.stop ≤ tree.extent.stop) ∧ InOrder (tree.spread.map extent) := by
  induction tree using byParts with
  | leaf token =>
    rw [spread_leaf]
    split
    · simp [InOrder]
    · simp [h, InOrder]
  | node phrase extent weight parts ih =>
    rw [spread_node]
    split
    · have hparts := h.parts_inOrder
      have within := fun part (hp : part ∈ parts) => h.within hp
      have placed := fun part (hp : part ∈ parts) => h.part hp
      have inner := fun part (hp : part ∈ parts) => ih part hp (placed part hp)
      refine ⟨?_, hparts.flatMap (fun part hp piece hpiece => ((inner part hp).1 piece hpiece).2)
        fun part hp => (inner part hp).2⟩
      intro piece hpiece
      obtain ⟨part, hp, hpiece⟩ := List.mem_flatMap.1 hpiece
      obtain ⟨hplaced, hstart, hstop⟩ := (inner part hp).1 piece hpiece
      have := within part hp
      exact ⟨hplaced, by omega, by omega⟩
    · simp [h, InOrder]

/-- A child of a placed tree is placed and lies within the tree. -/
theorem child (h : Placed text tree) {piece : Tree} (hp : piece ∈ tree.children) :
    Placed text piece ∧ tree.extent.start ≤ piece.extent.start ∧
      piece.extent.stop ≤ tree.extent.stop := by
  rw [children_eq] at hp
  obtain ⟨part, hpart, hpiece⟩ := List.mem_flatMap.1 hp
  obtain ⟨placed, start_le, le_stop⟩ := (h.part hpart).spread.1 piece hpiece
  have := h.within hpart
  exact ⟨placed, by omega, by omega⟩

/-- The children of a placed tree come in order. -/
theorem children_inOrder (h : Placed text tree) : InOrder (tree.children.map extent) := by
  rw [children_eq]
  exact h.parts_inOrder.flatMap
    (fun part hp piece hpiece => ((h.part hp).spread.1 piece hpiece).2)
    fun part hp => (h.part hp).spread.2

/-- The tokens of a placed tree are placed and lie within it. -/
theorem token (h : Placed text tree) {token : Token} (ht : token ∈ tree.tokens) :
    token.Placed text ∧ tree.extent.start ≤ token.extent.start ∧
      token.extent.stop ≤ tree.extent.stop := by
  induction tree using byParts with
  | leaf other =>
    rw [tokens_leaf] at ht
    split at ht
    · simp at ht
    · obtain rfl : token = other := by simpa using ht
      cases h with
      | leaf placed => simp [placed]
  | node phrase extent weight parts ih =>
    rw [tokens_node] at ht
    obtain ⟨part, hp, ht⟩ := List.mem_flatMap.1 ht
    obtain ⟨placed, start_le, le_stop⟩ := ih part hp (h.part hp) ht
    have := h.within hp
    exact ⟨placed, by omega, by omega⟩

/-- The tokens of a placed tree come in order. -/
theorem tokens_inOrder (h : Placed text tree) : InOrder (tree.tokens.map Token.extent) := by
  induction tree using byParts with
  | leaf token =>
    rw [tokens_leaf]
    split <;> simp [InOrder]
  | node phrase extent weight parts ih =>
    rw [tokens_node]
    exact h.parts_inOrder.flatMap (fun part hp token ht => ((h.part hp).token ht).2)
      fun part hp => ih part hp (h.part hp)

/-! ### Putting parts together -/

/-- Covering a sequence in order reaches from its first piece to its last. -/
theorem foldl_cover (first : Tree) (parts : List Tree)
    (inOrder : InOrder ((first :: parts).map Tree.extent))
    (placed : ∀ part ∈ first :: parts, part.extent.start ≤ part.extent.stop) (cover : Extent)
    (hstop : cover.stop = first.extent.stop) :
    let whole := parts.foldl (fun cover part =>
      if cover.stop < part.extent.stop then cover.cover part.extent else cover) cover
    whole.start = cover.start ∧
      whole.stop = ((first :: parts).getLast (List.cons_ne_nil _ _)).extent.stop := by
  induction parts generalizing first cover with
  | nil => exact ⟨rfl, hstop⟩
  | cons part parts ih =>
    simp only [List.foldl_cons]
    have hle : first.extent.stop ≤ part.extent.start := stop_le_of_mem_tail inOrder (by simp)
    have hpart := placed part (by simp)
    have inOrder' : InOrder ((part :: parts).map Tree.extent) := by
      simp only [InOrder, List.map_cons, List.pairwise_cons] at inOrder ⊢
      exact inOrder.2
    have placed' : ∀ other ∈ part :: parts, other.extent.start ≤ other.extent.stop :=
      fun other hother => placed other (List.mem_cons_of_mem first hother)
    rw [List.getLast_cons (List.cons_ne_nil part parts)]
    split
    · exact ih part inOrder' placed' (cover.cover part.extent) rfl
    · exact ih part inOrder' placed' cover (by omega)

/-- Parts that are placed and come in order make a phrase that is placed. -/
theorem ofParts {phrase : Phrase} {weight : Int} {parts : List Tree}
    (placed : ∀ part ∈ parts, Placed text part) (inOrder : InOrder (parts.map Tree.extent))
    (hne : parts ≠ []) : Placed text (.ofParts phrase weight parts) := by
  cases parts with
  | nil => exact absurd rfl hne
  | cons first parts =>
    obtain ⟨hstart, hstop⟩ := foldl_cover first parts inOrder
      (fun part hp => (placed part hp).start_le_stop) first.extent rfl
    exact .node placed inOrder (List.head?_cons ..) hstart
      (List.getLast?_eq_some_getLast (List.cons_ne_nil first parts)) hstop

/-- A phrase stays within bounds that hold for its parts. -/
theorem ofParts_within {phrase : Phrase} {weight : Int} {parts : List Tree} {start stop : Nat}
    (placed : ∀ part ∈ parts, Placed text part) (inOrder : InOrder (parts.map Tree.extent))
    (hne : parts ≠ [])
    (within : ∀ part ∈ parts, start ≤ part.extent.start ∧ part.extent.stop ≤ stop) :
    start ≤ (Tree.ofParts phrase weight parts).extent.start ∧
      (Tree.ofParts phrase weight parts).extent.stop ≤ stop := by
  cases parts with
  | nil => exact absurd rfl hne
  | cons first parts =>
    obtain ⟨hstart, hstop⟩ := foldl_cover first parts inOrder
      (fun part hp => (placed part hp).start_le_stop) first.extent rfl
    simp only [Tree.ofParts, extent_node, extentOfParts]
    rw [hstart, hstop]
    exact ⟨(within first (by simp)).1, (within _ (List.getLast_mem _)).2⟩

end Placed

end Tree

end CodeSplice.Syntax
