/-
Module: CodeSplice.Proofs.Document.Pieces
Purpose: The pieces of a container hold its comments. Pieces are a chain if they come one after another
  and no comment begins between them; the pieces that the children of a tree make are one.
Main exports: Source.Contains, Source.Chain, Source.chain_ofTree, Source.chain_ofTrees
-/
import CodeSplice.Document.Attach
import CodeSplice.Proofs.Document.Holds

namespace CodeSplice

open Layout Syntax

@[simp] theorem Syntax.Extent.start_cover (first last : Extent) :
    (first.cover last).start = first.start := rfl

@[simp] theorem Syntax.Extent.stop_cover (first last : Extent) :
    (first.cover last).stop = last.stop := rfl

/-- Where a piece stands. -/
def Piece.extent : Piece → Extent
  | remark token => token.extent
  | decorator extent => extent
  | separator extent => extent
  | child _ extent => extent

namespace Source

variable {source : Source}

/-- A child of a container that ends where `extent` ends: behind its last token that is no comment. -/
structure Child (source : Source) (tree : Tree) (extent : Extent) : Prop where
  holds : source.Holds tree
  derived : tree.Derived typeScriptAutomaton
  start_eq : extent.start = tree.extent.start
  code_le : ∀ token ∈ tree.tokens, token.is .comment = false → token.extent.stop ≤ extent.stop
  le : extent.start ≤ extent.stop
  splits : source.Splits extent.stop

/-- A piece of a source. -/
inductive Contains (source : Source) : Piece → Prop where
  | remark {tree : Tree} {token : Token} (holds : source.Holds tree) (mem : token ∈ tree.tokens) :
      Contains source (.remark token)
  | decorator {tree : Tree} (holds : source.Holds tree) : Contains source (.decorator tree.extent)
  | separator {tree : Tree} {token : Token} (holds : source.Holds tree) (mem : token ∈ tree.tokens)
      (code : token.is .comment = false) : Contains source (.separator token.extent)
  | child {tree : Tree} {extent : Extent} (child : source.Child tree extent) :
      Contains source (.child tree extent)

/-- No comment is cut in two where a piece begins or ends. -/
theorem Contains.splits (hs : source.Sound) {piece : Piece} (h : source.Contains piece) :
    source.Splits piece.extent.start ∧ source.Splits piece.extent.stop ∧
      piece.extent.start ≤ piece.extent.stop := by
  cases h with
  | remark holds mem =>
    have hsplits := holds.splits_token hs mem
    exact ⟨hsplits.1, hsplits.2, (holds.placed.token mem).1.start_le⟩
  | decorator holds =>
    have hsplits := holds.splits hs
    exact ⟨hsplits.1, hsplits.2, holds.placed.start_le_stop⟩
  | separator holds mem =>
    have hsplits := holds.splits_token hs mem
    exact ⟨hsplits.1, hsplits.2, (holds.placed.token mem).1.start_le⟩
  | child child =>
    refine ⟨?_, child.splits, child.le⟩
    have hsplits := child.holds.splits hs
    rw [← child.start_eq] at hsplits
    exact hsplits.1

/-! ### Chains -/

/-- Pieces that come one after another between two places; all comments there begin in them. -/
inductive Chain (source : Source) : Nat → List Piece → Nat → Prop where
  | nil {start stop : Nat} (le : start ≤ stop) (none : source.between start stop = []) :
      Chain source start [] stop
  | cons {start stop : Nat} {piece : Piece} {pieces : List Piece}
      (le : start ≤ piece.extent.start) (none : source.between start piece.extent.start = [])
      (contains : source.Contains piece) (rest : Chain source piece.extent.stop pieces stop) :
      Chain source start (piece :: pieces) stop

theorem between_eq_nil_of_split {start middle stop : Nat} (h : source.between start middle = [])
    (h' : source.between middle stop = []) : source.between start stop = [] := by
  rw [List.eq_nil_iff_forall_not_mem] at h h' ⊢
  intro r hr
  obtain ⟨hr, hstart, hstop⟩ := mem_between.1 hr
  by_cases hlt : r.extent.start < middle
  · exact h r (mem_between.2 ⟨hr, hstart, hlt⟩)
  · exact h' r (mem_between.2 ⟨hr, by omega, hstop⟩)

namespace Chain

variable {start middle stop : Nat} {pieces others : List Piece}

theorem start_le (h : source.Chain start pieces stop) (hs : source.Sound) : start ≤ stop := by
  induction h with
  | nil le => exact le
  | cons le none contains rest ih =>
    have := (contains.splits hs).2.2
    omega

/-- A chain may begin earlier if no comment begins in between. -/
theorem weaken (h : source.Chain middle pieces stop) (hle : start ≤ middle)
    (hnone : source.between start middle = []) : source.Chain start pieces stop := by
  cases h with
  | nil le none => exact .nil (Nat.le_trans hle le) (between_eq_nil_of_split hnone none)
  | cons le none contains rest =>
    exact .cons (Nat.le_trans hle le) (between_eq_nil_of_split hnone none) contains rest

theorem append (h : source.Chain start pieces middle) (h' : source.Chain middle others stop) :
    source.Chain start (pieces ++ others) stop := by
  induction h with
  | nil le none => exact h'.weaken le none
  | cons le none contains rest ih => exact .cons le none contains (ih h')

end Chain

/-! ### The pieces of trees -/

theorem between_self (position : Nat) : source.between position position = [] := by
  apply between_eq_nil
  intro r hr
  omega

/-- A piece is a chain from its start to its end. -/
theorem chain_singleton {piece : Piece} (contains : source.Contains piece) :
    source.Chain piece.extent.start [piece] piece.extent.stop :=
  .cons (Nat.le_refl _) (between_self _) contains (.nil (Nat.le_refl _) (between_self _))

section

variable (hs : source.Sound)
include hs

/-- The last tokens of a tree are a chain, if each of them is a piece. -/
theorem chain_ofTokens {tree : Tree} (h : source.Holds tree) {front back : List Token}
    (htokens : tree.tokens = front ++ back) {position : Nat} (hge : tree.extent.start ≤ position)
    (hle : position ≤ tree.extent.stop)
    (hfront : ∀ token ∈ front, token.extent.stop ≤ position)
    (hback : ∀ token ∈ back, position ≤ token.extent.start) :
    source.Chain position (back.map .remark) tree.extent.stop := by
  -- A comment that begins here is one of the tokens that are left.
  have hmem : ∀ r ∈ source.remarks, position ≤ r.extent.start →
      r.extent.start < tree.extent.stop → r ∈ back := by
    intro r hr hstart hlt
    have hpos := hs.start_lt_solidStop hr
    have hstop := hs.solidStop_le hr
    rcases h.apart r hr with htoken | hbefore | hbehind
    · rw [htokens] at htoken
      rcases List.mem_append.1 htoken with hmem | hmem
      · have := hfront r hmem
        omega
      · exact hmem
    · omega
    · omega
  induction back generalizing front position with
  | nil =>
    refine .nil hle (between_eq_nil fun r hr => ?_)
    refine Classical.byContradiction fun hnot => ?_
    simpa using hmem r hr (by omega) (by omega)
  | cons token back ih =>
    have htoken : token ∈ tree.tokens := by simp [htokens]
    have horder := List.pairwise_map.1 h.placed.tokens_inOrder
    rw [htokens, List.pairwise_append, List.pairwise_cons] at horder
    obtain ⟨-, ⟨hlater, -⟩, hearlier⟩ := horder
    have hwithin := h.placed.token htoken
    have hspan := hwithin.1.start_le
    have hhere : source.between position token.extent.start = [] := by
      apply between_eq_nil
      intro r hr
      refine Classical.byContradiction fun hnot => ?_
      rcases List.mem_cons.1 (hmem r hr (by omega) (by omega)) with rfl | hr
      · omega
      · have := hlater r hr
        omega
    refine .cons (hback token (by simp)) hhere (.remark h htoken) ?_
    have htokens' : tree.tokens = (front ++ [token]) ++ back := by simp [htokens]
    have hge' : tree.extent.start ≤ token.extent.stop := by omega
    refine ih htokens' hge' hwithin.2.2 ?_ hlater ?_
    · intro other hother
      rcases List.mem_append.1 hother with hother | hother
      · have := hearlier other hother token (by simp)
        simp only [Piece.extent]
        omega
      · obtain rfl := List.mem_singleton.1 hother
        exact Nat.le_refl _
    · intro r hr hstart hlt
      have hpos := hs.start_lt_solidStop hr
      have hstop := hs.solidStop_le hr
      simp only [Piece.extent] at hstart
      have := hback token (by simp)
      rcases List.mem_cons.1 (hmem r hr (by omega) hlt) with rfl | hr
      · omega
      · exact hr

/-- A tree ends, as a child, behind its last token that is no comment. The comments behind this token are
a chain. -/
theorem child_codeExtent {tree : Tree} (h : source.Holds tree)
    (derived : tree.Derived typeScriptAutomaton)
    (hcode : ∃ token ∈ tree.tokens, token.is .comment = false) :
    source.Child tree tree.codeExtent ∧
      source.Chain tree.codeExtent.stop (tree.trailing.map .remark) tree.extent.stop := by
  obtain ⟨front, last, htokens, hlast, hextent, htrailing⟩ := Tree.exists_codeExtent hcode
  have hmem : last ∈ tree.tokens := by simp [htokens]
  have hplaced := h.placed.token hmem
  have hge : tree.extent.start ≤ last.extent.stop := Nat.le_trans hplaced.2.1 hplaced.1.start_le
  have horder := List.pairwise_map.1 h.placed.tokens_inOrder
  rw [htokens, List.pairwise_append, List.pairwise_cons] at horder
  obtain ⟨-, ⟨hlater, -⟩, hearlier⟩ := horder
  have hbefore : ∀ token ∈ front ++ [last], token.extent.stop ≤ last.extent.stop := by
    intro token htoken
    rcases List.mem_append.1 htoken with htoken | htoken
    · exact Nat.le_trans (hearlier token htoken last List.mem_cons_self) hplaced.1.start_le
    · obtain rfl := List.mem_singleton.1 htoken
      exact Nat.le_refl _
  have htokens' : tree.tokens = (front ++ [last]) ++ tree.trailing := by simpa using htokens
  rw [hextent, Extent.stop_cover]
  refine ⟨?_, chain_ofTokens hs h htokens' hge hplaced.2.2 hbefore hlater⟩
  exact
    { holds := h
      derived
      start_eq := rfl
      code_le := by
        intro token htoken hkind
        rw [htokens'] at htoken
        rcases List.mem_append.1 htoken with htoken | htoken
        · exact hbefore token htoken
        · rw [htrailing token htoken] at hkind
          contradiction
      le := hge
      splits := (h.splits_token hs hmem).2 }

theorem chain_ofLeaf {token : Token} (h : source.Holds (.leaf token))
    (derived : (Tree.leaf token).Derived typeScriptAutomaton)
    (hline : (Tree.leaf token).isKind .lineEnd = false) :
    source.Chain token.extent.start (Piece.ofTree (.leaf token)) token.extent.stop := by
  have htoken : token ∈ (Tree.leaf token).tokens := by
    rw [Tree.tokens_leaf, if_neg (by simpa [Tree.isKind] using hline)]
    exact List.mem_singleton_self token
  simp only [Piece.ofTree]
  split
  · exact chain_singleton (.remark h htoken)
  · rename_i hremark
    have hcode : token.is .comment = false := by
      simp only [Bool.or_eq_true, not_or] at hremark
      simpa using hremark.1
    split
    · exact chain_singleton (.child
        { holds := h
          derived
          start_eq := rfl
          code_le := fun other hother _ => (h.placed.token hother).2.2
          le := h.placed.start_le_stop
          splits := (h.splits hs).2 })
    · split
      · exact chain_singleton (.separator h htoken hcode)
      · refine .nil h.placed.start_le_stop (List.eq_nil_iff_forall_not_mem.2 fun r hr => ?_)
        have hremark := (h.mem_comments_iff hs).2 hr
        simp [Tree.comments_leaf_of_code hcode] at hremark

/-- The pieces of a child are a chain from its start to its end. -/
theorem chain_ofTree {tree : Tree} (h : source.Holds tree)
    (derived : tree.Derived typeScriptAutomaton) (hline : tree.isKind .lineEnd = false) :
    source.Chain tree.extent.start (Piece.ofTree tree) tree.extent.stop := by
  unfold Piece.ofTree
  split
  · exact chain_ofLeaf hs h derived hline
  · exact chain_singleton (.decorator h)
  · obtain ⟨hchild, htrailing⟩ :=
      child_codeExtent hs h derived (derived.exists_code marksPhrases_typeScript rfl rfl)
    exact .cons (Nat.le_of_eq hchild.start_eq.symm) (hchild.start_eq ▸ between_self _)
      (.child hchild) htrailing

/-- The pieces of children that hold all comments between two places are a chain. -/
theorem chain_ofTrees {trees : List Tree} {start stop : Nat} (hle : start ≤ stop)
    (holds : ∀ tree ∈ trees, source.Holds tree ∧ tree.Derived typeScriptAutomaton ∧
      tree.isKind .lineEnd = false)
    (inOrder : InOrder (trees.map Tree.extent))
    (within : ∀ tree ∈ trees, start ≤ tree.extent.start ∧ tree.extent.stop ≤ stop)
    (cover : ∀ r ∈ source.remarks, start ≤ r.extent.start → r.extent.start < stop →
      ∃ tree ∈ trees, r ∈ tree.tokens) :
    source.Chain start (trees.flatMap Piece.ofTree) stop := by
  induction trees generalizing start with
  | nil =>
    refine .nil hle (between_eq_nil fun r hr => ?_)
    refine Classical.byContradiction fun hnot => ?_
    obtain ⟨tree, htree, -⟩ := cover r hr (by omega) (by omega)
    simp at htree
  | cons tree trees ih =>
    obtain ⟨hholds, hderived, hline⟩ := holds tree (by simp)
    have hwithin := within tree (by simp)
    have hspan := hholds.placed.start_le_stop
    have hlater := fun other (hother : other ∈ trees) =>
      Tree.Placed.stop_le_of_mem_tail inOrder hother
    -- Where a comment begins that the cover finds: in this tree, or in one behind it.
    have hcover : ∀ r ∈ source.remarks, start ≤ r.extent.start → r.extent.start < stop →
        (r ∈ tree.tokens ∧ tree.extent.start ≤ r.extent.start ∧
          r.extent.start < tree.extent.stop) ∨
        (∃ other ∈ trees, r ∈ other.tokens ∧ tree.extent.stop ≤ r.extent.start) := by
      intro r hr hstart hlt
      have hpos := hs.start_lt_solidStop hr
      have hstop := hs.solidStop_le hr
      obtain ⟨other, hother, hmem⟩ := cover r hr hstart hlt
      have hplaced := ((holds other hother).1.placed.token hmem).2
      rcases List.mem_cons.1 hother with rfl | hother
      · exact .inl ⟨hmem, hplaced.1, by omega⟩
      · have := hlater other hother
        exact .inr ⟨other, hother, hmem, by omega⟩
    have hnone : source.between start tree.extent.start = [] := by
      apply between_eq_nil
      intro r hr
      refine Classical.byContradiction fun hnot => ?_
      rcases hcover r hr (by omega) (by omega) with ⟨-, hstart, -⟩ | ⟨-, -, -, hstart⟩
      · omega
      · omega
    have hfirst := (chain_ofTree hs hholds hderived hline).weaken hwithin.1 hnone
    rw [List.flatMap_cons]
    refine hfirst.append (ih hwithin.2 (fun other hother => holds other (by simp [hother])) ?_ ?_ ?_)
    · simp only [InOrder, List.map_cons, List.pairwise_cons] at inOrder
      exact inOrder.2
    · intro other hother
      exact ⟨hlater other hother, (within other (by simp [hother])).2⟩
    · intro r hr hstart hlt
      rcases hcover r hr (by omega) hlt with ⟨-, -, hin⟩ | ⟨other, hother, hmem, -⟩
      · omega
      · exact ⟨other, hother, hmem⟩

end

end Source

end CodeSplice
