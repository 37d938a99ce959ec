/-
Module: CodeSplice.Proofs.Syntax.Spread
Purpose: What the functions on syntax trees that collect in front of a list compute: the tokens of a
  tree are those of its parts, one part after another, and its children have the same tokens.
Main exports: Tree.byParts, Tree.tokens_node, Tree.flatMap_tokens_children
-/
import CodeSplice.Syntax.Tree
import Mathlib.Data.List.Basic

namespace CodeSplice.Syntax.Tree

/-- What holds of a phrase when it holds of its parts, and of every token, holds of every tree. -/
theorem byParts {motive : Tree → Prop} (leaf : ∀ token, motive (.leaf token))
    (node : ∀ phrase extent weight parts, (∀ part ∈ parts, motive part) →
      motive (.node phrase extent weight parts)) :
    ∀ tree, motive tree := by
  intro tree
  refine @Tree.rec motive (fun parts => ∀ part ∈ parts, motive part) leaf node ?_ ?_ tree
  · intro part h
    simp at h
  · intro part parts hpart hparts other h
    rcases List.mem_cons.1 h with rfl | h
    · exact hpart
    · exact hparts other h

/-! ### Tokens -/

mutual

theorem tokensOnto_append (tree : Tree) (first rest : List Token) :
    tree.tokensOnto (first ++ rest) = tree.tokensOnto first ++ rest := by
  cases tree with
  | leaf token =>
    simp only [tokensOnto]
    split <;> simp
  | node phrase extent weight parts =>
    simp only [tokensOnto]
    exact tokensOfPartsOnto_append parts first rest

theorem tokensOfPartsOnto_append (parts : List Tree) (first rest : List Token) :
    tokensOfPartsOnto parts (first ++ rest) = tokensOfPartsOnto parts first ++ rest := by
  cases parts with
  | nil => rfl
  | cons part parts =>
    simp only [tokensOfPartsOnto]
    rw [tokensOfPartsOnto_append parts first rest, tokensOnto_append part _ rest]

end

theorem tokensOnto_eq (tree : Tree) (rest : List Token) :
    tree.tokensOnto rest = tree.tokens ++ rest := by
  simpa [tokens] using tokensOnto_append tree [] rest

theorem tokensOfPartsOnto_eq (parts : List Tree) (rest : List Token) :
    tokensOfPartsOnto parts rest = parts.flatMap tokens ++ rest := by
  induction parts with
  | nil => rfl
  | cons part parts ih => simp [tokensOfPartsOnto, tokensOnto_eq, ih]

/-- A token has a text unless it is the unmarked end of a statement. -/
theorem tokens_leaf (token : Token) :
    (leaf token).tokens = if token.is .lineEnd then [] else [token] := by
  simp only [tokens, tokensOnto]

/-- The tokens of a phrase are those of its parts. -/
@[simp] theorem tokens_node (phrase : Phrase) (extent : Extent) (weight : Int) (parts : List Tree) :
    (node phrase extent weight parts).tokens = parts.flatMap tokens := by
  simp [tokens, tokensOnto, tokensOfPartsOnto_eq]

/-! ### Children -/

/-- The trees that stand in the place of a part: the part, or its own parts if it only groups. -/
def spread (tree : Tree) : List Tree :=
  tree.spreadOnto []

mutual

theorem spreadOnto_append (tree : Tree) (first rest : List Tree) :
    tree.spreadOnto (first ++ rest) = tree.spreadOnto first ++ rest := by
  cases tree with
  | leaf token =>
    simp only [spreadOnto]
    split <;> simp
  | node phrase extent weight parts =>
    simp only [spreadOnto]
    split
    · exact spreadPartsOnto_append parts first rest
    · simp

theorem spreadPartsOnto_append (parts : List Tree) (first rest : List Tree) :
    spreadPartsOnto parts (first ++ rest) = spreadPartsOnto parts first ++ rest := by
  cases parts with
  | nil => rfl
  | cons part parts =>
    simp only [spreadPartsOnto]
    rw [spreadPartsOnto_append parts first rest, spreadOnto_append part _ rest]

end

theorem spreadPartsOnto_eq (parts : List Tree) (rest : List Tree) :
    spreadPartsOnto parts rest = parts.flatMap spread ++ rest := by
  induction parts with
  | nil => rfl
  | cons part parts ih =>
    simp only [spreadPartsOnto, ih, List.flatMap_cons, List.append_assoc]
    simpa [spread] using spreadOnto_append part [] (parts.flatMap spread ++ rest)

/-- The children of a tree are its parts, spread. -/
theorem children_eq (tree : Tree) : tree.children = tree.parts.flatMap spread := by
  simp [children, spreadPartsOnto_eq]

theorem spread_leaf (token : Token) :
    (leaf token).spread = if token.is .lineEnd then [] else [leaf token] := by
  simp only [spread, spreadOnto]

theorem spread_node (phrase : Phrase) (extent : Extent) (weight : Int) (parts : List Tree) :
    (node phrase extent weight parts).spread =
      if groups phrase then parts.flatMap spread else [node phrase extent weight parts] := by
  simp only [spread, spreadOnto]
  split <;> simp [spreadPartsOnto_eq]

/-- Spreading a part loses no token. -/
theorem flatMap_tokens_spread (tree : Tree) : tree.spread.flatMap tokens = tree.tokens := by
  induction tree using byParts with
  | leaf token =>
    rw [spread_leaf, tokens_leaf]
    split <;> simp_all [tokens_leaf]
  | node phrase extent weight parts ih =>
    rw [spread_node, tokens_node]
    split
    · rw [List.flatMap_assoc]
      exact List.flatMap_congr ih
    · simp

/-- The tokens of a phrase are those of its children. -/
theorem flatMap_tokens_children (phrase : Phrase) (extent : Extent) (weight : Int)
    (parts : List Tree) :
    (node phrase extent weight parts).children.flatMap tokens =
      (node phrase extent weight parts).tokens := by
  rw [children_eq, tokens_node, Tree.parts, List.flatMap_assoc]
  exact List.flatMap_congr fun part _ => flatMap_tokens_spread part

end CodeSplice.Syntax.Tree
