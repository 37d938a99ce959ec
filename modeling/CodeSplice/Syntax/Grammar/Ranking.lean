/-
Module: CodeSplice.Syntax.Grammar.Ranking
Purpose: How the precedences of two phrases compare. Numbers compare by size; otherwise the first
  order of precedence that mentions both sides decides.
Main exports: Grammar.compare
-/
import CodeSplice.Syntax.Grammar.Basic

namespace CodeSplice.Syntax

/-- One side of a comparison: a precedence, and the phrases that it is the precedence of. -/
structure Standing where
  precedence : Precedence
  phrases : List Phrase
deriving DecidableEq, Repr, Inhabited

/-- Whether an entry of an order speaks of a side. -/
def Rank.concerns (standing : Standing) : Rank → Bool
  | .level named => standing.precedence == .level named
  | .phrase named => standing.phrases.contains named

namespace Grammar

/-- How two sides compare in one order. The side that is mentioned first is the greater; `sawLeft` and
`sawRight` say which sides have been mentioned before. -/
def compareIn (left right : Standing) (sawLeft sawRight : Bool) : List Rank → Ordering
  | [] => .eq
  | rank :: ranks =>
    if rank.concerns left then
      if sawRight then .lt else compareIn left right true sawRight ranks
    else if rank.concerns right then
      if sawLeft then .gt else compareIn left right sawLeft true ranks
    else compareIn left right sawLeft sawRight ranks

/-- How two sides compare in the first order that decides. -/
def compareByOrders (left right : Standing) : List (List Rank) → Ordering
  | [] => .eq
  | order :: orders => (compareIn left right false false order).then (compareByOrders left right orders)

/-- How the precedences of two sides compare. -/
def compare (grammar : Grammar) (left right : Standing) : Ordering :=
  match left.precedence, right.precedence with
  | .number a, .number b =>
    if a == 0 && b == 0 then compareByOrders left right grammar.orders else Ord.compare a b
  | _, _ => compareByOrders left right grammar.orders

end Grammar

end CodeSplice.Syntax
