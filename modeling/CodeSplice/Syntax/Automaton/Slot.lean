/-
Module: CodeSplice.Syntax.Automaton.Slot
Purpose: The slots of a grammar. Every occurrence of a symbol in a production is a slot; a slot knows
  which slots of its production can come next, and whether the phrase can end with it. So a phrase is
  read by walking from slot to slot.
Main exports: Arc, Body.first, Body.occurrences, Slot, Production.slots
-/
import CodeSplice.Syntax.Automaton.Alphabet

namespace CodeSplice.Syntax

/-- An arc to a slot. -/
structure Arc where
  /-- The number of the slot. -/
  slot : Nat
  /-- The code of the symbol that fills it. -/
  code : Nat
  /-- Whether the phrase can end with it. -/
  final : Bool
deriving DecidableEq, Repr, Inhabited

namespace Body

/-- The number of symbols in a body. -/
def size : Body → Nat
  | nothing => 0
  | one _ => 1
  | both a b => a.size + b.size
  | either a b => a.size + b.size

/-- Whether a body can be left out. -/
def nullable : Body → Bool
  | nothing => true
  | one _ => false
  | both a b => a.nullable && b.nullable
  | either a b => a.nullable || b.nullable

/-- The arcs that a body can begin with, if its slots are numbered from `start`; `final` says whether
the phrase can end with the body. -/
def first (alphabet : Alphabet) (start : Nat) (final : Bool) : Body → List Arc
  | nothing => []
  | one symbol => [⟨start, alphabet.code symbol, final⟩]
  | both a b =>
    a.first alphabet start (final && b.nullable)
      ++ (if a.nullable then b.first alphabet (start + a.size) final else [])
  | either a b => a.first alphabet start final ++ b.first alphabet (start + a.size) final

/-- For every symbol of a body, the arcs that can come next and whether the phrase can end with it,
given the same for the whole body. -/
def occurrences (alphabet : Alphabet) (start : Nat) (next : List Arc) (final : Bool) :
    Body → List (List Arc × Bool)
  | nothing => []
  | one _ => [(next, final)]
  | both a b =>
    a.occurrences alphabet start
        (b.first alphabet (start + a.size) final ++ (if b.nullable then next else []))
        (final && b.nullable)
      ++ b.occurrences alphabet (start + a.size) next final
  | either a b =>
    a.occurrences alphabet start next final ++ b.occurrences alphabet (start + a.size) next final

/-- Every symbol of a body has its slot. -/
theorem length_occurrences (alphabet : Alphabet) (body : Body) (start : Nat) (next : List Arc)
    (final : Bool) : (body.occurrences alphabet start next final).length = body.size := by
  induction body generalizing start next final with
  | nothing => rfl
  | one symbol => rfl
  | both a b iha ihb => simp [occurrences, size, iha, ihb]
  | either a b iha ihb => simp [occurrences, size, iha, ihb]

end Body

/-- A slot: an occurrence of a symbol in a production. -/
structure Slot where
  /-- The phrase that the production makes. -/
  phrase : Phrase
  precedence : Precedence
  grouping : Grouping
  weight : Int
  /-- The arcs that can come next. -/
  next : List Arc
  /-- Whether the phrase can end here. -/
  final : Bool
deriving Repr, Inhabited

namespace Production

/-- The arcs that a production can begin with. -/
def first (alphabet : Alphabet) (start : Nat) (production : Production) : List Arc :=
  production.body.first alphabet start true

/-- The slots of a production, numbered from `start`. -/
def slots (alphabet : Alphabet) (start : Nat) (production : Production) : List Slot :=
  (production.body.occurrences alphabet start [] true).map fun (next, final) =>
    { phrase := production.phrase
      precedence := production.precedence
      grouping := production.grouping
      weight := production.weight
      next
      final }

end Production

end CodeSplice.Syntax
