/-
Module: CodeSplice.Syntax.Grammar.Basic
Purpose: Grammars. A production gives the parts of a phrase as a regular expression over symbols,
  together with its precedence, which tells readings apart where a text has several.
Main exports: Symbol, Body, Production, Rank, Grammar
-/
import CodeSplice.Syntax.Phrase
import CodeSplice.Syntax.Token

namespace CodeSplice.Syntax

/-- What a production is made of: terminals, and phrases that have productions of their own. -/
inductive Symbol where
  | terminal (terminal : Terminal)
  | phrase (phrase : Phrase)
deriving DecidableEq, Repr, Inhabited

/-- The parts of a phrase. Repetition has phrases of its own, so a body describes finitely many
sequences of symbols. -/
inductive Body where
  | nothing
  | one (symbol : Symbol)
  | both (first second : Body)
  | either (first second : Body)
deriving DecidableEq, Repr, Inhabited

namespace Body

instance : Coe String Body := ⟨fun text => .one (.terminal (.spelled text.toList))⟩
instance : Coe TokenKind Body := ⟨fun kind => .one (.terminal (.kind kind))⟩
instance : Coe Phrase Body := ⟨fun phrase => .one (.phrase phrase)⟩

/-- The given parts one after another. -/
def all : List Body → Body
  | [] => nothing
  | [part] => part
  | part :: parts => both part (all parts)

/-- One of the given parts. -/
def any : List Body → Body
  | [] => nothing
  | [part] => part
  | part :: parts => either part (any parts)

/-- A part that can be left out. -/
def opt (part : Body) : Body :=
  either part nothing

end Body

/-- The named levels of precedence. -/
inductive Level where
  | member
  | templateCall
  | call
  | unaryVoid
  | power
  | times
  | plus
  | shift
  | relation
  | equality
  | bitAnd
  | bitXor
  | bitOr
  | logicalAnd
  | logicalOr
  | ternary
  | assign
  | construct
  | declare
  | literal
  | object
  | instantiation
  | unary
  | binary
  | extending
deriving DecidableEq, Repr, Inhabited

/-- The precedence of a production: a number, which is zero unless the production says otherwise, or
a named level. -/
inductive Precedence where
  | number (value : Int)
  | level (level : Level)
deriving DecidableEq, Repr

instance : Inhabited Precedence := ⟨.number 0⟩

instance : Coe Level Precedence := ⟨.level⟩

/-- How a phrase groups with others of the same precedence. -/
inductive Grouping where
  | none
  | left
  | right
deriving DecidableEq, Repr, Inhabited

/-- One way to make a phrase. -/
structure Production where
  phrase : Phrase
  body : Body
  precedence : Precedence := .number 0
  grouping : Grouping := .none
  /-- What the phrase adds to the weight of the reading that it is part of. -/
  weight : Int := 0
deriving DecidableEq, Repr, Inhabited

namespace Production

/-- A production without a precedence. -/
def plain (phrase : Phrase) (body : Body) : Production :=
  { phrase, body }

/-- A production of the given precedence. -/
def ranked (phrase : Phrase) (precedence : Precedence) (body : Body) : Production :=
  { phrase, body, precedence }

/-- A production that groups to the left. -/
def left (phrase : Phrase) (precedence : Precedence) (body : Body) : Production :=
  { phrase, body, precedence, grouping := .left }

/-- A production that groups to the right. -/
def right (phrase : Phrase) (precedence : Precedence) (body : Body) : Production :=
  { phrase, body, precedence, grouping := .right }

/-- A production that makes a reading less likely. -/
def unlikely (phrase : Phrase) (body : Body) : Production :=
  { phrase, body, weight := -1 }

/-- The productions of a phrase that repeats a part. -/
def repeated (phrase : Phrase) (part : Body) : List Production :=
  [plain phrase part, plain phrase (.both phrase part)]

/-- The productions of a phrase that is one of several others. -/
def choices (phrase : Phrase) (parts : List Body) : List Production :=
  parts.map (plain phrase)

end Production

/-- An entry in an order of precedence: a named level or a phrase. -/
inductive Rank where
  | level (level : Level)
  | phrase (phrase : Phrase)
deriving DecidableEq, Repr, Inhabited

instance : Coe Level Rank := ⟨.level⟩
instance : Coe Phrase Rank := ⟨.phrase⟩

/-- A grammar: its productions, the phrase that makes up a whole text, and the orders that compare
precedences, each from the highest to the lowest. -/
structure Grammar where
  productions : List Production
  goal : Phrase
  orders : List (List Rank)
deriving Repr, Inhabited

end CodeSplice.Syntax
