/-
Module: CodeSplice.Syntax.Automaton.Alphabet
Purpose: The symbols of a grammar as numbers, and sets of symbols as the binary digits of a number.
  Terminals come first: the kinds of tokens, then the spellings in the order in which the grammar
  mentions them. Phrases follow in their own order.
Main exports: Alphabet, SymbolSet, Alphabet.code, Alphabet.ofGrammar
-/
import CodeSplice.Syntax.Grammar.Basic

namespace CodeSplice.Syntax

/-- A set of symbols: the symbol of code `n` is in it if the binary digit `n` is one. -/
abbrev SymbolSet := Nat

namespace SymbolSet

/-- The set of one symbol, given its code. -/
def one (code : Nat) : SymbolSet := 1 <<< code

/-- The symbols of two sets together. -/
def union (first second : SymbolSet) : SymbolSet := first ||| second

/-- The symbols that two sets have in common. -/
def inter (first second : SymbolSet) : SymbolSet := first &&& second

/-- Whether a set holds the symbol of the given code. -/
def holds (set : SymbolSet) (code : Nat) : Bool := set.testBit code

/-- The symbols of several sets together. -/
def unions {α : Type} (f : α → SymbolSet) (list : List α) : SymbolSet :=
  list.foldl (fun set a => set.union (f a)) 0

end SymbolSet

/-- The number of kinds of tokens. -/
def TokenKind.count : Nat := TokenKind.endOfText.ctorIdx + 1

/-- A spelling as a number. Different spellings have different numbers, and numbers compare quickly. -/
def spellingKey (text : List Char) : Nat :=
  text.foldl (fun key c => key <<< 21 + c.toNat) 1

/-- The codes of spellings, as a search tree over their keys. -/
inductive Index where
  | none
  | entry (key code : Nat) (smaller larger : Index)
deriving Repr, Inhabited

namespace Index

/-- The code of a key. -/
def find? (key : Nat) : Index → Option Nat
  | none => .none
  | entry other code smaller larger =>
    bif Nat.blt key other then smaller.find? key
    else bif Nat.blt other key then larger.find? key
    else some code

/-- Add a code for a key that has none. -/
def insert (key code : Nat) : Index → Index
  | none => entry key code none none
  | entry other known smaller larger =>
    bif Nat.blt key other then entry other known (smaller.insert key code) larger
    else bif Nat.blt other key then entry other known smaller (larger.insert key code)
    else entry other known smaller larger

end Index

/-- The symbols of a grammar. -/
structure Alphabet where
  /-- The codes of the spellings that the grammar mentions. -/
  index : Index
  /-- The number of terminals. A spelling that the grammar does not mention has this code. -/
  size : Nat
  /-- The spellings that are punctuation, with their codes. -/
  marks : List (List Char × Nat)
  /-- The terminals that a word can be read as. -/
  words : SymbolSet
deriving Repr, Inhabited

namespace Body

/-- The spellings in a body. -/
def spellings : Body → List (List Char)
  | nothing => []
  | one (.terminal (.spelled text)) => [text]
  | one _ => []
  | both first second => first.spellings ++ second.spellings
  | either first second => first.spellings ++ second.spellings

end Body

namespace Alphabet

/-- Whether a spelling is a word. -/
def isWord (text : List Char) : Bool :=
  (text.head?.map Char.isAlpha).getD false

/-- The spellings that are not in the index, each once, with codes from `code` on in the order in which
they come first. -/
def number (index : Index) (code : Nat) : List (List Char) → List (List Char × Nat)
  | [] => []
  | text :: texts =>
    match index.find? (spellingKey text) with
    | some _ => number index code texts
    | none => (text, code) :: number (index.insert (spellingKey text) code) (code + 1) texts

/-- The alphabet of a grammar. -/
def ofGrammar (grammar : Grammar) : Alphabet :=
  let coded := number .none TokenKind.count (grammar.productions.flatMap (·.body.spellings))
  { index := coded.foldl (fun index (text, code) => index.insert (spellingKey text) code) .none
    size := TokenKind.count + coded.length
    marks := coded.filter fun entry => !isWord entry.1
    words := SymbolSet.unions (fun entry => .one entry.2)
      (([], TokenKind.word.ctorIdx) :: coded.filter fun entry => isWord entry.1) }

variable (alphabet : Alphabet)

/-- The code of a terminal. -/
def terminalCode : Terminal → Nat
  | .kind kind => kind.ctorIdx
  | .spelled text => (alphabet.index.find? (spellingKey text)).getD alphabet.size

/-- The code of a phrase. -/
def phraseCode (phrase : Phrase) : Nat :=
  alphabet.size + 1 + phrase.ctorIdx

/-- The code of a symbol. -/
def code : Symbol → Nat
  | .terminal terminal => alphabet.terminalCode terminal
  | .phrase phrase => alphabet.phraseCode phrase

/-- The number of the phrase of a code, unless it is the code of a terminal. -/
def phraseOf? (code : Nat) : Option Nat :=
  if alphabet.size < code then some (code - alphabet.size - 1) else none

/-- All terminals. -/
def terminals : SymbolSet :=
  1 <<< alphabet.size - 1

end Alphabet

end CodeSplice.Syntax
