/-
Module: CodeSplice.Syntax.Tree
Purpose: Syntax trees over tokens. A tree holds every token that was read, comments among them, so
  that extents and comments are found in it and nowhere else.
Main exports: Tree, Tree.extent, Tree.weight, Tree.compare, Tree.children, Tree.tokens
-/
import CodeSplice.Syntax.Phrase
import CodeSplice.Syntax.Token

namespace CodeSplice.Syntax

open Layout

/-- A syntax tree. A phrase knows its extent and the weight of the reading that it stands for. -/
inductive Tree where
  | leaf (token : Token)
  | node (phrase : Phrase) (extent : Extent) (weight : Int) (parts : List Tree)
deriving Repr, Inhabited

namespace Tree

/-- Where a tree stands in the source. -/
def extent : Tree → Extent
  | leaf token => token.extent
  | node _ extent _ _ => extent

/-- The weight of the reading that a tree stands for. -/
def weight : Tree → Int
  | leaf _ => 0
  | node _ _ weight _ => weight

/-- Whether a tree is a comment or another token that may stand anywhere. -/
def floats : Tree → Bool
  | leaf token => token.floats
  | node .. => false

/-- Whether a tree is a token of the given kind. -/
def isKind (tree : Tree) (kind : TokenKind) : Bool :=
  match tree with
  | leaf token => token.is kind
  | node .. => false

/-- Whether a tree is the given keyword or punctuation mark. -/
def isSpelled (tree : Tree) (text : String) : Bool :=
  match tree with
  | leaf token => token.terminal == .spelled text.toList
  | node .. => false

/-- Whether a tree is a phrase of the given kind. -/
def isPhrase (tree : Tree) (phrase : Phrase) : Bool :=
  match tree with
  | leaf _ => false
  | node kind _ _ _ => kind == phrase

/-- The extent of a sequence of trees. -/
def extentOfParts : List Tree → Extent
  | [] => default
  | first :: parts =>
    parts.foldl
      (fun cover part =>
        if cover.stop < part.extent.stop then cover.cover part.extent else cover) first.extent

/-- The phrase with the given parts; its own weight adds to theirs. -/
def ofParts (phrase : Phrase) (weight : Int) (parts : List Tree) : Tree :=
  node phrase (extentOfParts parts) (parts.foldl (fun total part => total + part.weight) weight) parts

mutual

/-- The order of two readings of the same text: a token comes before a phrase, phrases come in their
own order, a phrase of fewer parts comes first, and then the first parts that differ decide. -/
def compare : Tree → Tree → Ordering
  | leaf _, leaf _ => .eq
  | leaf _, node .. => .lt
  | node .., leaf _ => .gt
  | node phrase _ _ parts, node other _ _ others =>
    (Ord.compare phrase.ctorIdx other.ctorIdx).then <|
      (Ord.compare parts.length others.length).then <| compareParts parts others

/-- The order of two sequences of trees. -/
def compareParts : List Tree → List Tree → Ordering
  | part :: parts, other :: others =>
    match compare part other with
    | .eq => compareParts parts others
    | order => order
  | _, _ => .eq

end

/-- Whether the second of two readings is to be preferred: it has the greater weight, or the same
weight and comes earlier in the order of readings. -/
def prefersSecond (first second : Tree) : Bool :=
  if first.weight == second.weight then compare first second == .gt
  else first.weight < second.weight

/-- The number of parts of a phrase. -/
def partCount : Tree → Nat
  | leaf _ => 0
  | node _ _ _ parts => parts.length

/-- Whether two trees look alike from outside: they are of the same kind, stand in the same place and
have equally many parts. -/
def alike (first second : Tree) : Bool :=
  first.extent.span == second.extent.span && first.partCount == second.partCount &&
    match first, second with
    | leaf token, leaf other => token.terminal == other.terminal
    | node phrase _ _ _, node other _ _ _ => phrase == other
    | _, _ => false

/-- The parts of a tree as they were read. -/
def parts : Tree → List Tree
  | leaf _ => []
  | node _ _ _ parts => parts

/-- The phrases that only group others: a reader of a tree sees their parts in their place. -/
def groups (phrase : Phrase) : Bool :=
  [Phrase.statements, .statement, .declaration, .expression, .primary, .decorators, .classElements,
    .fromClause, .importedName, .exportedName, .moreImportSpecifiers].contains phrase

mutual

/-- A tree in front of others; a phrase that only groups is replaced by its parts, and the end of a
statement that has no text is left out. -/
def spreadOnto : Tree → List Tree → List Tree
  | leaf token, rest => if token.is .lineEnd then rest else leaf token :: rest
  | node phrase extent weight parts, rest =>
    if groups phrase then spreadPartsOnto parts rest else node phrase extent weight parts :: rest

/-- A sequence of trees in front of others. -/
def spreadPartsOnto : List Tree → List Tree → List Tree
  | [], rest => rest
  | part :: parts, rest => spreadOnto part (spreadPartsOnto parts rest)

end

/-- The children of a tree, comments among them. -/
def children (tree : Tree) : List Tree :=
  spreadPartsOnto tree.parts []

/-- The children of a tree that are no comments. -/
def codeChildren (tree : Tree) : List Tree :=
  tree.children.filter fun child => !child.floats

mutual

/-- The tokens of a tree in front of others. -/
def tokensOnto : Tree → List Token → List Token
  | leaf token, rest => if token.is .lineEnd then rest else token :: rest
  | node _ _ _ parts, rest => tokensOfPartsOnto parts rest

/-- The tokens of a sequence of trees in front of others. -/
def tokensOfPartsOnto : List Tree → List Token → List Token
  | [], rest => rest
  | part :: parts, rest => tokensOnto part (tokensOfPartsOnto parts rest)

end

/-- The tokens of a tree that have a text, in source order. -/
def tokens (tree : Tree) : List Token :=
  tree.tokensOnto []

/-- The comments of a tree, in source order. -/
def comments (tree : Tree) : List Token :=
  tree.tokens.filter (·.is .comment)

/-- The comments behind the last token of a tree that is no comment. -/
def trailing (tree : Tree) : List Token :=
  (tree.tokens.reverse.takeWhile (·.is .comment)).reverse

/-- The extent of a tree without the comments at its end. -/
def codeExtent (tree : Tree) : Extent :=
  match tree.tokens.reverse.dropWhile (·.is .comment) with
  | last :: _ => tree.extent.cover last.extent
  | [] => tree.extent

/-- The first child that is a phrase of the given kind. -/
def child? (tree : Tree) (phrase : Phrase) : Option Tree :=
  tree.children.find? (·.isPhrase phrase)

/-- The first child that is a name. -/
def name? (tree : Tree) : Option Token :=
  tree.children.findSome? fun
    | leaf token => if token.is .word then some token else none
    | node .. => none

mutual

/-- The phrases of one kind that lie in no other phrase of that kind, in front of others. -/
def outermostOnto (phrase : Phrase) : Tree → List Tree → List Tree
  | leaf _, rest => rest
  | node kind extent weight parts, rest =>
    if kind == phrase then node kind extent weight parts :: rest
    else outermostOfPartsOnto phrase parts rest

/-- The outermost phrases of one kind in a sequence of trees, in front of others. -/
def outermostOfPartsOnto (phrase : Phrase) : List Tree → List Tree → List Tree
  | [], rest => rest
  | part :: parts, rest => outermostOnto phrase part (outermostOfPartsOnto phrase parts rest)

end

/-- The phrases of one kind that lie in no other phrase of that kind. -/
def outermost (phrase : Phrase) (tree : Tree) : List Tree :=
  tree.outermostOnto phrase []

end Tree

end CodeSplice.Syntax
