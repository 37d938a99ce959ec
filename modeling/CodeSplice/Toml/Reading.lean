/-
Module: CodeSplice.Toml.Reading
Purpose: Reading a TOML text. A text is a sequence of lines: headers, which begin a table, and keys with
  their values, which go into the table begun last. A text that is not well-formed, or that sets a key
  twice, has no value.
Main exports: Toml.Table.ofText?
-/
import CodeSplice.Toml.Cursor
import CodeSplice.Toml.Scalar

namespace CodeSplice.Toml

open Text

/-- Go behind a comment. -/
def skipComment (cursor : Cursor) : Cursor :=
  match cursor.rest with
  | '#' :: _ => cursor.goTo (cursor.rest.dropWhile isPlain)
  | _ => cursor

/-- Go behind the rest of a line on which nothing but a comment is left. -/
def skipLine? (cursor : Cursor) : Option Cursor :=
  let cursor := skipComment cursor.skipBlanks
  if cursor.rest.isEmpty then some cursor else cursor.skipBreak?

/-- Go behind white space, comments and ends of lines. -/
def skipSpace : Nat → Cursor → Cursor
  | 0, cursor => cursor
  | fuel + 1, cursor =>
    let next := skipComment cursor.skipBlanks
    match next.skipBreak? with
    | some next => skipSpace fuel next
    | none => next

/-! ### Keys -/

/-- Whether a character may stand in a key without quotes. -/
def isBare (c : Char) : Bool :=
  c.isAlphanum || c == '_' || c == '-'

/-- Read a key without dots. -/
def simpleKey? (cursor : Cursor) : Option (Key × Cursor) :=
  let read : Option (List Char × List Char) :=
    match quotedLine? cursor.rest with
    | some found => some found
    | none =>
      let name := cursor.rest.takeWhile isBare
      if name.isEmpty then none else some (name, cursor.rest.dropWhile isBare)
  read.map fun (name, rest) =>
    let next := cursor.goTo rest
    (⟨String.ofList name, cursor.spanTo next⟩, next)

/-- How deep values may be nested, and how many parts a key may have. -/
def maxDepth : Nat := 80

/-- Read the parts of a key with dots: those in front of the last dot, the last one, and what follows.
Blanks may stand around the dots. -/
def keyParts? : Nat → Cursor → Option (List Key × Key × Cursor)
  | 0, _ => none
  | fuel + 1, cursor =>
    (simpleKey? cursor.skipBlanks).bind fun (key, next) =>
      let next := next.skipBlanks
      match next.skip? "." with
      | none => some ([], key, next)
      | some next => (keyParts? fuel next).map fun (path, last, next) => (key :: path, last, next)

/-- Read a key with dots that has no more parts than are allowed. -/
def key? (fuel : Nat) (cursor : Cursor) : Option (List Key × Key × Cursor) :=
  (keyParts? fuel cursor).filter fun (path, _, _) => decide (path.length < maxDepth)

/-! ### Values -/

/-- Whether a character may stand in a word without quotes. -/
def isWord (c : Char) : Bool :=
  isBare c || c == '+' || c == '.' || c == ':'

/-- Read a word without quotes. A blank between a date and a time belongs to the word. -/
def word (cs : List Char) : List Char :=
  let first := cs.takeWhile isWord
  match cs.dropWhile isWord with
  | ' ' :: rest =>
    if date? first == some [] && (rest.head?.map Char.isDigit).getD false then
      first ++ ' ' :: rest.takeWhile isWord
    else first
  | _ => first

mutual

/-- Read a value. -/
def value? (fuel depth : Nat) (cursor : Cursor) : Option (Located × Cursor) :=
  match fuel with
  | 0 => none
  | fuel + 1 =>
    let found : Option (Value × Cursor) :=
      match cursor.rest with
      | '[' :: _ =>
        if maxDepth ≤ depth then none
        else
          (items? fuel (depth + 1) (cursor.drop 1)).map fun (items, next) =>
            (.array false items, next)
      | '{' :: _ =>
        if maxDepth ≤ depth then none
        else
          (members? fuel (depth + 1) ⟨.inline, []⟩ (cursor.drop 1)).map fun (table, next) =>
            (.table .inline table.entries, next)
      | '"' :: _ | '\'' :: _ =>
        (quoted? cursor.rest).map fun (text, rest) =>
          (.string (String.ofList text), cursor.goTo rest)
      | cs => (scalar? (word cs)).map fun value => (value, cursor.drop (word cs).length)
    found.map fun (value, next) => ((cursor.spanTo next, value), next)

/-- Read the items of an array, from behind the opening bracket or a comma. -/
def items? (fuel depth : Nat) (cursor : Cursor) : Option (List Located × Cursor) :=
  match fuel with
  | 0 => none
  | fuel + 1 =>
    let cursor := skipSpace fuel cursor
    match cursor.skip? "]" with
    | some next => some ([], next)
    | none =>
      (value? fuel depth cursor).bind fun (item, next) =>
        let next := skipSpace fuel next
        match next.skip? "," with
        | some next => (items? fuel depth next).map fun (items, next) => (item :: items, next)
        | none => (next.skip? "]").map fun next => ([item], next)

/-- Read the entries of a table in braces, from behind the opening brace or a comma. -/
def members? (fuel depth : Nat) (table : Table) (cursor : Cursor) : Option (Table × Cursor) :=
  match fuel with
  | 0 => none
  | fuel + 1 =>
    let cursor := skipSpace fuel cursor
    match cursor.skip? "\x7d" with
    | some next => some (table, next)
    | none => do
      let (path, key, next) ← key? fuel cursor
      let next ← (skipSpace fuel next).skip? "="
      let (value, next) ← value? fuel depth (skipSpace fuel next)
      let table ← table.insert? path key value
      let next := skipSpace fuel next
      match next.skip? "," with
      | some next => members? fuel depth table next
      | none => (next.skip? "\x7d").map fun next => (table, next)

end

/-! ### Lines -/

/-- What has been read: the whole table, and the path of the table begun last. -/
structure Progress where
  root : Table := ⟨.header, []⟩
  current : List Key := []

/-- Read a header, from behind its opening. -/
def header? (fuel : Nat) (start : Cursor) (opening closing : String) :
    Option (List Key × Key × ByteSpan × Cursor) := do
  let next ← start.skip? opening
  let (path, key, next) ← key? fuel next
  let next ← next.skip? closing
  some (path, key, start.spanTo next, next)

/-- Read one line. -/
def line? (fuel : Nat) (progress : Progress) (cursor : Cursor) : Option (Progress × Cursor) :=
  match cursor.rest with
  | '[' :: '[' :: _ => do
    let (path, key, span, next) ← header? fuel cursor "[[" "]]"
    let root ← progress.root.beginItem? path key span
    some (⟨root, path ++ [key]⟩, next)
  | '[' :: _ => do
    let (path, key, span, next) ← header? fuel cursor "[" "]"
    let root ← progress.root.beginTable? path key span
    some (⟨root, path ++ [key]⟩, next)
  | _ => do
    let (path, key, next) ← key? fuel cursor
    let next ← next.skip? "="
    let (value, next) ← value? fuel 0 next.skipBlanks
    let root ← progress.root.within? false (·.insert? path key value) progress.current
    some ({ progress with root }, next)

/-- Read lines to the end of the text. -/
def lines? : Nat → Progress → Cursor → Option Table
  | 0, _, _ => none
  | fuel + 1, progress, cursor =>
    let cursor := skipSpace fuel cursor
    if cursor.rest.isEmpty then some progress.root
    else do
      let (progress, next) ← line? fuel progress cursor
      let next ← skipLine? next
      lines? fuel progress next

/-- The table that a text describes. A byte order mark at the start is left out. -/
def Table.ofText? (text : String) : Option Table :=
  let cs := text.toList
  let start : Cursor := { rest := cs }
  lines? (4 * cs.length + 8) {} (if cs.head? == some '\uFEFF' then start.drop 1 else start)

end CodeSplice.Toml
