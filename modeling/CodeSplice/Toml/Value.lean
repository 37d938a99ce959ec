/-
Module: CodeSplice.Toml.Value
Purpose: The values of a TOML text, with the place in the text that each value and each key comes from.
  The entries of a table are kept in the order of their keys. Tables remember how they came about,
  because that decides how they may be extended.
Main exports: Toml.Value, Toml.Key, Toml.Table, Toml.Table.within?, Toml.Table.insert?
-/
import CodeSplice.Decimal.Shortest
import CodeSplice.Fault

namespace CodeSplice.Toml

/-- A key and where it stands. -/
structure Key where
  name : String
  span : ByteSpan
deriving DecidableEq, Repr, Inhabited

/-- How a table came about. -/
inductive Origin where
  /-- By a header of its own, or as the whole text. -/
  | header
  /-- By the header of a table within it. -/
  | implied
  /-- By a key with dots. -/
  | dotted
  /-- As a value in braces, which is complete. -/
  | inline
deriving DecidableEq, Repr, Inhabited

/-- A number with a point or an exponent. -/
inductive Real where
  | finite (value : Decimal)
  | infinite (negative : Bool)
  | notANumber
deriving DecidableEq, Repr, Inhabited

/-- A value. -/
inductive Value where
  | string (text : String)
  | integer (value : Int)
  | real (value : Real)
  | boolean (value : Bool)
  /-- A date, a time of day, or both. -/
  | moment
  /-- `ofTables` tells an array that is made by headers from one in brackets. -/
  | array (ofTables : Bool) (items : List (ByteSpan × Value))
  | table (origin : Origin) (entries : List (Key × ByteSpan × Value))
deriving Repr, Inhabited

/-- A value and where it stands. -/
abbrev Located := ByteSpan × Value

/-- A table. -/
structure Table where
  origin : Origin
  entries : List (Key × Located) := []
deriving Repr, Inhabited

namespace Table

/-- The table as a value. -/
def toValue (table : Table) : Value :=
  .table table.origin table.entries

/-- The value of a key. -/
def find? (table : Table) (key : Key) : Option (Key × Located) :=
  table.entries.find? (·.1.name == key.name)

/-- Put an entry among others, in the order of the keys; an entry of the same name is replaced. -/
def putEntry (entry : Key × Located) : List (Key × Located) → List (Key × Located)
  | [] => [entry]
  | other :: rest =>
    if entry.1.name < other.1.name then entry :: other :: rest
    else if entry.1.name == other.1.name then entry :: rest
    else other :: putEntry entry rest

/-- Set the value of a key. -/
def put (table : Table) (key : Key) (value : Located) : Table :=
  { table with entries := putEntry (key, value) table.entries }

/-- Change the last element of a list. -/
def changeLast? {α : Type} (f : α → Option α) : List α → Option (List α)
  | [] => none
  | [a] => (f a).map ([·])
  | a :: as => (changeLast? f as).map (a :: ·)

/-- Change the table that a value is, or the last table of an array that headers make. A table in
braces cannot be changed, and a key with dots cannot reach into a table that has a header. -/
def change? (dotted : Bool) (f : Table → Option Table) : Value → Option Value
  | .table origin entries =>
    if origin == .inline || (dotted && origin == .header) then none
    else (f ⟨origin, entries⟩).map toValue
  | .array true items =>
    (changeLast? (fun (item : Located) =>
      match item.2 with
      | .table origin entries => (f ⟨origin, entries⟩).map fun t => (item.1, t.toValue)
      | _ => none) items).map (.array true)
  | _ => none

/-- Change the table at the end of a path. Tables that are missing on the way come about. -/
def within? (dotted : Bool) (f : Table → Option Table) : List Key → Table → Option Table
  | [], table => f table
  | key :: path, table =>
    match table.find? key with
    | some (found, span, value) =>
      (change? dotted (within? dotted f path) value).map fun v => table.put found (span, v)
    | none =>
      (within? dotted f path ⟨if dotted then .dotted else .implied, []⟩).map fun t =>
        table.put key (key.span, t.toValue)

/-- Set the value of a key with dots, `path` being the part before the last dot. No key is set twice,
and a table is extended only in the way in which it came about. -/
def insert? (path : List Key) (key : Key) (value : Located) (table : Table) : Option Table :=
  within? true
    (fun inner =>
      if (inner.origin == .dotted) != path.isEmpty && (inner.find? key).isNone then
        some (inner.put key value)
      else none)
    path table

/-- Begin the table of a header. It may have come about by the header of a table within it, but not
otherwise. -/
def beginTable? (path : List Key) (key : Key) (span : ByteSpan) (table : Table) : Option Table :=
  within? false
    (fun inner =>
      match inner.find? key with
      | none => some (inner.put key (span, .table .header []))
      | some (_, _, .table .implied entries) => some (inner.put key (span, .table .header entries))
      | some _ => none)
    path table

/-- Begin the next table of an array that headers make. -/
def beginItem? (path : List Key) (key : Key) (span : ByteSpan) (table : Table) : Option Table :=
  within? false
    (fun inner =>
      match inner.find? key with
      | none => some (inner.put key (span, .array true [(span, .table .header [])]))
      | some (found, whole, .array true items) =>
        some (inner.put found (whole, .array true (items ++ [(span, .table .header [])])))
      | some _ => none)
    path table

end Table

end CodeSplice.Toml
