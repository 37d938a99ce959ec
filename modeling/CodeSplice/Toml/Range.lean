/-
Module: CodeSplice.Toml.Range
Purpose: Which numbers a TOML text may hold: integers of sixty-four bits, and numbers that are not too
  great for the binary64 format. A table whose first key is the key of moments stands for a moment, which
  the value of this key has to describe.
Main exports: Toml.Value.inRange, Toml.Table.inRange, Toml.momentKey
-/
import CodeSplice.Toml.Scalar

namespace CodeSplice.Toml

/-- The key under which a date or a time is found if it is taken for a table. -/
def momentKey : String := "$__toml_private_datetime"

/-- The least number that is too great for an integer. -/
def integerLimit : Nat := Nat.pow 2 63

/-- Whether an integer has no more than sixty-four bits, its sign among them. -/
def integerInRange (n : Int) : Bool :=
  decide (-(integerLimit : Int) ≤ n ∧ n < integerLimit)

/-- Whether a number with a point or an exponent is not too great. -/
def Real.inRange : Real → Bool
  | .finite value => value.toBinary?.isSome
  | .infinite _ => true
  | .notANumber => true

/-- Whether a value describes a moment. -/
def Value.describesMoment : Value → Bool
  | .string text => moment? text.toList
  | _ => false

mutual

/-- Whether a value holds only numbers that it may hold. -/
def Value.inRange : Value → Bool
  | .integer n => integerInRange n
  | .real x => x.inRange
  | .array _ items => itemsInRange items
  | .table _ entries =>
    match entries with
    | [] => true
    | (key, _, value) :: rest =>
      if key.name == momentKey then value.describesMoment
      else value.inRange && entriesInRange rest
  | .string _ => true
  | .boolean _ => true
  | .moment => true

/-- Whether all items of an array hold only numbers that they may hold. -/
def itemsInRange : List (ByteSpan × Value) → Bool
  | [] => true
  | (_, value) :: rest => value.inRange && itemsInRange rest

/-- Whether all values of a table hold only numbers that they may hold. -/
def entriesInRange : List (Key × ByteSpan × Value) → Bool
  | [] => true
  | (_, _, value) :: rest => value.inRange && entriesInRange rest

end

/-- Whether a whole text holds only numbers that it may hold. -/
def Table.inRange (table : Table) : Bool :=
  entriesInRange table.entries

end CodeSplice.Toml
