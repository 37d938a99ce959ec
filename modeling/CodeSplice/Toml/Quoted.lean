/-
Module: CodeSplice.Toml.Quoted
Purpose: The quoted texts of TOML. Double quotes allow escapes, single quotes do not; three quotes in a
  row begin and end a text that may run over several lines.
Main exports: Toml.quoted?, Toml.quotedLine?
-/
import CodeSplice.Text.Space

namespace CodeSplice.Toml

open Text

/-- Whether a character may stand in a text or a comment: every character that is not a control
character, and the tab. -/
def isPlain (c : Char) : Bool :=
  c == '\t' || (decide (0x20 ≤ c.toNat) && c.toNat != 0x7F)

/-- The value of a hexadecimal digit. -/
def hexValue? (c : Char) : Option Nat :=
  if c.isDigit then some (c.toNat - 48)
  else if 'a' ≤ c ∧ c ≤ 'f' then some (c.toNat - 87)
  else if 'A' ≤ c ∧ c ≤ 'F' then some (c.toNat - 55)
  else none

/-- The character with the given number, if there is one. -/
def character? (n : Nat) : Option Char :=
  if n.isValidChar then some (Char.ofNat n) else none

/-- Read a character's number of exactly `count` hexadecimal digits. -/
def byNumber? (count : Nat) (cs : List Char) : Option (Char × List Char) :=
  let digits := (cs.take count).mapM hexValue?
  digits.bind fun digits =>
    if digits.length == count then
      (character? (digits.foldl (fun n d => n * 16 + d) 0)).map (·, cs.drop count)
    else none

/-- What a letter behind a backslash stands for. -/
def letter? : Char → Option Char
  | 'b' => some '\x08'
  | 't' => some '\t'
  | 'n' => some '\n'
  | 'f' => some '\x0c'
  | 'r' => some '\x0d'
  | 'e' => some '\x1b'
  | '"' => some '"'
  | '\\' => some '\\'
  | _ => none

/-- Read an escape, from behind its backslash. -/
def escape? : List Char → Option (Char × List Char)
  | 'x' :: cs => byNumber? 2 cs
  | 'u' :: cs => byNumber? 4 cs
  | 'U' :: cs => byNumber? 8 cs
  | c :: cs => (letter? c).map (·, cs)
  | [] => none

/-- Go behind the end of a line and all white space after it, if nothing but blanks stands in front of
it: what a backslash at the end of a line leaves out. -/
def joined? (cs : List Char) : Option (List Char) :=
  let skip := List.dropWhile fun c => isBlank c || c == '\n' || c == '\x0d'
  match cs.dropWhile isBlank with
  | '\n' :: cs => some (skip cs)
  | '\x0d' :: '\n' :: cs => some (skip cs)
  | _ => none

/-- Put characters in front of a text that was read. -/
def after (front : List Char) (read : Option (List Char × List Char)) :
    Option (List Char × List Char) :=
  read.map fun (text, rest) => (front ++ text, rest)

/-- Read a quoted text from behind its opening. `many` tells whether it may run over several lines. Up
to two quotes in front of the three that close such a text belong to it. -/
def content? (quote : Char) (many : Bool) : Nat → List Char → Option (List Char × List Char)
  | 0, _ => none
  | _, [] => none
  | fuel + 1, c :: cs =>
    if c == quote then
      if many then
        let count := 1 + (cs.takeWhile (· == quote)).length
        if count < 3 then after (List.replicate count quote) (content? quote many fuel ((c :: cs).drop count))
        else some (List.replicate (min count 5 - 3) quote, (c :: cs).drop (min count 5))
      else some ([], cs)
    else if c == '\\' && quote == '"' then
      match if many then joined? cs else none with
      | some rest => content? quote many fuel rest
      | none => (escape? cs).bind fun (d, rest) => after [d] (content? quote many fuel rest)
    else if isPlain c || (many && (c == '\n' || (c == '\x0d' && cs.head? == some '\n'))) then
      after [c] (content? quote many fuel cs)
    else none

/-- Read a quoted text. It gives its content and what stands behind it. -/
def quoted? (cs : List Char) : Option (List Char × List Char) :=
  let read (quote : Char) (many : Bool) (cs : List Char) := content? quote many (cs.length + 1) cs
  match cs with
  | '"' :: '"' :: '"' :: '\n' :: cs => read '"' true cs
  | '"' :: '"' :: '"' :: '\x0d' :: '\n' :: cs => read '"' true cs
  | '"' :: '"' :: '"' :: cs => read '"' true cs
  | '\'' :: '\'' :: '\'' :: '\n' :: cs => read '\'' true cs
  | '\'' :: '\'' :: '\'' :: '\x0d' :: '\n' :: cs => read '\'' true cs
  | '\'' :: '\'' :: '\'' :: cs => read '\'' true cs
  | '"' :: cs => read '"' false cs
  | '\'' :: cs => read '\'' false cs
  | _ => none

/-- Read a quoted text on one line. -/
def quotedLine? (cs : List Char) : Option (List Char × List Char) :=
  match cs with
  | '"' :: cs => content? '"' false (cs.length + 1) cs
  | '\'' :: cs => content? '\'' false (cs.length + 1) cs
  | _ => none

end CodeSplice.Toml
