/-
Module: CodeSplice.Syntax.Lexeme
Purpose: The lengths of the lexical elements of TypeScript at the front of a text. Each function
  answers how many characters the element takes; zero means that there is none. The character NUL is
  part of no element.
Main exports: wordLength, numberLength, escapeLength, textLength, templateTextLength,
  regexBodyLength, commentLength
-/
import CodeSplice.Text.Space

namespace CodeSplice.Syntax

open Text

/-! ### Characters -/

/-- White space between tokens: the property `White_Space` without the control character U+0085, and
the byte order mark, the word joiner and the zero width space. -/
def isGap (c : Char) : Bool :=
  (isSpace c && c != '\u0085') || c == '\uFEFF' || c == '\u2060' || c == '\u200B'

/-- The white space of ASCII. -/
def isPlainGap (c : Char) : Bool :=
  c == ' ' || (9 ≤ c.toNat && c.toNat ≤ 13)

/-- The characters that end a line comment. -/
def endsLine (c : Char) : Bool :=
  c == '\n' || c == '\r' || c == '\u2028' || c == '\u2029'

/-- A character of a name: anything but a control character, white space and punctuation. -/
def isWordPart (c : Char) : Bool :=
  decide (0x20 ≤ c.toNat) && !isGap c && !":;`\"'@#.,|^&<=>+-*/\\%?!~()[]\x7b\x7d".toList.contains c

/-- A hexadecimal digit. -/
def isHex (c : Char) : Bool :=
  c.isDigit || ('a' ≤ c && c ≤ 'f') || ('A' ≤ c && c ≤ 'F')

/-! ### Escape sequences -/

/-- The length of a Unicode escape sequence, counted from the `u`. -/
def unicodeEscapeLength : List Char → Nat
  | 'u' :: '\x7b' :: cs =>
    let digits := cs.takeWhile isHex
    if !digits.isEmpty && (cs.drop digits.length).head? == some '\x7d' then digits.length + 3 else 0
  | 'u' :: a :: b :: c :: d :: _ => if [a, b, c, d].all isHex then 5 else 0
  | _ => 0

/-- The length of what stands behind the backslash of an escape sequence. A carriage return or a
question mark takes the line break behind it along. -/
def escapedLength : List Char → Nat
  | [] => 0
  | '\x00' :: _ => 0
  | 'u' :: cs => unicodeEscapeLength ('u' :: cs)
  | 'x' :: a :: b :: _ => if isHex a && isHex b then 3 else 0
  | 'x' :: _ => 0
  | c :: d :: _ =>
    if (c == '\r' || c == '?') && (d == '\n' || d == '\u2028' || d == '\u2029') then 2 else 1
  | [_] => 1

/-- The length of the escape sequence at the front. -/
def escapeLength : List Char → Nat
  | '\\' :: cs => if escapedLength cs == 0 then 0 else escapedLength cs + 1
  | _ => 0

/-! ### Words and numbers -/

/-- The length of the characters of a name at the front, which may hold Unicode escapes. `skip`
characters belong to an escape sequence that has been seen already. -/
def wordPartLength (skip : Nat) : List Char → Nat
  | [] => 0
  | c :: cs =>
    match skip with
    | skip + 1 => wordPartLength skip cs + 1
    | 0 =>
      if c == '\\' then
        match unicodeEscapeLength cs with
        | 0 => 0
        | n => wordPartLength n cs + 1
      else if isWordPart c then wordPartLength 0 cs + 1
      else 0

/-- The length of the name at the front. A name does not begin with a digit. -/
def wordLength (cs : List Char) : Nat :=
  if (cs.head?.map Char.isDigit).getD true then 0 else wordPartLength 0 cs

/-- The length of the name of a private member at the front. -/
def privateNameLength : List Char → Nat
  | '#' :: cs => if wordLength cs == 0 then 0 else wordLength cs + 1
  | _ => 0

/-- The number of characters at the front that are digits, with at most one separator between two
digits. -/
def digitsLength (digit : Char → Bool) : List Char → Nat
  | c :: '_' :: d :: cs =>
    if digit c then (if digit d then digitsLength digit (d :: cs) + 2 else 1) else 0
  | c :: cs => if digit c then digitsLength digit cs + 1 else 0
  | [] => 0

/-- The number of characters at the front that are decimal digits with their separators. -/
def decimalLength (cs : List Char) : Nat :=
  digitsLength Char.isDigit cs

/-- The length of an exponent, zero if there is none. -/
def exponentLength : List Char → Nat
  | e :: sign :: cs =>
    if e == 'e' || e == 'E' then
      if sign == '+' || sign == '-' then
        if decimalLength cs == 0 then 0 else decimalLength cs + 2
      else if decimalLength (sign :: cs) == 0 then 0
      else decimalLength (sign :: cs) + 1
    else 0
  | _ => 0

/-- One for the suffix of a big integer, otherwise zero. -/
def bigSuffix (cs : List Char) : Nat :=
  if cs.head? == some 'n' then 1 else 0

/-- The length of the part of a number behind its integer digits. -/
def fractionLength (cs : List Char) : Nat :=
  match cs with
  | '.' :: rest =>
    let digits := decimalLength rest
    digits + 1 + exponentLength (rest.drop digits)
  | _ =>
    let exponent := exponentLength cs
    if exponent == 0 then bigSuffix cs else exponent

/-- The digits of the base that a letter behind a zero announces. -/
def baseDigit? (letter : Char) : Option (Char → Bool) :=
  if letter == 'x' || letter == 'X' then some isHex
  else if letter == 'o' || letter == 'O' then some fun c => '0' ≤ c && c ≤ '7'
  else if letter == 'b' || letter == 'B' then some fun c => c == '0' || c == '1'
  else none

/-- The length of a decimal number. A number with a fraction or an exponent has at most one zero in
front of its other digits. -/
def decimalNumberLength (cs : List Char) : Nat :=
  let digits := decimalLength cs
  let padded := 1 < digits && "0".toList.isPrefixOf cs &&
    ((cs.drop 1).head?.map fun c => c == '0' || c == '_').getD false
  digits + if padded then bigSuffix (cs.drop digits) else fractionLength (cs.drop digits)

/-- The length of the number at the front, which begins with a digit or with a point and a digit. -/
def numberLength (cs : List Char) : Nat :=
  match cs with
  | '.' :: rest => if decimalLength rest == 0 then 0 else fractionLength cs
  | '0' :: letter :: rest =>
    match baseDigit? letter with
    | some digit =>
      let digits := digitsLength digit rest
      if digits == 0 then 1 else digits + 2 + bigSuffix (rest.drop digits)
    | none => decimalNumberLength cs
  | c :: _ => if c.isDigit then decimalNumberLength cs else 0
  | [] => 0

/-! ### Strings, templates and regular expressions -/

/-- The length of the plain text of a string at the front: up to the quote, an escape sequence or the
end of the line. -/
def textLength (quote : Char) (cs : List Char) : Nat :=
  (cs.takeWhile fun c =>
    c != quote && c != '\\' && c != '\r' && c != '\n' && c != '\x00').length

/-- The length of the plain text of a template at the front: up to its end, a substitution or an escape
sequence. Text that nothing ends is no text of a template. -/
def templateTextLength : List Char → Option Nat
  | [] => none
  | '$' :: '\x7b' :: _ => some 0
  | c :: cs =>
    if c == '\x60' || c == '\\' then some 0
    else if c == '\x00' then none
    else (templateTextLength cs).map (· + 1)

/-- The length of the rest of a class in a regular expression, its closing bracket included. -/
def regexClassLength : List Char → Option Nat
  | [] => none
  | '\\' :: c :: cs =>
    if c == '\n' || c == '\x00' then none else (regexClassLength cs).map (· + 2)
  | c :: cs =>
    if c == ']' then some 1
    else if c == '\n' || c == '\\' || c == '\x00' then none
    else (regexClassLength cs).map (· + 1)

/-- The length of the text of a regular expression: up to a slash outside classes, the end of the line,
or what is malformed. `skip` characters have been seen already. -/
def regexBodyLength (skip : Nat) : List Char → Nat
  | [] => 0
  | c :: cs =>
    match skip with
    | skip + 1 => regexBodyLength skip cs + 1
    | 0 =>
      if c == '/' || c == '\n' || c == '\x00' then 0
      else if c == '\\' then
        if (cs.head?.map fun d => d == '\n' || d == '\x00').getD true then 0
        else regexBodyLength 1 cs + 1
      else if c == '[' then
        match regexClassLength cs with
        | some n => regexBodyLength n cs + 1
        | none => 0
      else regexBodyLength 0 cs + 1

/-- The length of the flags of a regular expression at the front. -/
def flagsLength (cs : List Char) : Nat :=
  (cs.takeWhile fun c => 'a' ≤ c && c ≤ 'z').length

/-! ### Comments -/

/-- The length of the rest of a block comment, its end included. -/
def blockCommentLength : List Char → Option Nat
  | '*' :: '/' :: _ => some 2
  | c :: cs => if c == '\x00' then none else (blockCommentLength cs).map (· + 1)
  | [] => none

/-- The length of the comment at the front. -/
def commentLength : List Char → Nat
  | '/' :: '/' :: cs => (cs.takeWhile fun c => !endsLine c && c != '\x00').length + 2
  | '/' :: '*' :: cs => ((blockCommentLength cs).map (· + 2)).getD 0
  | _ => 0

/-- The length of the interpreter line at the front. -/
def interpreterLength : List Char → Nat
  | '#' :: '!' :: cs => (cs.takeWhile fun c => c != '\n' && c != '\x00').length + 2
  | _ => 0

end CodeSplice.Syntax
