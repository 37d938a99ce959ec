/-
Module: CodeSplice.Toml.Scalar
Purpose: The values of TOML that are one word without quotes: booleans, integers, numbers with a point or
  an exponent, dates and times.
Main exports: Toml.scalar?, Toml.integer?, Toml.real?, Toml.moment?
-/
import CodeSplice.Toml.Quoted
import CodeSplice.Toml.Value

namespace CodeSplice.Toml

/-! ### Numbers -/

/-- The digits of a number. An underscore may stand between two digits and nowhere else. -/
def digits? (isDigit : Char → Bool) (cs : List Char) : Option (List Char) :=
  let digits := cs.filter (· != '_')
  let rec spaced : List Char → Bool
    | '_' :: '_' :: _ => false
    | ['_'] => false
    | _ :: cs => spaced cs
    | [] => true
  if cs.head? != some '_' && spaced cs && !digits.isEmpty && digits.all isDigit then some digits
  else none

/-- The value of digits in a base. -/
def valueOf (base : Nat) (digits : List Char) : Nat :=
  digits.foldl (fun n c => n * base + (hexValue? c).getD 0) 0

/-- Digits of a whole number, which begins with a zero only if that is all of it. -/
def whole? (cs : List Char) : Option (List Char) :=
  if cs.head? == some '0' && decide (1 < cs.length) then none else digits? Char.isDigit cs

/-- A sign in front of a number; a number without one is not negative. -/
def signed : List Char → Bool × List Char
  | '-' :: cs => (true, cs)
  | '+' :: cs => (false, cs)
  | cs => (false, cs)

/-- An integer: decimal with an optional sign, or in base sixteen, eight or two. -/
def integer? : List Char → Option Int
  | '0' :: 'x' :: cs => (digits? (hexValue? · |>.isSome) cs).map fun ds => (valueOf 16 ds : Int)
  | '0' :: 'o' :: cs =>
    (digits? (fun c => decide ('0' ≤ c ∧ c ≤ '7')) cs).map fun ds => (valueOf 8 ds : Int)
  | '0' :: 'b' :: cs => (digits? (fun c => c == '0' || c == '1') cs).map fun ds => (valueOf 2 ds : Int)
  | cs =>
    let (negative, cs) := signed cs
    (whole? cs).map fun ds => if negative then -(valueOf 10 ds : Int) else valueOf 10 ds

/-- A number with a point or an exponent, or one of the words for what is no such number. -/
def real? (cs : List Char) : Option Real :=
  let (negative, cs) := signed cs
  if cs == ['i', 'n', 'f'] then some (.infinite negative)
  else if cs == ['n', 'a', 'n'] then some .notANumber
  else
    let isMark (c : Char) : Bool := c == 'e' || c == 'E'
    let mantissa := cs.takeWhile (!isMark ·)
    let exponent : Option Int :=
      match cs.dropWhile (!isMark ·) with
      | [] => some 0
      | _ :: cs =>
        let (negative, cs) := signed cs
        (digits? Char.isDigit cs).map fun ds => if negative then -(valueOf 10 ds : Int) else valueOf 10 ds
    let fraction : Option (List Char) :=
      match mantissa.dropWhile (· != '.') with
      | [] => if mantissa.length < cs.length then some [] else none
      | _ :: cs => digits? Char.isDigit cs
    match whole? (mantissa.takeWhile (· != '.')), fraction, exponent with
    | some front, some back, some exponent =>
      some (.finite ⟨negative, valueOf 10 (front ++ back), exponent - back.length⟩)
    | _, _, _ => none

/-! ### Dates and times -/

/-- Read a number of two digits that lies within bounds. -/
def twoDigits? (low high : Nat) : List Char → Option (Nat × List Char)
  | a :: b :: cs =>
    let n := valueOf 10 [a, b]
    if a.isDigit && b.isDigit && decide (low ≤ n ∧ n ≤ high) then some (n, cs) else none
  | _ => none

/-- Read an expected character. -/
def expect? (c : Char) : List Char → Option (List Char)
  | d :: cs => if c == d then some cs else none
  | [] => none

/-- The number of days of a month. -/
def daysIn (year month : Nat) : Nat :=
  if month == 2 then
    if year % 4 == 0 && (year % 100 != 0 || year % 400 == 0) then 29 else 28
  else if [4, 6, 9, 11].contains month then 30
  else 31

/-- Read a date. -/
def date? (cs : List Char) : Option (List Char) := do
  let (century, cs) ← twoDigits? 0 99 cs
  let (year, cs) ← twoDigits? 0 99 cs
  let cs ← expect? '-' cs
  let (month, cs) ← twoDigits? 1 12 cs
  let cs ← expect? '-' cs
  let (_, cs) ← twoDigits? 1 (daysIn (century * 100 + year) month) cs
  some cs

/-- Read the seconds of a time of day, from behind the colon; they may have a fraction. -/
def seconds? (cs : List Char) : Option (List Char) := do
  let (_, cs) ← twoDigits? 0 60 cs
  match cs with
  | '.' :: cs =>
    if (cs.head?.map Char.isDigit).getD false then some (cs.dropWhile Char.isDigit) else none
  | cs => some cs

/-- Read a time of day. The seconds may be missing. -/
def time? (cs : List Char) : Option (List Char) := do
  let (_, cs) ← twoDigits? 0 23 cs
  let cs ← expect? ':' cs
  let (_, cs) ← twoDigits? 0 59 cs
  match cs with
  | ':' :: cs => seconds? cs
  | cs => some cs

/-- Read the distance from universal time; it may be missing. -/
def zone? : List Char → Option (List Char)
  | 'Z' :: cs => some cs
  | 'z' :: cs => some cs
  | sign :: cs =>
    if sign == '+' || sign == '-' then do
      let (_, cs) ← twoDigits? 0 23 cs
      let cs ← expect? ':' cs
      let (_, cs) ← twoDigits? 0 59 cs
      some cs
    else none
  | [] => some []

/-- Whether a word is a date, a time of day, or both. -/
def moment? (cs : List Char) : Bool :=
  match date? cs with
  | some [] => true
  | some (mark :: cs) =>
    (mark == 'T' || mark == 't' || mark == ' ') && ((time? cs).bind zone?) == some []
  | none => time? cs == some []

/-- The value of a word. -/
def scalar? (word : List Char) : Option Value :=
  if word == "true".toList then some (.boolean true)
  else if word == "false".toList then some (.boolean false)
  else if moment? word then some .moment
  else ((integer? word).map .integer).or ((real? word).map .real)

end CodeSplice.Toml
