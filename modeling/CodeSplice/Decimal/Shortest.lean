/-
Module: CodeSplice.Decimal.Shortest
Purpose: Decimal numbers and the numbers of the binary64 format. A decimal stands for the binary number
  nearest to it; that number is written with the fewest digits that still stand for it, and among
  several such decimals with the one nearest to it.
Main exports: Decimal, Binary, Binary.readsBack, Binary.shortest, Decimal.toBinary?
-/

namespace CodeSplice

/-- The number `digits · 10 ^ exponent`, with a sign. -/
structure Decimal where
  negative : Bool := false
  digits : Nat
  exponent : Int
deriving DecidableEq, Repr, Inhabited

/-- The number `mantissa · 2 ^ exponent` of the binary64 format. -/
structure Binary where
  mantissa : Nat
  exponent : Int
  /-- Whether the gap to the next lower number is half the gap to the next higher one. -/
  narrowBelow : Bool
deriving DecidableEq, Repr, Inhabited

/-- The number `n · base ^ exponent`, if the exponent is positive; `n` itself otherwise. -/
def scaled (n base : Nat) (exponent : Int) : Nat :=
  n * Nat.pow base exponent.toNat

namespace Binary

/-- The number with the given bits; the sign is not looked at. -/
def ofBits (bits : UInt64) : Binary :=
  let e := ((bits >>> 52) &&& 0x7FF).toNat
  let f := (bits &&& 0xFFFFFFFFFFFFF).toNat
  if e == 0 then ⟨f, -1074, false⟩ else ⟨Nat.pow 2 52 + f, (e : Int) - 1075, f == 0 && decide (1 < e)⟩

/-- Compare `a · 10 ^ i` with `b · 2 ^ j`. -/
def compareScaled (a : Nat) (i : Int) (b : Nat) (j : Int) : Ordering :=
  compare (scaled (scaled a 10 i) 2 (-j)) (scaled (scaled b 2 j) 10 (-i))

/-- Whether a decimal stands for this number: it lies no further away than the middle between this
number and the next one. The middle itself counts if the mantissa is even. -/
def readsBack (x : Binary) (digits : Nat) (exponent : Int) : Bool :=
  let low := 4 * x.mantissa - (if x.narrowBelow then 1 else 2)
  let high := 4 * x.mantissa + 2
  let even := x.mantissa % 2 == 0
  let below := compareScaled digits exponent low (x.exponent - 2)
  let above := compareScaled digits exponent high (x.exponent - 2)
  (below == .gt || (even && below == .eq)) && (above == .lt || (even && above == .eq))

/-- The number of decimal digits in front of the point, found by trying upwards from `k`; it is not
positive for a number below one. -/
def scaleFrom (x : Binary) (k : Int) : Nat → Int
  | 0 => k
  | fuel + 1 => if compareScaled 1 k x.mantissa x.exponent == .gt then k else x.scaleFrom (k + 1) fuel

/-- The number of decimal digits in front of the point. The binary logarithm gives a first guess that
is at most a few too low. -/
def scale (x : Binary) : Int :=
  x.scaleFrom (((x.mantissa.log2 : Int) + x.exponent) * 301 / 1000 - 2) 8

/-- The decimal with the given exponent that stands for this number, if one does. Of two such decimals
it is the nearer one, and the greater one if both are equally near. -/
def onGrid? (x : Binary) (exponent : Int) : Option Decimal :=
  let below := scaled (scaled x.mantissa 2 x.exponent) 10 (-exponent) /
    scaled (scaled 1 2 (-x.exponent)) 10 exponent
  let middle := compareScaled (2 * below + 1) exponent (2 * x.mantissa) x.exponent
  match x.readsBack below exponent, x.readsBack (below + 1) exponent with
  | true, true => some ⟨false, if middle == .gt then below else below + 1, exponent⟩
  | true, false => some ⟨false, below, exponent⟩
  | false, true => some ⟨false, below + 1, exponent⟩
  | false, false => none

/-- The decimal with the fewest digits that stands for this number. The first grid holds the next
power of ten alone; seventeen digits are always enough. -/
def shortest (x : Binary) : Decimal :=
  if x.mantissa == 0 then ⟨false, 0, 0⟩
  else
    ((List.range 18).findSome? fun (n : Nat) => x.onGrid? (x.scale - n)).getD
      ⟨false, scaled (scaled x.mantissa 5 (-x.exponent)) 2 x.exponent, min x.exponent 0⟩

end Binary

namespace Decimal

/-- The number of digits. -/
def length (d : Decimal) : Nat :=
  (Nat.toDigits 10 d.digits).length

/-- The binary number that a decimal stands for, without its sign, unless the decimal is too great for
the format. Numbers far out of range are told by their length alone. -/
def toBinary? (d : Decimal) : Option Binary :=
  if d.digits == 0 || decide ((d.length : Int) + d.exponent < -400) then some (.ofBits 0)
  else if (400 : Int) < (d.length : Int) + d.exponent then none
  else
    let value := Float.ofScientific d.digits (decide (d.exponent < 0)) d.exponent.natAbs
    if value.isFinite then some (.ofBits value.toBits) else none

/-- The digits with the point at its place. There is always a digit on both sides of the point. -/
def positional (d : Decimal) : String :=
  let digits := Nat.toDigits 10 d.digits
  let zeros (n : Int) : List Char := List.replicate n.toNat '0'
  let whole := digits ++ zeros d.exponent
  let padded := zeros (1 - d.exponent - whole.length) ++ whole
  let places := (-d.exponent).toNat
  let front := padded.take (padded.length - places)
  let back := padded.drop (padded.length - places)
  String.ofList ((if d.negative then ['-'] else []) ++ front ++ '.' ::
    if back.isEmpty then ['0'] else back)

end Decimal

end CodeSplice
