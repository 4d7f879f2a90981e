/-!
# Decimal numerals

Numbers are read from digits and written by them.  A numeral that does not fit its range is refused,
never wrapped.

* `Decimal.value`: the number that a list of digits denotes.
* `Decimal.readNat?`, `readBelow?`, `readIndex?`, `readInt64?`: numerals with their ranges.
* `Decimal.Fractional`: a literal with a decimal point, and `Fractional.truncate`, the whole number
  that is left of it in double precision.
-/

namespace Dataflow.Decimal

/-- The number denoted by digits, most significant first. -/
def value (digits : List Char) : Nat :=
  digits.foldl (fun n c => 10 * n + (c.toNat - '0'.toNat)) 0

/-- A non-empty run of digits. -/
def readNat? (text : List Char) : Option Nat :=
  if text ≠ [] ∧ text.all Char.isDigit then some (value text) else none

/-- A numeral for a number below `bound`. -/
def readBelow? (bound : Nat) (text : List Char) : Option Nat :=
  (readNat? text).filter (· < bound)

/-- A 64-bit index; a plus sign and leading zeros are accepted. -/
def readIndex? : List Char → Option Nat
  | '+' :: digits => readBelow? UInt64.size digits
  | digits => readBelow? UInt64.size digits

/-- A signed numeral for a 64-bit integer. -/
def readInt64? : List Char → Option Int64
  | '-' :: digits => (readBelow? (Nat.pow 2 63 + 1) digits).map fun n => Int64.ofInt (-n)
  | digits => (readBelow? (Nat.pow 2 63) digits).map fun n => Int64.ofInt n

/-! ## Literals with a decimal point -/

/-- The literal `±whole.fraction e exponent`. -/
structure Fractional where
  negative : Bool
  whole : List Char
  fraction : List Char
  exponent : Int
deriving DecidableEq

/-- The whole number nearest to `num / den`; a half goes to the even neighbour. -/
def roundHalfEven (num den : Nat) : Nat :=
  let quotient := num / den
  let twice := 2 * (num % den)
  if twice < den then quotient
  else if den < twice then quotient + 1
  else quotient + quotient % 2

/-- The whole part of the double nearest to `num / den`.

A double keeps 53 binary digits, so between `2 ^ e` and `2 ^ (e + 1)` doubles are `2 ^ (e - 52)`
apart.  Numbers under one half round to a double under one, whose whole part is zero. -/
def doubleFloor (num den : Nat) : Nat :=
  if 2 * num < den then 0
  else
    let whole := num / den
    if whole = 0 then roundHalfEven (num * Nat.pow 2 53) den / Nat.pow 2 53
    else
      let e := whole.log2
      if e ≤ 52 then roundHalfEven (num * Nat.pow 2 (52 - e)) den / Nat.pow 2 (52 - e)
      else roundHalfEven num (den * Nat.pow 2 (e - 52)) * Nat.pow 2 (e - 52)

namespace Fractional

/-- Whole part of the magnitude in double precision, cut at `10 ^ 20`, which is past every 64-bit
integer.

The position of the first significant digit bounds the magnitude, so an enormous exponent is never
multiplied out. -/
def magnitude (x : Fractional) : Nat :=
  let digits := (x.whole ++ x.fraction).dropWhile (· == '0')
  let scale := x.exponent - x.fraction.length
  let position := scale + digits.length
  if digits = [] then 0
  else if 20 < position then Nat.pow 10 20
  else if position < 0 then 0
  else if 0 ≤ scale then doubleFloor (value digits * Nat.pow 10 scale.toNat) 1
  else doubleFloor (value digits) (Nat.pow 10 (-scale).toNat)

/-- The literal as a 64-bit integer: nearest double, cut toward zero, clamped to the range. -/
def truncate (x : Fractional) : Int64 :=
  if x.negative then Int64.ofInt (-(min x.magnitude (Nat.pow 2 63) : Nat))
  else Int64.ofInt (min x.magnitude (Nat.pow 2 63 - 1) : Nat)

end Fractional

end Dataflow.Decimal
