/-!
# Decimal numbers and binary ones

A number that is written in decimal, `digits · 10 ^ exponent`, and a number as a double keeps it,
`mantissa · 2 ^ exponent`. Both are exact here; what is lost between the two is decided by
`Peg.Decimal.toFloat`, which takes a decimal number to the nearest double, and by
`Peg.Dyadic.shortest`, which takes a double to the decimal number with the fewest digits that is
nearer to it than to any other.
-/

namespace Peg

/-- The number `digits · 10 ^ exponent`. -/
structure Decimal where
  /-- All digits, read as one number. -/
  digits : Nat
  /-- The power of ten that they are multiplied with. -/
  exponent : Int
deriving DecidableEq, Repr

/-- The number `mantissa · 2 ^ exponent`. -/
structure Dyadic where
  /-- The significant bits, read as one number. -/
  mantissa : Nat
  /-- The power of two that they are multiplied with. -/
  exponent : Int
deriving DecidableEq, Repr

/-- The least exponent of a double. -/
def Dyadic.leastExponent : Int := -1074

/-- A quotient of natural numbers. -/
structure Ratio where
  /-- The numerator. -/
  num : Nat
  /-- The denominator. -/
  den : Nat

namespace Ratio

/-- The ratio multiplied with a power, which may be negative. -/
def scale (r : Ratio) (base : Nat) (exponent : Int) : Ratio :=
  if 0 ≤ exponent then { r with num := r.num * base.pow exponent.toNat }
  else { r with den := r.den * base.pow (-exponent).toNat }

/-- The greatest whole number that is not above the ratio. -/
def floor (r : Ratio) : Nat := r.num / r.den

/-- The whole number nearest to the ratio, the even one of two that are equally near. -/
def round (r : Ratio) : Nat :=
  let below := r.num / r.den
  let twice := 2 * (r.num % r.den)
  if twice > r.den || (twice == r.den && below % 2 == 1) then below + 1 else below

/-- The number of digits before the point of a ratio of 1 or more; for a smaller one that is not
zero, the number of zeros that follow the point, counted negatively. -/
def magnitude (r : Ratio) : Int :=
  let count (n : Nat) : Int := (Nat.toDigits 10 n).length
  if r.den ≤ r.num then count (r.num / r.den)
  else 1 - count ((r.den + r.num - 1) / r.num - 1)

end Ratio

end Peg
