import Peg.Decimal.Basic

/-!
# The double nearest to a decimal number

A double of 53 significant bits is found by exact arithmetic: the power of two at which the number
has 53 bits before the point, or the least power there is, and the nearest whole number of that
unit. In the bits of a double a mantissa that is rounded up to the next power of two carries over
into the exponent, so nothing more has to be done about it; and what is carried past the greatest
exponent is infinite.
-/

namespace Peg.Decimal

/-- The exponent of the unit in which the ratio has 53 bits before the point, but not less than the
least exponent of a double. -/
def unit (r : Ratio) : Int :=
  let guess := max (Int.ofNat r.num.log2 - Int.ofNat r.den.log2 - 53) Dyadic.leastExponent
  if (r.scale 2 (-guess)).floor < Nat.pow 2 53 then guess else guess + 1

/-- The bits of infinity. -/
def infinityBits : Nat := 0x7ff * Nat.pow 2 52

/-- The bits of the double nearest to the number, the one with an even mantissa if two are equally
near. Numbers that are out of all reach need no arithmetic. -/
def toBits (d : Decimal) : Nat :=
  let point := d.exponent + (Nat.toDigits 10 d.digits).length
  if d.digits = 0 ∨ point < -330 then 0
  else if 310 < point then infinityBits
  else
    let r := Ratio.scale ⟨d.digits, 1⟩ 10 d.exponent
    let exponent := unit r
    min infinityBits
      ((exponent - Dyadic.leastExponent).toNat * Nat.pow 2 52 + (r.scale 2 (-exponent)).round)

/-- The double nearest to the number. -/
def toFloat (d : Decimal) : Float := Float.ofBits (UInt64.ofNat d.toBits)

end Peg.Decimal
