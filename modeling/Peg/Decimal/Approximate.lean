import Peg.Decimal.Nearest

/-!
# A double near a decimal number

Where it need not be the nearest double, a decimal number is brought to a double with one
multiplication or division: its digits are rounded to a double, the power of ten is rounded to a
double, and then the product or quotient is rounded once more. The result may miss the nearest
double in its last bit. Powers of ten below the range of a double are divided by in steps.

If the digits are a double and the power of ten is, nothing is lost before the last rounding, and
the result is the nearest double.
-/

namespace Peg.Decimal

/-- The double nearest to a power of ten, infinite if the power is above `greatestPower`. -/
def powerOfTen (n : Nat) : Float := toFloat ⟨1, n⟩

/-- The greatest power of ten that is a finite double. -/
def greatestPower : Nat := 308

/-- A double multiplied with a power of ten, which is divided by if it is negative. A zero stays as
it is, even where the power is infinite. -/
def shifted (x : Float) (exponent : Int) : Float :=
  if x == 0 then x
  else if 0 ≤ exponent then x * powerOfTen exponent.toNat
  else if -greatestPower ≤ exponent then x / powerOfTen (-exponent).toNat
  else shifted (x / powerOfTen greatestPower) (exponent + greatestPower)
termination_by (-exponent).toNat
decreasing_by simp only [greatestPower] at *; omega

/-- A double near the number, infinite if the number is too great. -/
def approximate (d : Decimal) : Float := shifted (toFloat ⟨d.digits, 0⟩) d.exponent

end Peg.Decimal
