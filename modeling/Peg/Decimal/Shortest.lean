import Peg.Decimal.Basic

/-!
# The shortest decimal number for a double

The numbers that are nearer to a double than to any other double form an interval around it, whose
ends belong to it if the mantissa is even. Among the decimal numbers in that interval the ones with
the fewest digits are wanted, and of those the nearest to the double.

The decimal numbers with `n` digits and the double's magnitude are a grid. If any of its points lies
in the interval, then so does one of the two next to the double, because both the interval and the
double lie between the same points. So it is enough to try these two on the grids of 1, 2, … digits:
the first grid with a hit wins (`Peg.Dyadic.onGrid`), and with 17 digits there is always one.
-/

namespace Peg

/-- What becomes of a double that lies halfway between two decimal numbers. -/
inductive Tie
  /-- It is rounded up. -/
  | up
  /-- It is rounded to the one whose last digit is even. -/
  | even
deriving DecidableEq, Repr

namespace Decimal

/-- The same number without zeros at the end of its digits; each division by ten uses up one of
`bound`. -/
def trim (bound : Nat) (d : Decimal) : Decimal :=
  match bound with
  | 0 => d
  | bound + 1 =>
    if d.digits % 10 = 0 ∧ d.digits ≠ 0 then
      trim bound { digits := d.digits / 10, exponent := d.exponent + 1 }
    else d

end Decimal

namespace Dyadic

/-- The double itself, in quarters of its unit. -/
def center (x : Dyadic) : Nat := 4 * x.mantissa

/-- The lower end of the interval, in quarters of the unit. The next double below is only half a
unit away if the mantissa is the least of its exponent. -/
def low (x : Dyadic) : Nat :=
  if x.mantissa = Nat.pow 2 52 ∧ x.exponent ≠ leastExponent then x.center - 1 else x.center - 2

/-- The upper end of the interval, in quarters of the unit. -/
def high (x : Dyadic) : Nat := x.center + 2

/-- A quarter of the unit as a multiple of `10 ^ exponent`. -/
def quarter (x : Dyadic) (exponent : Int) : Ratio :=
  (Ratio.scale ⟨1, 1⟩ 2 (x.exponent - 2)).scale 10 (-exponent)

/-- The multiple of `10 ^ exponent` that lies in the interval and is nearest to the double, if there
is one. -/
def onGrid (x : Dyadic) (tie : Tie) (exponent : Int) : Option Decimal :=
  let unit := x.quarter exponent
  let value := x.center * unit.num
  let floor := value / unit.den
  let within (a b : Nat) : Bool := a < b || (a == b && x.mantissa % 2 == 0)
  let below := within (x.low * unit.num) (floor * unit.den)
  let above := within ((floor + 1) * unit.den) (x.high * unit.num)
  let down := value - floor * unit.den
  let up := (floor + 1) * unit.den - value
  let halfway := match tie with
    | .up => true
    | .even => floor % 2 == 1
  if below && above then
    some ⟨if up < down || (up == down && halfway) then floor + 1 else floor, exponent⟩
  else if below then some ⟨floor, exponent⟩
  else if above then some ⟨floor + 1, exponent⟩
  else none

/-- The number of digits before the point of the double, as `Peg.Ratio.magnitude` counts them. -/
def magnitude (x : Dyadic) : Int := (Ratio.scale ⟨x.mantissa, 1⟩ 2 x.exponent).magnitude

/-- The decimal number with the fewest digits that is nearer to the double than to any other, and of
several the nearest. -/
def shortest (x : Dyadic) (tie : Tie) : Decimal :=
  let grids := (List.range 17).map fun n : Nat => x.magnitude - (n + 1 : Nat)
  ((grids.findSome? (x.onGrid tie)).map (Decimal.trim 20)).getD ⟨0, 0⟩

end Dyadic

end Peg
