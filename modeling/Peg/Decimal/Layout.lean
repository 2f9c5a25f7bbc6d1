import Peg.Decimal.Shortest

/-!
# Doubles as text

How the digits of a double are laid out is a matter of the format: up to which size the point is put
among the digits rather than a power of ten behind them, how that power is written, whether a whole
number gets a point, and which of two equally near numbers is meant. `Peg.Layout` holds these
decisions. The digits themselves are those of `Peg.Dyadic.shortest`.
-/

namespace Peg

/-- What a double is. -/
inductive FloatKind
  /-- Not a number. -/
  | nan
  /-- Greater, or if negative less, than all numbers. -/
  | infinite (negative : Bool)
  /-- A number, and its sign, which zero has too. -/
  | finite (negative : Bool) (magnitude : Dyadic)
deriving DecidableEq, Repr

/-- What the bits of a double stand for: a bit for the sign, eleven for the exponent and 52 for the
mantissa, whose leading bit is left out unless the exponent is the least. -/
def FloatKind.ofBits (bits : Nat) : FloatKind :=
  let negative := bits / Nat.pow 2 63 % 2 == 1
  let exponent := bits / Nat.pow 2 52 % 0x800
  let mantissa := bits % Nat.pow 2 52
  if exponent = 0x7ff then
    if mantissa = 0 then infinite negative else nan
  else if exponent = 0 then finite negative ⟨mantissa, Dyadic.leastExponent⟩
  else finite negative ⟨mantissa + Nat.pow 2 52, Dyadic.leastExponent + (exponent - 1 : Nat)⟩

/-- How doubles are laid out. -/
structure Layout where
  /-- Whether a number with this many digits before the point, or with so many zeros behind it if
  negative, is written without a power of ten. -/
  positional : Int → Bool
  /-- The sign of a power of ten that is not negative. -/
  plus : String := ""
  /-- What follows the last digit of a whole number. -/
  wholeSuffix : String
  /-- Which of two equally near numbers is meant. -/
  tie : Tie

namespace Layout

/-- Zeros. -/
def zeros (n : Nat) : List Char := List.replicate n '0'

/-- The digits of a number and how many of them stand before the point, written out. -/
def digits (l : Layout) (ds : List Char) (point : Int) : List Char :=
  if l.positional point then
    if ds.length ≤ point then ds ++ zeros (point - ds.length).toNat ++ l.wholeSuffix.toList
    else if 0 < point then ds.take point.toNat ++ '.' :: ds.drop point.toNat
    else '0' :: '.' :: (zeros (-point).toNat ++ ds)
  else
    let fraction := if ds.length = 1 then [] else '.' :: ds.drop 1
    let plus := if point < 1 then "" else l.plus
    ds.take 1 ++ fraction ++ 'e' :: (plus ++ toString (point - 1)).toList

/-- A number that is not negative. -/
def magnitude (l : Layout) (x : Dyadic) : List Char :=
  if x.mantissa = 0 then '0' :: l.wholeSuffix.toList
  else
    let d := x.shortest l.tie
    let ds := Nat.toDigits 10 d.digits
    l.digits ds (d.exponent + ds.length)

/-- A sign if there is one. -/
def sign (negative : Bool) : List Char := if negative then ['-'] else []

/-- What a double is, as text. -/
def text (l : Layout) : FloatKind → String
  | .nan => "NaN"
  | .infinite negative => String.ofList (sign negative ++ ['i', 'n', 'f'])
  | .finite negative x => String.ofList (sign negative ++ l.magnitude x)

/-- A double as text. -/
def float (l : Layout) (x : Float) : String := l.text (.ofBits x.toBits.toNat)

end Layout

end Peg
