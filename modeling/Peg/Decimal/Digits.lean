import Peg.Decimal.Basic

/-!
# Decimal numbers as they are written

A number is written with digits and perhaps a point between two of them. Who has no room for all
digits keeps the first ones (`Peg.Decimal.fitting`).
-/

namespace Peg.Decimal

/-- The number with a digit put behind its own. -/
def putDigit (n : Nat) (d : Char) : Nat := 10 * n + (d.toNat - '0'.toNat)

/-- The number that digits denote. -/
def ofDigits (ds : List Char) : Nat := ds.foldl putDigit 0

/-- The number with as many of the digits put behind its own as leave it below the limit, and the
digits that are left. -/
def fitting (limit n : Nat) : List Char → Nat × List Char
  | [] => (n, [])
  | d :: ds => if putDigit n d < limit then fitting limit (putDigit n d) ds else (n, d :: ds)

/-- The number that is written, if it is written with digits and perhaps a point between two. -/
def ofText? (text : String) : Option Decimal :=
  let whole := text.toList.takeWhile Char.isDigit
  match whole, text.toList.drop whole.length with
  | [], _ => none
  | _, [] => some ⟨ofDigits whole, 0⟩
  | _, '.' :: fraction =>
    if !fraction.isEmpty && fraction.all Char.isDigit then
      some ⟨ofDigits (whole ++ fraction), -fraction.length⟩
    else none
  | _, _ => none

end Peg.Decimal
