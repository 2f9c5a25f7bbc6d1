/-!
# Hexadecimal digits

Digits of base sixteen. They are written in lower case (`Peg.Text.hexDigit`, `Peg.Text.hex`) and
read in either (`Peg.Text.hexValue?`).
-/

namespace Peg.Text

/-- The last digit of a number. -/
def hexDigit (n : Nat) : Char := Nat.digitChar (n % 16)

/-- The digits of a number, without zeros in front. -/
def hex (n : Nat) : List Char := Nat.toDigits 16 n

/-- The value of a digit. -/
def hexValue? (c : Char) : Option Nat :=
  if c.isDigit then some (c.toNat - '0'.toNat)
  else if 'a' ≤ c ∧ c ≤ 'f' then some (c.toNat - 'a'.toNat + 10)
  else if 'A' ≤ c ∧ c ≤ 'F' then some (c.toNat - 'A'.toNat + 10)
  else none

/-- The value of four digits. -/
def hex4? (a b c d : Char) : Option Nat := do
  return (((← hexValue? a) * 16 + (← hexValue? b)) * 16 + (← hexValue? c)) * 16 + (← hexValue? d)

/-- Whether the character is a digit. -/
def isHexDigit (c : Char) : Bool := (hexValue? c).isSome

end Peg.Text
