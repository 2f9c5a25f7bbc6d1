import Peg.Decimal.Approximate
import Peg.Decimal.Digits
import Peg.Decimal.Layout
import Peg.Json.Decoder

/-!
# Numbers in a JSON text

A number is read as it is written (`Peg.Json.Numeral`), and that is enough for who only wants to get
past it. Who wants its value gets an integer of 64 bits if the number is written as one, and
otherwise a double (`Peg.Json.Number`). The double need not be the nearest: of the digits only those
are used that fit in 64 bits, and `Peg.Decimal.approximate` does the rest.
-/

namespace Peg.Json

/-! ### As it is written -/

/-- The part of a number that begins with an `e`. -/
structure Power where
  /-- Whether there is a minus sign. -/
  negative : Bool
  /-- The digits, of which there is at least one. -/
  digits : List Char
deriving DecidableEq, Repr

/-- A number as it is written. -/
structure Numeral where
  /-- Whether there is a minus sign. -/
  negative : Bool
  /-- The digits before the point, of which there is at least one. -/
  whole : List Char
  /-- The digits behind the point; there are none if there is no point. -/
  fraction : List Char
  /-- The power of ten, if there is one. -/
  power : Option Power
deriving DecidableEq, Repr

namespace Decoder

/-- Whether a number begins with the character. -/
def beginsNumeral (c : Char) : Bool := c = '-' || c.isDigit

/-- One digit or more. If the text ends instead, that is the fault `atEnd`. -/
def digits (atEnd : Fault) : Decoder (List Char) := do
  let ds := (← get).takeWhile Char.isDigit
  if ds.isEmpty then refuse (if (← get).isEmpty then atEnd else .number)
  modify (List.drop ds.length)
  return ds

/-- The digits before the point: a zero, or any that do not begin with one. -/
def wholeDigits (atEnd : Fault) : Decoder (List Char) := do
  match ← accept? ['0'] with
  | none => digits atEnd
  | some zero => if (← peek).any Char.isDigit then refuse .number else return [zero]

/-- A number. If the text ends where a digit is missing, that is the fault `atEnd`. -/
def numeral (atEnd : Fault) : Decoder Numeral := do
  let negative := (← accept? ['-']).isSome
  let whole ← wholeDigits atEnd
  let fraction ← if (← accept? ['.']).isSome then digits atEnd else pure []
  if (← accept? ['e', 'E']).isNone then return { negative, whole, fraction, power := none }
  let sign ← accept? ['+', '-']
  return { negative, whole, fraction, power := some ⟨sign == some '-', ← digits atEnd⟩ }

end Decoder

/-! ### Its value -/

/-- The value of a number. -/
inductive Number
  /-- An integer. -/
  | integer (i : Int)
  /-- A double. -/
  | double (x : Float)

/-- How a double is written in a message: without a power of ten if the point is near the digits,
and never without a point. -/
def Number.layout : Layout :=
  { positional := fun point => -5 < point && point ≤ 16
    plus := "+"
    wholeSuffix := ".0"
    tie := .even }

/-- What a message calls the value. -/
def Number.describe : Number → String
  | integer i => "integer `" ++ toString i ++ "`"
  | double x => "floating point `" ++ layout.float x ++ "`"

namespace Power

/-- The power, or as many of its first digits as fit in 31 bits. -/
def exponent (p : Power) : Int :=
  let e := (Decimal.fitting (Nat.pow 2 31) 0 p.digits).1
  if p.negative then -e else e

/-- The digits behind the one that does not fit any more. -/
def unread (p : Power) : List Char := (Decimal.fitting (Nat.pow 2 31) 0 p.digits).2.tail

end Power

namespace Numeral

/-- The number without its sign. Of the digits before the point and of those behind it, the first
ones are used as long as all that are used fit in 64 bits; the others count as zeros. -/
def magnitude (n : Numeral) : Decimal :=
  let (digits, zeros) := Decimal.fitting (Nat.pow 2 64) 0 n.whole
  let (digits, unused) := Decimal.fitting (Nat.pow 2 64) digits n.fraction
  let power := (n.power.map Power.exponent).getD 0
  ⟨digits, zeros.length - (n.fraction.length - unused.length : Nat) + power⟩

/-- The integer that is written, if it has 64 bits; zero with a minus sign is none. -/
def integer? (n : Numeral) : Option Int :=
  match n.power, n.fraction, Decimal.fitting (Nat.pow 2 64) 0 n.whole with
  | none, [], (m, []) =>
    if !n.negative then some m
    else if 0 < m ∧ m ≤ Nat.pow 2 63 then some (-m)
    else none
  | _, _, _ => none

/-- The value of the number, unless it is too great for a double. -/
def value? (n : Numeral) : Option Number :=
  match n.integer? with
  | some i => some (.integer i)
  | none =>
    let x := n.magnitude.approximate
    if x.isInf then none else some (.double (if n.negative then -x else x))

end Numeral

/-- The value of a number. That it is too great is noticed at its end; but if its power does not fit
in 31 bits, then at the digit that is too much, and the digits behind that one are not read. -/
def Decoder.number : Decoder Number := do
  let n ← numeral .endInValue
  match n.value? with
  | some v => return v
  | none =>
    modify ((n.power.map Power.unread).getD [] ++ ·)
    fail .outOfRange

end Peg.Json
