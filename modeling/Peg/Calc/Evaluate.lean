import Peg.Calc.Token
import Peg.Decimal.Digits
import Peg.Decimal.Layout
import Peg.Decimal.Nearest

/-!
# The value of an arithmetic expression

The value of a list of tokens, by the usual rules: a minus sign before a value binds tightest, then
come multiplication and division, then addition and subtraction, and operators of one level are
taken from left to right. What the operations do is left open, and evaluation uses nothing but
`Peg.Calc.Arithmetic`; the program computes with doubles (`Peg.Calc.Arithmetic.double`).

A list that is no expression has no value, and neither has one that is an expression and more.
-/

namespace Peg.Calc

/-- Values that can be calculated with. -/
structure Arithmetic (α : Type) where
  /-- The sum. -/
  add : α → α → α
  /-- The difference. -/
  sub : α → α → α
  /-- The product. -/
  mul : α → α → α
  /-- The quotient. -/
  div : α → α → α
  /-- The value with the other sign. -/
  neg : α → α
  /-- The value of a number as it is written. -/
  ofText : String → Option α

namespace Arithmetic

/-- Doubles; a number that is written stands for the double nearest to it. -/
def double : Arithmetic Float where
  add := (· + ·)
  sub := (· - ·)
  mul := (· * ·)
  div := (· / ·)
  neg := (- ·)
  ofText text := (Decimal.ofText? text).map Decimal.toFloat

variable {α : Type} (A : Arithmetic α)

/-- What an operator of the lower level does. -/
def sumOperator : Token → Option (α → α → α)
  | .plus => some A.add
  | .minus => some A.sub
  | _ => none

/-- What an operator of the higher level does. -/
def productOperator : Token → Option (α → α → α)
  | .times => some A.mul
  | .divide => some A.div
  | _ => none

/-- A value off the front of a list of tokens, and the tokens after it. -/
abbrev Taken (α : Type) := Option (α × List Token)

/-- Goes on from the value `v` with operators of one level and operands, from left to right, for as
long as an operator follows. Each takes a token, and `bound` is the number of tokens there are. -/
def chain (operator : Token → Option (α → α → α)) (operand : List Token → Taken α) (bound : Nat)
    (v : α) (ts : List Token) : Taken α :=
  match bound, ts with
  | bound + 1, t :: rest =>
    match operator t with
    | some op =>
      match operand rest with
      | some (w, rest) => chain operator operand bound (op v w) rest
      | none => none
    | none => some (v, ts)
  | _, ts => some (v, ts)

/-- One operand, and then operators of one level and more operands. -/
def level (operator : Token → Option (α → α → α)) (operand : List Token → Taken α)
    (ts : List Token) : Taken α :=
  match operand ts with
  | some (v, rest) => chain operator operand rest.length v rest
  | none => none

/-- Operands with operators of both levels between them. -/
def sum (operand : List Token → Taken α) : List Token → Taken α :=
  level A.sumOperator (level A.productOperator operand)

/-- A number, an expression in parentheses, or an operand after a minus sign. Each of them takes a
token, and `bound` is the number of tokens there are. -/
def operand (bound : Nat) (ts : List Token) : Taken α :=
  match bound, ts with
  | bound + 1, .minus :: rest => (operand bound rest).map fun (v, rest) => (A.neg v, rest)
  | bound + 1, .opening :: rest =>
    match A.sum (operand bound) rest with
    | some (v, .closing :: rest) => some (v, rest)
    | _ => none
  | _ + 1, .number text :: rest => (A.ofText text).map (·, rest)
  | _, _ => none

/-- The value of a list of tokens, all of which are used. -/
def evaluate (ts : List Token) : Option α :=
  match A.sum (A.operand ts.length) ts with
  | some (v, []) => some v
  | _ => none

end Arithmetic

/-- How a value is written: never with a power of ten, and whole numbers without a point. -/
def layout : Layout := { positional := fun _ => true, wholeSuffix := "", tie := .up }

end Peg.Calc
