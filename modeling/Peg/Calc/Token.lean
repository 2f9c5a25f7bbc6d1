import Peg.Reader

/-!
# Tokens of arithmetic expressions

The words that an arithmetic expression is made of: four operators, two parentheses, and numbers,
which are kept as they are written. Taking the text of a token (`Peg.Calc.Token.text`) and the
token of a text (`Peg.Calc.Token.ofText`) are inverse to each other as long as the text of a
number is none of the other tokens.
-/

namespace Peg.Calc

/-- A word of an arithmetic expression. -/
inductive Token
  /-- `+`. -/
  | plus
  /-- `-`, which also stands before a single value. -/
  | minus
  /-- `*`. -/
  | times
  /-- `/`. -/
  | divide
  /-- `(`. -/
  | opening
  /-- `)`. -/
  | closing
  /-- A number as it is written. -/
  | number (text : String)
deriving DecidableEq, Repr

namespace Token

/-- The token as it is written. -/
def text : Token → String
  | plus => "+"
  | minus => "-"
  | times => "*"
  | divide => "/"
  | opening => "("
  | closing => ")"
  | number s => s

/-- The token that is written like this. -/
def ofText : String → Token
  | "+" => plus
  | "-" => minus
  | "*" => times
  | "/" => divide
  | "(" => opening
  | ")" => closing
  | s => number s

theorem text_ofText (s : String) : (ofText s).text = s := by
  unfold ofText
  split <;> rfl

end Token

/-- The tokens that were captured, in order. -/
def tokens (r : Reader) (captures : List Capture) : List Token :=
  (captures.filterMap r.captured).map Token.ofText

end Peg.Calc
