import Peg.Grammar.Build

/-!
# The grammar of arithmetic expressions

Blanks may stand before the expression and after each token. Every token is captured, so that the
captures of a match are the tokens of the input in order: in the grammar below captures are marked
by angle brackets.

* `program <- ws expr EOI`
* `expr <- term (<[+-]> ws term)*`
* `term <- unary (<[*/]> ws unary)*`
* `unary <- <'-'> ws unary / factor`
* `factor <- (number / <'('> ws expr <')'>) ws`
* `number <- <[0-9]+ ('.' [0-9]+)?>`
* `ws <- ' '*`
-/

namespace Peg.Calc

open Peg.Expr

/-- A captured operator, one of two. -/
def operator (a b : Char) : Expr := capture (alt (char a) (char b))

/-- Expressions of the given rule with operators between them. -/
def operands (name : String) (a b : Char) : Expr :=
  seq (rule name) (star (sequenceOf [operator a b, rule "ws", rule name]))

/-- The rules of arithmetic expressions. -/
def draft : Draft where
  rules := [
    ⟨"program", .tree (sequenceOf [rule "ws", rule "expr", endOfInput])⟩,
    ⟨"expr", .tree (operands "term" '+' '-')⟩,
    ⟨"term", .tree (operands "unary" '*' '/')⟩,
    ⟨"unary", .tree
      (alt (sequenceOf [capture (char '-'), rule "ws", rule "unary"]) (rule "factor"))⟩,
    ⟨"factor", .tree
      (seq
        (alt (rule "number")
          (sequenceOf [capture (char '('), rule "ws", rule "expr", capture (char ')')]))
        (rule "ws"))⟩,
    ⟨"number", .tree
      (capture (seq (plus digit) (opt (seq (char '.') (plus digit)))))⟩,
    ⟨"ws", .tree (star (char ' '))⟩]

/-- The grammar of arithmetic expressions. -/
def grammar : Except Defect Grammar := draft.build

end Peg.Calc
