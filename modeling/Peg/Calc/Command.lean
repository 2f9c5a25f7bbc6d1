import Peg.Calc.Evaluate
import Peg.Calc.Grammar
import Peg.Command.Basic

/-!
# The command for arithmetic expressions

Matches an expression and, if it matches, evaluates the tokens that were captured. The tokens of a
match always form an expression, so that a match always has a value.
-/

namespace Peg.Calc

/-- What the command is asked to do. -/
structure Request where
  /-- The expression. -/
  expression : String
  /-- Whether the expression is to be evaluated. -/
  evaluate : Bool := true
  /-- The options of all commands. -/
  options : Options := {}

/-- The summary of a match: its value, if it is asked for. -/
def summary (q : Request) (r : Reader) (o : Outcome) : Except CommandError (Option String) :=
  if o.matched && q.evaluate then
    match Arithmetic.double.evaluate (tokens r o.captures) with
    | some value => .ok (some ("= " ++ layout.float value))
    | none => .error .noExpression
  else .ok none

/-- Matches and evaluates an expression. -/
def command (q : Request) : Command Bool := do
  let parser ← Command.parser q.options grammar
  let p ← Command.orFail .parse (parser.parse q.expression)
  let r := Reader.ofString q.expression
  let summary ← Command.orFail id (summary q r p.outcome)
  Command.finish q.options r p.outcome summary

end Peg.Calc
