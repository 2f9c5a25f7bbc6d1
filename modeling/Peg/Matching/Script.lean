import Peg.Expr.Basic
import Peg.Matching.Matcher

/-!
# Native rules

A rule need not be an expression: it can be a procedure that looks at the state of the parse and
changes it as it likes. Such a procedure may also ask for something to be matched, an expression or
another rule, and go on with the answer. A `Peg.Script` is the course of such a procedure as data:
it is done, or it asks a `Peg.Goal` and says how it goes on. Since the asking is in the open, the
meaning of a script is a function of the meaning of goals (`Peg.Script.run`), and nothing a native
rule does is hidden from the grammar it belongs to.
-/

namespace Peg

/-- Something that can be asked of a grammar. -/
inductive Goal
  /-- Match an expression. -/
  | expr (e : Expr)
  /-- Match the rule of the given number. -/
  | rule (id : RuleId)
  /-- Match the rule of the given name. -/
  | named (name : String)
deriving DecidableEq, Repr

/-- What a native rule does from some point on. -/
inductive Script
  /-- It is over. -/
  | done (matched : Bool) (s : State)
  /-- It asks for a goal in the state `s` and goes on with the answer. -/
  | ask (goal : Goal) (s : State) (resume : Bool → State → Script)

namespace Script

/-- The course of a script where `attempt` says what becomes of the goals. -/
def run (attempt : Goal → Matcher) : Script → Option Bool × State
  | done matched s => (some matched, s)
  | ask goal s resume =>
    match attempt goal s with
    | (some matched, t) => (resume matched t).run attempt
    | answer => answer

end Script

end Peg
