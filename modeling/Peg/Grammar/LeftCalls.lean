import Peg.Grammar.Digraph
import Peg.Grammar.Nullable

/-!
# Calls before anything is read

A rule that calls itself before it has read anything would do so without end. The calls that an
expression may make while still at the offset where it began stand at its left edge
(`Peg.Expr.leftCalls`): those of the first of two things in a row, and of the second too if the
first is nullable. They are the edges of a graph on the rules (`Peg.Grammar.leftEdges`), and a
cycle in it is a left recursion.

What counts as nullable is what counts in `Peg.Expr.nullable`: with `ends` the end of the input
counts as nothing there, and what follows it may then be called at the same offset.
-/

namespace Peg

/-- The rules that the expression may call before it has read anything, from left to right. -/
def Expr.leftCalls (verdicts : List Bool) (e : Expr) (ends : Bool := false) : List RuleId :=
  match e with
  | seq a b =>
    a.leftCalls verdicts ends ++
      if a.nullable verdicts ends then b.leftCalls verdicts ends else []
  | alt a b => a.leftCalls verdicts ends ++ b.leftCalls verdicts ends
  | opt a | star a | plus a | ahead a | notAhead a | capture a => a.leftCalls verdicts ends
  | call r => r.id.toList
  | text _ | char _ | endOfInput | range _ _ | any | empty => []

/-- The rules that the rule may call before it has read anything. The calls of a procedure are not
known. -/
def Body.leftCalls (verdicts : List Bool) (b : Body) (ends : Bool := false) : List RuleId :=
  match b with
  | tree e => e.leftCalls verdicts ends
  | native _ => []

namespace Grammar

/-- The left calls of each rule. -/
def leftEdges (g : Grammar) (ends : Bool := false) : List (List RuleId) :=
  g.rules.map (·.body.leftCalls (g.nullable ends) ends)

/-- A left recursion, if there is one: rules of which each calls the next before it has read
anything, the first one repeated at the end. -/
def leftRecursion? (g : Grammar) : Option (List RuleId) := Digraph.cycle? g.leftEdges

end Grammar

end Peg
