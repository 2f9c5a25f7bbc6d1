import Peg.Expr.Printer
import Peg.Matching.Script

/-!
# Grammars

A grammar is a list of named rules and the rule that a parse starts from. A rule is an expression or
a native procedure. Rules are known by their number, which is their place in the list, and looked up
by name; a grammar that has passed the checks of `Peg.Draft.build` has each name once, so that the
two ways of naming a rule come to the same.
-/

namespace Peg

/-- What a rule does. -/
inductive Body
  /-- It matches an expression. -/
  | tree (e : Expr)
  /-- It is a procedure. -/
  | native (start : State → Script)

/-- A named rule. -/
structure Definition where
  /-- The name. -/
  name : String
  /-- What the rule does. -/
  body : Body

/-- A list of rules, one of which is the root. -/
structure Grammar where
  /-- The rules; the number of a rule is its place here. -/
  rules : List Definition := []
  /-- The rule that a parse starts from, if there is any rule. -/
  root : Option RuleId := none

namespace Body

/-- The expression, if the rule is one. -/
def tree? : Body → Option Expr
  | tree e => some e
  | native _ => none

/-- The body as a tree of words; a procedure keeps its course to itself. -/
def outline : Body → String
  | tree e => "Expr(" ++ e.outline ++ ")"
  | native _ => "Native(..)"

/-- The native rule that is nothing but an expression, and so hides it from the checks. -/
def opaqueTree (e : Expr) : Body :=
  native fun s => .ask (.expr e) s .done

end Body

/-- The rule as a line of a grammar. -/
def Definition.written (d : Definition) : String :=
  d.name ++ " <- " ++
    match d.body with
    | .tree e => e.written
    | .native _ => "<native>"

namespace Grammar

/-- The number of rules. -/
def size (g : Grammar) : Nat := g.rules.length

/-- The number of the rule with the given name. -/
def find? (g : Grammar) (name : String) : Option RuleId :=
  g.rules.findIdx? (·.name == name)

/-- The name of a rule. -/
def name? (g : Grammar) (id : RuleId) : Option String :=
  g.rules[id]?.map (·.name)

/-- The name of a rule, empty if there is no such rule. -/
def nameOf (g : Grammar) (id : RuleId) : String := (g.name? id).getD ""

/-- What a rule does. -/
def body? (g : Grammar) (id : RuleId) : Option Body :=
  g.rules[id]?.map (·.body)

end Grammar

end Peg
