import Peg.Grammar.LeftCalls

/-!
# Building grammars

A `Peg.Draft` is a grammar as it is written down: rules that call each other by name, in any
order, and perhaps the name of the root. `Peg.Draft.build` leads every call to the rule it names
and refuses what could not be parsed with: names that are missing or given twice, a repetition of
something that may read nothing, and left recursion. The first `Peg.Defect` in this order is
reported.

Native rules are taken on trust; nothing that happens in one is checked.
-/

namespace Peg

/-- Why a draft is no grammar. -/
inductive Defect
  /-- There are no rules. -/
  | noRules
  /-- The name is given to more than one rule. -/
  | duplicate (name : String)
  /-- The rule `caller` calls a rule that is not there. -/
  | undefined (name caller : String)
  /-- The root is not there. -/
  | unknownRoot (name : String)
  /-- The rule repeats something that may read nothing. -/
  | nullableRepetition (rule : String)
  /-- Rules call each other in a circle before anything is read; the first is repeated at the
  end. -/
  | leftRecursion (cycle : List String)
deriving DecidableEq, Repr

/-- The defect in words. -/
def Defect.message : Defect → String
  | noRules => "grammar defines no rules"
  | duplicate name => "rule `" ++ name ++ "` is defined more than once"
  | undefined name caller => "rule `" ++ caller ++ "` refers to undefined rule `" ++ name ++ "`"
  | unknownRoot name => "root rule `" ++ name ++ "` is not defined"
  | nullableRepetition rule =>
    "rule `" ++ rule ++ "` repeats an expression that can match empty input"
  | leftRecursion cycle => "left recursion: " ++ " -> ".intercalate cycle

/-- Whether the node at the top of the expression repeats something that may read nothing. -/
def Expr.repeatsNullable (verdicts : List Bool) : Expr → Bool
  | star a | plus a => a.nullable verdicts
  | _ => false

namespace Body

/-- The references in a tree; a procedure has none. -/
def references : Body → List Reference
  | tree e => e.references
  | native _ => []

/-- The body with its references led to the rules of their names. -/
def bind (find : String → Option RuleId) : Body → Body
  | tree e => tree (e.bind find)
  | native start => native start

/-- Whether a tree repeats, anywhere in it, something that may read nothing. -/
def repeatsNullable (verdicts : List Bool) : Body → Bool
  | tree e => e.nodes.any (·.repeatsNullable verdicts)
  | native _ => false

end Body

/-- The first name in the list that stands there already before. -/
def firstRepeated? : List String → Option String := go []
where
  /-- Goes on after the names `seen`. -/
  go (seen : List String) : List String → Option String
    | [] => none
    | name :: names => if name ∈ seen then some name else go (name :: seen) names

namespace Grammar

/-- The first rule that repeats something that may read nothing. -/
def nullableRepetition? (g : Grammar) : Option Definition :=
  g.rules.find? (·.body.repeatsNullable g.nullable)

/-- Refuses repetitions of what may read nothing, and then left recursion. -/
def check (g : Grammar) : Except Defect Grammar :=
  match g.nullableRepetition? with
  | some d => .error (.nullableRepetition d.name)
  | none =>
    match g.leftRecursion? with
    | some cycle => .error (.leftRecursion (cycle.map g.nameOf))
    | none => .ok g

/-- What is reported when the grammar was built. -/
def builtEvent (g : Grammar) : Event :=
  .built g.size ((g.root.map g.nameOf).getD "")

end Grammar

/-- A grammar as it is written down. -/
structure Draft where
  /-- The rules in order. -/
  rules : List Definition := []
  /-- The name of the root; the first rule is the root if none is named. -/
  root : Option String := none

namespace Draft

/-- The number of the first rule of the given name. -/
def find? (d : Draft) (name : String) : Option RuleId :=
  d.rules.findIdx? (·.name == name)

/-- The first call of a rule that is not there: the name called, and the rule that calls it. -/
def firstUndefined? (d : Draft) : Option (String × String) :=
  d.rules.findSome? fun rule =>
    (rule.body.references.find? fun r => (d.find? r.name).isNone).map fun r => (r.name, rule.name)

/-- The rules with every reference led to the rule of its name. -/
def bound (d : Draft) : List Definition :=
  d.rules.map fun rule => { rule with body := rule.body.bind d.find? }

/-- The number of the root. -/
def rootId : Draft → Except Defect RuleId
  | ⟨_, none⟩ => .ok 0
  | d@⟨_, some name⟩ =>
    match d.find? name with
    | some id => .ok id
    | none => .error (.unknownRoot name)

/-- The grammar that is written down, or the first defect. -/
def build (d : Draft) : Except Defect Grammar := do
  if d.rules.isEmpty then throw .noRules
  if let some name := firstRepeated? (d.rules.map (·.name)) then throw (.duplicate name)
  if let some (name, caller) := d.firstUndefined? then throw (.undefined name caller)
  let root ← d.rootId
  Grammar.check { rules := d.bound, root := some root }

end Draft

end Peg
