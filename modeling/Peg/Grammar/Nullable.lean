import Peg.Grammar.Basic

/-!
# Expressions that may read nothing

Whether an expression may succeed without reading a character, judged by its form. For a rule this
depends on the rules it calls, so the verdicts on all rules of a grammar are found together, from
below: none is taken to be nullable at first. A sweep goes through the rules in order and judges each
one that was not nullable so far, by the verdicts as they stand at that moment (`Peg.Grammar.sweep`),
and there are sweeps until one changes nothing (`Peg.Grammar.settle?`). Each sweep but the last makes
another rule nullable, so there are no more of them than rules, and one that confirms the rest.

Two judgements are conventions: the end of the input counts as a character, and a native rule as one
that reads something. The first is a choice (`ends`): at the end of the input, finding it there reads
nothing, and a judgement that is to hold there too has to count it as nothing.
-/

namespace Peg

/-- Whether the expression may succeed without reading anything, given the verdicts on the rules;
`ends` says whether the end of the input counts as nothing. A reference that leads nowhere never
succeeds. -/
def Expr.nullable (verdicts : List Bool) (e : Expr) (ends : Bool := false) : Bool :=
  match e with
  | seq a b => a.nullable verdicts ends && b.nullable verdicts ends
  | alt a b => a.nullable verdicts ends || b.nullable verdicts ends
  | text s => s.isEmpty
  | endOfInput => ends
  | char _ | range _ _ | any => false
  | opt _ | star _ | ahead _ | notAhead _ | empty => true
  | plus a | capture a => a.nullable verdicts ends
  | call r => r.id.any fun id => verdicts.getD id false

/-- Whether the rule may succeed without reading anything; of a procedure this is not assumed. -/
def Body.nullable (verdicts : List Bool) (b : Body) (ends : Bool := false) : Bool :=
  match b with
  | tree e => e.nullable verdicts ends
  | native _ => false

/-- The verdicts on the rules of a grammar, and whether one has changed. -/
structure Sweep where
  /-- For each rule whether it is nullable. -/
  verdicts : List Bool
  /-- Whether a rule has become nullable. -/
  changed : Bool := false

/-- Judges a rule by the verdicts as they stand, unless it is nullable already. -/
def Sweep.judge (s : Sweep) (id : RuleId) (b : Body) (ends : Bool := false) : Sweep :=
  if s.verdicts.getD id false then s
  else if b.nullable s.verdicts ends then { verdicts := s.verdicts.set id true, changed := true }
  else s

namespace Grammar

/-- Goes through the rules once, from the given verdicts on. -/
def sweep (g : Grammar) (verdicts : List Bool) (ends : Bool := false) : Sweep :=
  g.rules.zipIdx.foldl (fun s (d, id) => s.judge id d.body ends) { verdicts }

/-- The verdicts after as many sweeps as change anything and one that does not. No answer if `rounds`
sweeps are not enough. -/
def settle? (g : Grammar) (rounds : Nat) (verdicts : List Bool) (ends : Bool := false) :
    Option (List Bool) :=
  match rounds with
  | 0 => none
  | rounds + 1 =>
    let s := g.sweep verdicts ends
    if s.changed then g.settle? rounds s.verdicts ends else some s.verdicts

/-- The verdict on each rule: whether it may succeed without reading anything. -/
def nullable (g : Grammar) (ends : Bool := false) : List Bool :=
  (g.settle? (g.size + 1) (List.replicate g.size false) ends).getD []

end Grammar

end Peg
