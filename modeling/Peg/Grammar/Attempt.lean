import Peg.Grammar.Basic

/-!
# Matching against a grammar

What it means to match an expression, to call a rule and to run a native procedure, in one function
that is defined by how deep it may go: `Peg.Grammar.attempt` gives no answer when its `depth` is
used up, and otherwise does one step and leaves what lies below to a depth one less. Depth is not
part of the meaning of a grammar, since an answer does not change when there is more of it; it is
what makes the definition a definition, and what a grammar that calls itself without end runs out
of.

`Peg.Grammar.evaluate` sets the depth for the caller. In a grammar of trees it is high enough for
every parse in which no rule is called again before something was read; one that is called without
reading anything, over and over, would never come to an end. What a procedure asks for can be of any
size, and nothing in the grammar bounds it. So native rules have a fixed allowance of depth, and one
that goes deeper is cut off here, though there is an answer at a greater depth. What holds of native
rules at large is therefore said of attempts to every depth.
-/

namespace Peg

namespace Expr

/-- One step of matching an expression, where `attempt` takes care of what is inside it and of the
rules it calls, and `bound` limits each repetition. A reference that leads nowhere fails. -/
def step (attempt : Goal → Matcher) (bound : Nat) : Expr → Matcher
  | seq a b => .sequence (attempt (.expr a)) (attempt (.expr b))
  | alt a b => .choice (attempt (.expr a)) (attempt (.expr b))
  | text s => .literal s
  | char c => .single (· == some c) (.char c)
  | endOfInput => .single (·.isNone) .endOfInput
  | range first last => .single (·.any fun c => first ≤ c && c ≤ last) (.range first last)
  | any => .single (·.isSome) .any
  | opt a => .optional (attempt (.expr a))
  | star a => .repeated bound (attempt (.expr a))
  | plus a => .sequence (attempt (.expr a)) (.repeated bound (attempt (.expr a)))
  | ahead a => .ahead (attempt (.expr a))
  | notAhead a => .notAhead (attempt (.expr a))
  | call r => .recording (.call r.name)
      (match r.id with
        | some id => attempt (.rule id)
        | none => .fail)
  | capture a => .captured (attempt (.expr a))
  | empty => .pass

end Expr

namespace Body

/-- One step of what a rule does. -/
def step (attempt : Goal → Matcher) : Body → Matcher
  | tree e => attempt (.expr e)
  | native start => fun s => (start s).run attempt

/-- How much depth a rule is allowed before something is read. For a tree it is the number of its
nodes and one more, which is as much as it needs. For a procedure it is a fixed allowance, and what
it asks for may need more. -/
def weight : Body → Nat
  | tree e => e.size + 1
  | native _ => 4096

end Body

namespace Grammar

/-- Attempts a goal to the given depth. Whatever the captures of a failed expression were, they are
dropped; a rule that does not exist fails. -/
def attempt (g : Grammar) (depth : Nat) (goal : Goal) : Matcher :=
  match depth with
  | 0 => fun s => (none, s)
  | depth + 1 =>
    match goal with
    | .expr e => .rollback (e.step (g.attempt depth) depth)
    | .rule id => .traced (g.nameOf id)
        (match g.body? id with
          | some body => body.step (g.attempt depth)
          | none => .fail)
    | .named name =>
      match g.find? name with
      | some id => g.attempt depth (.rule id)
      | none => .fail

/-- The weight of all rules together. -/
def total (g : Grammar) : Nat := g.rules.foldr (fun d n => d.body.weight + n) 0

/-- The depth that a goal is allowed on an input of the given length. It suffices for all that comes
to an end in a grammar of trees: between two characters no rule is called twice, so twice the weight
of all rules is enough there, and with it a repetition can go round once for each character. If there
are native rules that ask for nothing, go forwards and read something when they match, it suffices
as long as no rule is called again where it was entered. With others it need not be enough. -/
def depthFor (g : Grammar) (goal : Goal) (length : Nat) : Nat :=
  let own := match goal with
    | .expr e => e.size
    | .rule _ | .named _ => 0
  (length + 2) * (2 * g.total + own + 2)

/-- Attempts a goal to the depth that it is allowed: whether it matched and the state afterwards.
There is no result if it goes deeper. In a grammar of trees that is the case exactly if it calls
rules without end; a native rule may also go deeper and come to an end there. -/
def evaluate (g : Grammar) (goal : Goal) (s : State) : Option (Bool × State) :=
  match g.attempt (g.depthFor goal s.reader.size) goal s with
  | (some matched, t) => some (matched, t)
  | (none, _) => none

end Grammar

end Peg
