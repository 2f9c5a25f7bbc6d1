import Peg.Reader

/-!
# Parsing expressions

A parsing expression says how to read a stretch of input: a text, a character, one thing after
another, the first of two alternatives that works, and so on. Expressions are plain trees. They name
the rules of a grammar by `Peg.Reference`s, which carry the number of the rule once the grammar is
known (`Peg.Expr.bind`); until then a reference leads nowhere and fails.

Longer rows are built from the binary constructors by nesting to the right: `Peg.Expr.sequenceOf`
and `Peg.Expr.choiceOf`. `Peg.Expr.nodes` lists all the subtrees of an expression, each before
those below it and from left to right, and what is asked about "some node of a tree" is asked of
that list.
-/

namespace Peg

/-- The number of a rule in its grammar, counted from zero. -/
abbrev RuleId := Nat

/-- The name of a rule and, once it is known, the rule's number. -/
structure Reference where
  /-- The name by which the rule is called. -/
  name : String
  /-- The rule of that name in the grammar that the tree belongs to. -/
  id : Option RuleId := none
deriving DecidableEq, Repr

/-- A parsing expression. -/
inductive Expr
  /-- The first expression and then the second. -/
  | seq (first second : Expr)
  /-- The first expression or, if that fails, the second. -/
  | alt (first second : Expr)
  /-- A text, character by character. -/
  | text (s : String)
  /-- One given character. -/
  | char (c : Char)
  /-- The end of the input. -/
  | endOfInput
  /-- One character between `first` and `last`, both included. -/
  | range (first last : Char)
  /-- One character, whichever it is. -/
  | any
  /-- The expression if it can be had. -/
  | opt (e : Expr)
  /-- The expression as often as it can be had, perhaps never. -/
  | star (e : Expr)
  /-- The expression as often as it can be had, but once at least. -/
  | plus (e : Expr)
  /-- The expression could be had here; nothing is read. -/
  | ahead (e : Expr)
  /-- The expression could not be had here; nothing is read. -/
  | notAhead (e : Expr)
  /-- A rule of the grammar. -/
  | call (rule : Reference)
  /-- The expression, whose range of characters is put on record. -/
  | capture (e : Expr)
  /-- Nothing at all, which can always be had. -/
  | empty
deriving DecidableEq, Repr

namespace Expr

/-! ### Building expressions -/

/-- One given character; `Peg.endMark` asks for the end of the input. -/
def ofChar (c : Char) : Expr :=
  if c = endMark then endOfInput else char c

/-- A decimal digit. -/
def digit : Expr := range '0' '9'

/-- The rule of the given name. -/
def rule (name : String) : Expr := call { name }

/-- One expression after another. -/
def sequenceOf : List Expr → Expr
  | [] => empty
  | [e] => e
  | e :: es => seq e (sequenceOf es)

/-- The first of the expressions that can be had; of none, an expression that always fails. -/
def choiceOf : List Expr → Expr
  | [] => notAhead empty
  | [e] => e
  | e :: es => alt e (choiceOf es)

/-! ### The nodes of a tree -/

/-- The expression and all those inside it, parents first and from left to right. -/
def nodes (e : Expr) : List Expr :=
  e :: match e with
    | seq a b | alt a b => a.nodes ++ b.nodes
    | opt a | star a | plus a | ahead a | notAhead a | capture a => a.nodes
    | text _ | char _ | endOfInput | range _ _ | any | call _ | empty => []

/-- The number of nodes. -/
def size (e : Expr) : Nat := e.nodes.length

/-- The references in the tree, from left to right. -/
def references (e : Expr) : List Reference :=
  e.nodes.filterMap fun
    | call r => some r
    | _ => none

/-- The tree with every reference led to the rule that `find` gives for its name, whatever rule it
led to before. -/
def bind (find : String → Option RuleId) : Expr → Expr
  | seq a b => seq (a.bind find) (b.bind find)
  | alt a b => alt (a.bind find) (b.bind find)
  | opt a => opt (a.bind find)
  | star a => star (a.bind find)
  | plus a => plus (a.bind find)
  | ahead a => ahead (a.bind find)
  | notAhead a => notAhead (a.bind find)
  | capture a => capture (a.bind find)
  | call r => call { r with id := find r.name }
  | text s => text s
  | char c => char c
  | endOfInput => endOfInput
  | range first last => range first last
  | any => any
  | empty => empty

end Expr

end Peg
