import Peg.Expr.Basic
import Peg.Text.Escape

/-!
# Expressions as text

Two ways to write an expression down. `Peg.Expr.written` is the way grammars are written: a blank
between things in a row, `/` between alternatives, `?`, `*` and `+` behind an expression, `&` and
`!` before it, angle brackets around a capture. `Peg.Expr.outline` spells out the tree, one word a
node (`Peg.Expr.kind`) with its parts in parentheses; unlike the first it also shows where
references lead.
-/

namespace Peg

/-- The reference with all that is known about it. -/
def Reference.outline (r : Reference) : String :=
  "RuleRef \x7b name: " ++ Text.quote r.name ++ ", id: " ++
    (match r.id with
      | some id => "Some(RuleId(" ++ toString id ++ "))"
      | none => "None") ++ " \x7d"

namespace Expr

/-- The expression in the notation of grammars. -/
def written : Expr → String
  | seq a b => "(" ++ a.written ++ " " ++ b.written ++ ")"
  | alt a b => "(" ++ a.written ++ " / " ++ b.written ++ ")"
  | text s => Text.quote s
  | char c => Text.quoteChar c
  | endOfInput => "EOI"
  | range first last => "[" ++ Text.spell first ++ "-" ++ Text.spell last ++ "]"
  | any => "."
  | opt a => a.written ++ "?"
  | star a => a.written ++ "*"
  | plus a => a.written ++ "+"
  | ahead a => "&" ++ a.written
  | notAhead a => "!" ++ a.written
  | call r => r.name
  | capture a => "<" ++ a.written ++ ">"
  | empty => "()"

/-- The word for the node at the top of the expression. -/
def kind : Expr → String
  | seq _ _ => "Sequence"
  | alt _ _ => "FirstOf"
  | text _ => "LiteralString"
  | char _ | endOfInput => "LiteralChar"
  | range _ _ => "CharRange"
  | any => "AnyChar"
  | opt _ => "Optional"
  | star _ => "ZeroOrMore"
  | plus _ => "OneOrMore"
  | ahead _ => "AndPredicate"
  | notAhead _ => "NotPredicate"
  | call _ => "RuleCall"
  | capture _ => "Capture"
  | empty => "Empty"

/-- The expression as a tree of words. -/
def outline (e : Expr) : String :=
  match e with
  | seq a b | alt a b => e.kind ++ "(" ++ a.outline ++ ", " ++ b.outline ++ ")"
  | text s => e.kind ++ "(" ++ Text.quote s ++ ")"
  | char c => e.kind ++ "(" ++ Text.quoteChar c ++ ")"
  | endOfInput => e.kind ++ "(" ++ Text.quoteChar endMark ++ ")"
  | range first last =>
    e.kind ++ "(" ++ Text.quoteChar first ++ ", " ++ Text.quoteChar last ++ ")"
  | opt a | star a | plus a | ahead a | notAhead a | capture a =>
    e.kind ++ "(" ++ a.outline ++ ")"
  | call r => e.kind ++ "(" ++ r.outline ++ ")"
  | any | empty => e.kind

end Expr

end Peg
