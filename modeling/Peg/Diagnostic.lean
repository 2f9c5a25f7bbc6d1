import Peg.Text.Escape
import Peg.Reader

/-!
# Failures and the log of them

When an expression fails it says so: a `Peg.Failure` names which kind of expression it was, and a
`Peg.Diagnostic` adds the offset where the attempt began. The diagnostics of one parse are collected
in a `Peg.Log`, in the order in which they arise. The log can be muted while a repetition feels for
its end, and cut back when a later alternative makes up for the failures before it.

Of all diagnostics the one furthest into the input explains best why a parse failed, and the first
of those if there are several: `Peg.deepest`.
-/

namespace Peg

/-- Why an attempt failed. -/
inductive Failure
  /-- One of two expressions in a row failed. -/
  | sequence
  /-- Both alternatives failed. -/
  | choice
  /-- The text does not come next. -/
  | literal (text : String)
  /-- The character does not come next. -/
  | char (c : Char)
  /-- There is more input. -/
  | endOfInput
  /-- No character between `first` and `last` comes next. -/
  | range (first last : Char)
  /-- There is no more input. -/
  | any
  /-- What had to come next does not. -/
  | ahead
  /-- What must not come next does. -/
  | notAhead
  /-- The rule failed. -/
  | call (rule : String)
  /-- A reason given in words by a native rule. -/
  | note (text : String)
deriving DecidableEq, Repr

namespace Failure

/-- A character as the messages name it; `Peg.endMark` is the end of the input. -/
def name (c : Char) : String :=
  if c = endMark then "EOI" else Text.spell c

/-- The failure in words. -/
def message : Failure → String
  | sequence => "Sequence failed"
  | choice => "FirstOf failed"
  | literal text => "LiteralString(" ++ text ++ ") failed"
  | char c => "LiteralChar(" ++ name c ++ ") failed"
  | endOfInput => "LiteralChar(" ++ name endMark ++ ") failed"
  | range first last => "CharRange(" ++ name first ++ "..=" ++ name last ++ ") failed"
  | any => "AnyChar failed"
  | ahead => "AndPredicate failed"
  | notAhead => "NotPredicate failed"
  | call rule => "RuleCall(" ++ rule ++ ") failed"
  | note text => text

end Failure

/-- A failure and the offset where the failed attempt began. -/
structure Diagnostic where
  /-- Where the attempt began. -/
  position : Nat
  /-- Why it failed. -/
  failure : Failure
deriving DecidableEq, Repr

/-- The diagnostic on one line. -/
def Diagnostic.describe (d : Diagnostic) : String :=
  d.failure.message ++ " at offset " ++ toString d.position

/-- The diagnostic furthest into the input, the first of them if several are. -/
def deepest (ds : List Diagnostic) : Option Diagnostic :=
  ds.foldl further none
where
  /-- Keeps the deepest so far unless the next one lies strictly deeper. -/
  further : Option Diagnostic → Diagnostic → Option Diagnostic
    | none, d => some d
    | some best, d => if best.position ≥ d.position then some best else some d

/-- The diagnostics of one parse in the order in which they arose. -/
structure Log where
  /-- The diagnostics so far. -/
  records : Array Diagnostic := #[]
  /-- Whether new diagnostics are kept. -/
  tracking : Bool := true
deriving DecidableEq, Repr

namespace Log

/-- Adds a diagnostic, unless the log is muted. -/
def add (log : Log) (position : Nat) (failure : Failure) : Log :=
  if log.tracking then { log with records := log.records.push ⟨position, failure⟩ } else log

/-- Keeps the first `count` diagnostics. -/
def cutTo (log : Log) (count : Nat) : Log :=
  { log with records := log.records.shrink count }

/-- The deepest diagnostic of the log. -/
def deepest (log : Log) : Option Diagnostic := Peg.deepest log.records.toList

end Log

end Peg
