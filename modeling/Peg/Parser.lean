import Peg.Grammar.Attempt
import Peg.Outcome
import Peg.Settings

/-!
# Parsers

A parser is a grammar with settings. It parses an input from the root or from a rule that is named,
each time from a fresh state, so that one parse never affects another. An input that is longer than
the settings allow is refused before anything is done with it.

A parse need not read the whole input. A grammar that wants it read to the end has to ask for the
end of the input itself.
-/

namespace Peg

/-- A parse that was carried through. -/
structure Parse where
  /-- What it left behind. -/
  outcome : Outcome
  /-- What was reported on the way. -/
  trace : List Event

/-- A grammar with settings. -/
structure Parser where
  /-- The grammar. -/
  grammar : Grammar
  /-- The settings. -/
  settings : Settings := {}

/-- The outcome of a parse that ends in this state. -/
def State.outcome (s : State) (matched : Bool) : Outcome :=
  { matched
    position := s.offset
    errors := s.log.records.toList
    captures := s.captures.toList }

namespace Parser

/-- The state in which a parse of the input by the given rule begins. -/
def start (p : Parser) (id : RuleId) (input : Array Char) : State :=
  ((State.ofReader { input }).track p.settings.tracking).emit
    (.started (p.grammar.nameOf id) input.size)

/-- The parse that ends in this state. -/
def finish (p : Parser) (id : RuleId) (matched : Bool) (s : State) : Parse :=
  let last := .finished (p.grammar.nameOf id) matched s.offset s.log.records.size
  { outcome := s.outcome matched, trace := (s.emit last).trace.toList }

/-- Parses the input by the given rule, unless that goes deeper than is allowed for. In a grammar
of trees only a parse without end does. -/
def run? (p : Parser) (id : RuleId) (input : Array Char) : Option Parse :=
  (p.grammar.evaluate (.rule id) (p.start id input)).map fun (matched, s) =>
    p.finish id matched s

/-- Parses the input by the given rule. -/
def run (p : Parser) (id : RuleId) (input : Array Char) : Except ParseError Parse :=
  if input.size > p.settings.effectiveLimit then
    .error (.tooLong input.size p.settings.effectiveLimit)
  else
    match p.run? id input with
    | some parse => .ok parse
    | none => .error .endless

/-- Parses a sequence of characters by the root. -/
def parseChars (p : Parser) (input : Array Char) : Except ParseError Parse :=
  match p.grammar.root with
  | some id => p.run id input
  | none => .error .noRoot

/-- Parses a string by the root. -/
def parse (p : Parser) (input : String) : Except ParseError Parse :=
  p.parseChars input.toList.toArray

/-- Parses a string by the rule that is named. -/
def parseFrom (p : Parser) (name : String) (input : String) : Except ParseError Parse :=
  match p.grammar.find? name with
  | some id => p.run id input.toList.toArray
  | none => .error (.unknownRule name)

end Parser

/-- Parses a string by the root, with nothing set. -/
def Grammar.parse (g : Grammar) (input : String) : Except ParseError Parse :=
  Parser.parse { grammar := g } input

end Peg
