import Peg.Command.Basic
import Peg.Document.Grammar

/-!
# The command for JSON documents

Checks whether a text is a JSON document, or whether it begins with what a rule of the grammar
describes, and says what kind of value was found.
-/

namespace Peg.Document

/-- What the command is asked to do. -/
structure Request where
  /-- The document, or why it could not be read. -/
  source : Source
  /-- The rule to start from; the root if none is named. -/
  rule : Option String := none
  /-- The options of all commands. -/
  options : Options := {}

/-- The kind of a JSON value, told by its first character. -/
def kind (c : Char) : String :=
  match c with
  | '\x7b' => "object"
  | '[' => "array"
  | '"' => "string"
  | 't' | 'f' => "boolean"
  | 'n' => "null"
  | _ => "number"

/-- The summary of a match: the kind and the length of the first value that was captured. -/
def summary (r : Reader) (o : Outcome) : Option String := do
  let value ← o.captures.head?
  let first ← (← r.captured value).toList.head?
  return "valid JSON " ++ kind first ++ " (" ++ toString value.length ++ " characters)"

/-- Checks a document. -/
def command (q : Request) : Command Bool := do
  let parser ← Command.parser q.options grammar
  let text ← Command.orFail .input q.source
  let p ← Command.orFail .parse <|
    match q.rule with
    | some name => parser.parseFrom name text
    | none => parser.parse text
  let r := Reader.ofString text
  Command.finish q.options r p.outcome (summary r p.outcome)

end Peg.Document
