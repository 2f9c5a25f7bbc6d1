import Peg.Diagnostic
import Peg.Json.Value

/-!
# Outcomes of parses

What a parse leaves behind: whether it matched, how far it read, what failed on the way and what was
captured. A parse may match and still report failures, of things that were optional for instance.
Alongside stand the reasons why there may be no match to speak of: the input was refused, or it did
not match (`Peg.Outcome.toExcept`).
-/

namespace Peg

/-- What a parse leaves behind. -/
structure Outcome where
  /-- Whether the input matched. -/
  matched : Bool
  /-- How far the input had been read in the end. -/
  position : Nat
  /-- The failures that were put on record, in order. -/
  errors : List Diagnostic
  /-- The captures, in the order in which they were completed. -/
  captures : List Capture
deriving DecidableEq, Repr

/-- Why there is no match. -/
inductive ParseError
  /-- The input is too long to be parsed. -/
  | tooLong (length limit : Nat)
  /-- There is no rule of that name. -/
  | unknownRule (name : String)
  /-- The grammar has no rule to start from. -/
  | noRoot
  /-- The input does not match; it was read up to `position`. -/
  | noMatch (position : Nat) (errors : List Diagnostic)
  /-- Rules called each other deeper than is allowed for. In a grammar of trees they do so without
  reading anything, and there is no end to it; a native rule may have gone too deep otherwise. -/
  | endless
deriving DecidableEq, Repr

/-- The reason in words. -/
def ParseError.message : ParseError → String
  | tooLong length limit =>
    "input has " ++ toString length ++ " characters, limit is " ++ toString limit
  | unknownRule name => "unknown rule `" ++ name ++ "`"
  | noRoot => "grammar has no root rule"
  | noMatch position errors =>
    "input did not match (stopped at offset " ++ toString position ++ ", " ++
      toString errors.length ++ " error records)"
  | endless => "rules call each other too deeply"

/-- The diagnostic as a JSON object. -/
def Diagnostic.toJson (d : Diagnostic) : Json :=
  .obj [("position", .int d.position), ("description", .str d.failure.message)]

namespace Outcome

/-- The range that was read by a match; nothing if there was none. -/
def span (o : Outcome) : Capture :=
  if o.matched then Capture.ofRange 0 o.position else Capture.empty

/-- The failure furthest into the input. -/
def deepest (o : Outcome) : Option Diagnostic := Peg.deepest o.errors

/-- The outcome of a match, or the failure to match as an error. -/
def toExcept (o : Outcome) : Except ParseError Outcome :=
  if o.matched then .ok o else .error (.noMatch o.position o.errors)

/-- The members of the outcome as a JSON object. -/
def members (o : Outcome) : List (String × Json) :=
  [("matched", .bool o.matched),
    ("position", .int o.position),
    ("errors", .arr (o.errors.map Diagnostic.toJson)),
    ("captures", .arr (o.captures.map fun c => .int c.toInt))]

/-- The outcome as a JSON object. -/
def toJson (o : Outcome) : Json := .obj o.members

end Outcome

end Peg
