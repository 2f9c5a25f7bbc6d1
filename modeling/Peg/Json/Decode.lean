import Peg.Json.Skip
import Peg.Text.Escape

/-!
# Values of a known type

Who wants a value of some type takes it, or finds that there is none or one of another type. A value
of another type is read to its end before that is said, unless it is a list or an object, of which
nothing is read.
-/

namespace Peg.Json.Decoder

variable {α : Type}

/-- Fails because a value of another type is expected. -/
def wrongType (expected : String) : Decoder α := do
  match ← next with
  | none => refuse .endInValue
  | some '[' => fail (.type "sequence" expected)
  | some '\x7b' => fail (.type "map" expected)
  | some '"' =>
    drop
    let s ← string
    fail (.type ("string " ++ Text.quote s) expected)
  | some 'n' => literal "null".toList; fail (.type "null" expected)
  | some 't' => literal "true".toList; fail (.type "boolean `true`" expected)
  | some 'f' => literal "false".toList; fail (.type "boolean `false`" expected)
  | some c =>
    if beginsNumeral c then
      let n ← number
      fail (.type n.describe expected)
    else refuse .noValue

/-- A truth value. -/
def bool : Decoder Bool := do
  match ← next with
  | some 't' => literal "true".toList; return true
  | some 'f' => literal "false".toList; return false
  | _ => wrongType "a boolean"

/-- An integer between the bounds, which messages call `expected`. -/
def int (least greatest : Int) (expected : String) : Decoder Int := do
  if (← next).any beginsNumeral then
    match ← number with
    | .integer i =>
      if least ≤ i ∧ i ≤ greatest then return i
      else fail (.range (Number.integer i).describe expected)
    | .double x => fail (.type (Number.double x).describe expected)
  else wrongType expected

/-- The name of a member, with its quotes. -/
def name : Decoder String := do
  match ← next with
  | none => refuse .endInObject
  | some '"' => drop; string
  | some _ => refuse .noName

/-- Whether another element or member follows one, of which the comma is taken then. The end is left
for the caller. -/
def separator (frame : Frame) : Decoder Bool := do
  match ← next with
  | none => refuse frame.atEnd
  | some c =>
    if c = frame.close then return false
    else if c = ',' then
      drop
      match ← next with
      | none => refuse .endInValue
      | some c => if c = frame.close then refuse .trailingComma else return true
    else refuse frame.noEnd

/-- Takes the end of a list in which nothing more may stand. -/
def listEnd : Decoder Unit := do
  match ← next with
  | none => refuse .endInList
  | some ']' => drop
  | some ',' =>
    drop
    if (← next) = some ']' then refuse .trailingComma else refuse .trailingText
  | some _ => refuse .trailingText

end Peg.Json.Decoder
