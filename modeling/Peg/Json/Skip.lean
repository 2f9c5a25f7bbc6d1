import Peg.Json.Numeral
import Peg.Json.Quoted

/-!
# Getting past a JSON value

A value that nobody asks for is skipped. It must be JSON, but no more: its numbers may be too great,
and its strings may hold half a character. What is open at any time is kept on a stack, and what may
come next is one of a few things (`Peg.Json.Expect`), so that a word at a time is taken.
-/

namespace Peg.Json

/-- What a value is inside of. -/
inductive Frame
  /-- A list. -/
  | list
  /-- An object. -/
  | object
deriving DecidableEq, Repr

namespace Frame

/-- The character that closes it. -/
def close : Frame → Char
  | list => ']'
  | object => '\x7d'

/-- The fault of a text that ends inside of it. -/
def atEnd : Frame → Fault
  | list => .endInList
  | object => .endInObject

/-- The fault of something else where a comma or the end of it should be. -/
def noEnd : Frame → Fault
  | list => .noListEnd
  | object => .noObjectEnd

end Frame

/-- What comes next while a value is skipped. -/
inductive Expect
  /-- A value. -/
  | value
  /-- The first element or the first name, or the end. -/
  | first
  /-- A name. -/
  | name
  /-- A colon. -/
  | colon
  /-- A comma or the end. -/
  | separator
deriving DecidableEq, Repr

namespace Decoder

/-- What there is to do after a value inside of `frames`: nothing if it is inside of none. -/
def afterValue : List Frame → Option (Expect × List Frame)
  | [] => none
  | frames => some (.separator, frames)

/-- Takes the first word of a value inside of `frames`. -/
def skipWord (frames : List Frame) : Decoder (Option (Expect × List Frame)) := do
  match ← next with
  | none => refuse .endInValue
  | some '[' => drop; return some (.first, .list :: frames)
  | some '\x7b' => drop; return some (.first, .object :: frames)
  | some '"' => drop; skipString; return afterValue frames
  | some 'n' => literal "null".toList; return afterValue frames
  | some 't' => literal "true".toList; return afterValue frames
  | some 'f' => literal "false".toList; return afterValue frames
  | some c =>
    if beginsNumeral c then
      let _ ← numeral .number
      return afterValue frames
    else refuse .noValue

/-- Takes a name in an object. -/
def skipName (frames : List Frame) : Decoder (Option (Expect × List Frame)) := do
  match ← next with
  | none => refuse .endInObject
  | some '"' => drop; skipString; return some (.colon, frames)
  | some _ => refuse .noName

/-- Takes a colon. -/
def colon : Decoder Unit := do
  match ← next with
  | none => refuse .endInObject
  | some ':' => drop
  | some _ => refuse .noColon

/-- Takes what comes next inside of `frame` and of the `outer` ones, and says what comes then. -/
def skipNext (frame : Frame) (outer : List Frame) :
    Expect → Decoder (Option (Expect × List Frame))
  | .value => skipWord (frame :: outer)
  | .name => skipName (frame :: outer)
  | .colon => do
    colon
    return some (.value, frame :: outer)
  | .first => do
    match ← next with
    | none => refuse frame.atEnd
    | some c =>
      if c = frame.close then drop; return afterValue outer
      else
        match frame with
        | .list => skipWord (frame :: outer)
        | .object => skipName (frame :: outer)
  | .separator => do
    match ← next with
    | none => refuse frame.atEnd
    | some c =>
      if c = frame.close then drop; return afterValue outer
      else if c = ',' then
        drop
        match frame with
        | .list => return some (.value, frame :: outer)
        | .object => return some (.name, frame :: outer)
      else refuse frame.noEnd

/-- Takes what is missing of a value inside of `frames`, of which `expect` comes next and which has
no more than `bound` words. -/
def skipRest (bound : Nat) (expect : Expect) : List Frame → Decoder Unit
  | [] => return
  | frame :: outer => do
    match bound, ← skipNext frame outer expect with
    | _, none => return
    | 0, _ => fail frame.atEnd
    | bound + 1, some (expect, frames) => skipRest bound expect frames

/-- Takes a value. It has no more words than the text has characters. -/
def skip : Decoder Unit := do
  match ← skipWord [] with
  | none => return
  | some (expect, frames) => skipRest (← get).length expect frames

end Decoder

end Peg.Json
