import Peg.Json.Fault

/-!
# Taking things off a JSON text

A `Peg.Json.Decoder` takes a value of some type off the front of a text and leaves the rest, or it
finds a flaw. There are two ways to find one. Either something that should not be there comes next,
and its first byte is read to see that (`Peg.Json.Decoder.refuse`); or what was read so far is not
good, and nothing of what follows is read any more (`Peg.Json.Decoder.fail`). At the end of the text
the two are the same.
-/

namespace Peg.Json

/-- Takes a value off the front of a text, or finds a flaw in it. -/
abbrev Decoder := StateT (List Char) (Except Flaw)

/-- Whether the character may stand between words. -/
def isBlank (c : Char) : Bool := c = ' ' || c = '\n' || c = '\t' || c = '\r'

namespace Decoder

variable {α : Type}

/-- Fails before any of what follows is read. -/
def fail (fault : Fault) : Decoder α := fun cs => .error ⟨fault, bytes cs⟩

/-- Fails on the first byte of what follows, or at the end if nothing does. -/
def refuse (fault : Fault) : Decoder α := fun cs => .error ⟨fault, bytes cs - 1⟩

/-- The next character, which is left where it is. -/
def peek : Decoder (Option Char) := return (← get).head?

/-- Takes the next character. -/
def drop : Decoder Unit := modify List.tail

/-- Takes the next character if it is one of these, and says which. -/
def accept? (choice : List Char) : Decoder (Option Char) := do
  match ← peek with
  | some c => if c ∈ choice then drop; return some c else return none
  | none => return none

/-- The next character that is not blank, which is left where it is. -/
def next : Decoder (Option Char) := do
  modify (List.dropWhile isBlank)
  peek

/-- Takes the characters of a literal. -/
def literal : List Char → Decoder Unit
  | [] => return
  | l :: ls => do
    match ← peek with
    | none => refuse .endInValue
    | some c => if c = l then drop; literal ls else refuse .noLiteral

/-- Takes nothing, for there must be nothing more. -/
def ending : Decoder Unit := do
  if (← next).isSome then refuse .trailingText

/-- What a whole text holds. -/
def decode (d : Decoder α) (text : String) : Except Error α :=
  match (d <* ending).run text.toList with
  | .ok (a, _) => .ok a
  | .error flaw => .error (flaw.locate text.toList)

end Decoder

end Peg.Json
