import Peg.Capture

/-!
# Reading an input

A `Peg.Reader` is an input, decoded into characters, and the offset of the next one. All it does is
look at that character, step past it, and move to another offset; what lies between two offsets can
be cut out at any time, and offsets past the end of the input are clamped to it
(`Peg.Reader.slice`).

The end of the input is no character: `Peg.Reader.current?` is `none` there. Callers that want a
character in its place get `Peg.endMark`, which an input may contain like any other.
-/

namespace Peg

/-- The character that stands for the end of an input where a character is wanted. -/
def endMark : Char := '\uffff'

/-- An input and the offset of its next character. -/
structure Reader where
  /-- The characters of the input. -/
  input : Array Char
  /-- The number of characters before the next one. -/
  offset : Nat := 0
deriving DecidableEq, Repr

namespace Reader

/-- A reader at the start of a string. -/
def ofString (s : String) : Reader := { input := s.toList.toArray }

/-- The number of characters in the input. -/
def size (r : Reader) : Nat := r.input.size

/-- Whether there is no next character. -/
def atEnd (r : Reader) : Bool := r.input.size ≤ r.offset

/-- The next character, if there is one. -/
def current? (r : Reader) : Option Char := r.input[r.offset]?

/-- The next character, or `Peg.endMark` at the end. -/
def current (r : Reader) : Char := r.current?.getD endMark

/-- Past the next character; the end of the input is never passed. -/
def advance (r : Reader) : Reader :=
  if r.offset < r.input.size then { r with offset := r.offset + 1 } else r

/-- At another offset of the same input. -/
def moveTo (r : Reader) (offset : Nat) : Reader := { r with offset }

/-- Whether the characters come next, in this order. -/
def startsWith : Reader → List Char → Bool
  | _, [] => true
  | r, c :: cs => r.current? == some c && r.advance.startsWith cs

/-- The text from offset `start` up to offset `stop`, both clamped to the end of the input. -/
def slice (r : Reader) (start stop : Nat) : String :=
  String.ofList (r.input.extract start stop).toList

/-- The text that a capture covers. -/
def captured (r : Reader) (c : Capture) : Option String :=
  c.range?.map fun (start, stop) => r.slice start stop

end Reader

end Peg
