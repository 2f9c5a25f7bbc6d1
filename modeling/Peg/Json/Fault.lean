/-!
# What can be wrong with a JSON text

A `Peg.Json.Fault` is what is wrong. A text may be no JSON, or it may be JSON but not of the form
that is asked for; both are faults of the text.

Where a fault is depends on how much was read when it was noticed. Whoever reads knows only what is
left of the text, so a `Peg.Json.Flaw` says how many bytes were left. A `Peg.Json.Error` says it to
the writer of the text: the line, counted from one, and the number of bytes of that line that were
read. The one is made from the other with the whole text at hand (`Peg.Json.Flaw.locate`).
-/

namespace Peg.Json

/-! ### Places in a text -/

/-- The number of bytes that the characters take. -/
def bytes (cs : List Char) : Nat := cs.foldl (· + ·.utf8Size) 0

/-- A place in a text. -/
structure Position where
  /-- The line, counted from one. -/
  line : Nat := 1
  /-- The bytes of the line before the place. -/
  column : Nat := 0
deriving DecidableEq, Repr

/-- The place `n` bytes further on, which may be within a character. -/
def Position.past (p : Position) : (n : Nat) → List Char → Position
  | 0, _ | _, [] => p
  | n, c :: cs =>
    if c = '\n' then past ⟨p.line + 1, 0⟩ (n - 1) cs
    else past ⟨p.line, p.column + min n c.utf8Size⟩ (n - c.utf8Size) cs

/-! ### Faults -/

/-- What is wrong with a JSON text. -/
inductive Fault
  /-- The text ends where a value should be. -/
  | endInValue
  /-- The text ends inside a list. -/
  | endInList
  /-- The text ends inside an object. -/
  | endInObject
  /-- The text ends inside a string. -/
  | endInString
  /-- A name is not followed by a colon. -/
  | noColon
  /-- An element is followed neither by a comma nor by the end of the list. -/
  | noListEnd
  /-- A member is followed neither by a comma nor by the end of the object. -/
  | noObjectEnd
  /-- A word begins like a literal but is none. -/
  | noLiteral
  /-- There is no value. -/
  | noValue
  /-- The escape in a string is none. -/
  | escape
  /-- The number is none. -/
  | number
  /-- The number is greater than any double. -/
  | outOfRange
  /-- A control character stands in a string. -/
  | control
  /-- The name of a member is no string. -/
  | noName
  /-- A surrogate stands alone. -/
  | loneSurrogate
  /-- A leading surrogate is not followed by another escape. -/
  | surrogateEnd
  /-- A comma is followed by the end of the list or object. -/
  | trailingComma
  /-- There is more text after the value. -/
  | trailingText
  /-- A value of another type is expected. -/
  | type (found expected : String)
  /-- Another value of this type is expected. -/
  | range (found expected : String)
  /-- The member was given already. -/
  | duplicate (name : String)
deriving DecidableEq, Repr

/-- The fault in words. -/
def Fault.message : Fault → String
  | endInValue => "EOF while parsing a value"
  | endInList => "EOF while parsing a list"
  | endInObject => "EOF while parsing an object"
  | endInString => "EOF while parsing a string"
  | noColon => "expected `:`"
  | noListEnd => "expected `,` or `]`"
  | noObjectEnd => "expected `,` or `\x7d`"
  | noLiteral => "expected ident"
  | noValue => "expected value"
  | escape => "invalid escape"
  | number => "invalid number"
  | outOfRange => "number out of range"
  | control => "control character (\\u0000-\\u001F) found while parsing a string"
  | noName => "key must be a string"
  | loneSurrogate => "lone leading surrogate in hex escape"
  | surrogateEnd => "unexpected end of hex escape"
  | trailingComma => "trailing comma"
  | trailingText => "trailing characters"
  | type found expected => "invalid type: " ++ found ++ ", expected " ++ expected
  | range found expected => "invalid value: " ++ found ++ ", expected " ++ expected
  | duplicate name => "duplicate field `" ++ name ++ "`"

/-! ### Flaws and errors -/

/-- A fault, and how many bytes of the text were left when it was noticed. -/
structure Flaw where
  /-- What is wrong. -/
  fault : Fault
  /-- The bytes that were left. -/
  left : Nat
deriving DecidableEq, Repr

/-- A fault and where it was noticed. -/
structure Error where
  /-- What is wrong. -/
  fault : Fault
  /-- Where it was noticed. -/
  position : Position
deriving DecidableEq, Repr

/-- The error that a flaw of the text is. -/
def Flaw.locate (flaw : Flaw) (text : List Char) : Error :=
  { fault := flaw.fault
    position := Position.past {} (bytes text - flaw.left) text }

/-- The error in words. -/
def Error.message (e : Error) : String :=
  e.fault.message ++ " at line " ++ toString e.position.line ++ " column " ++
    toString e.position.column

end Peg.Json
