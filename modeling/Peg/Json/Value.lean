import Peg.Text.Hex

/-!
# JSON values and their texts

A JSON value as it is written out: the members of an object keep their order, and numbers are whole.
There are two ways to write one down: `Peg.Json.compact` puts nothing between the parts but what the
format asks for, and `Peg.Json.pretty` gives every element and member a line of its own, indented by
two blanks for each level; a list or an object of nothing stays on its line in both.
-/

namespace Peg

/-- A JSON value. -/
inductive Json
  /-- The literal `null`. -/
  | null
  /-- A truth value. -/
  | bool (b : Bool)
  /-- A whole number. -/
  | int (i : Int)
  /-- A string. -/
  | str (s : String)
  /-- A list. -/
  | arr (elements : List Json)
  /-- Members, in the order in which they are written. -/
  | obj (members : List (String × Json))

namespace Json

/-! ### Strings -/

/-- A character inside a JSON string. Control characters that have no short escape are written by
number, in four digits. -/
def escape (c : Char) : List Char :=
  if c = '"' then ['\\', '"']
  else if c = '\\' then ['\\', '\\']
  else if c = '\x08' then ['\\', 'b']
  else if c = '\x0c' then ['\\', 'f']
  else if c = '\n' then ['\\', 'n']
  else if c = '\r' then ['\\', 'r']
  else if c = '\t' then ['\\', 't']
  else if c.toNat < 0x20 then
    ['\\', 'u', '0', '0', Text.hexDigit (c.toNat / 16), Text.hexDigit c.toNat]
  else [c]

/-- A string as JSON text. -/
def quote (s : String) : String :=
  String.ofList ('"' :: (s.toList.flatMap escape ++ ['"']))

/-! ### Values -/

/-- The parts of a list or an object, between its brackets and with `separator` between them. -/
def enclose (opening separator closing : String) (parts : List String) : String :=
  opening ++ separator.intercalate parts ++ closing

/-- A new line at the given level. -/
def newline (level : Nat) : String :=
  String.ofList ('\n' :: List.replicate (2 * level) ' ')

/-- The parts of a list or an object, each on a line of its own one level further in. -/
def layOut (level : Nat) (opening closing : String) (parts : List String) : String :=
  if parts.isEmpty then opening ++ closing
  else enclose (opening ++ newline (level + 1)) ("," ++ newline (level + 1))
    (newline level ++ closing) parts

/-- Opens an object. -/
def openBrace : String := "\x7b"

/-- Closes an object. -/
def closeBrace : String := "\x7d"

mutual

/-- The value as text without blanks. -/
def compact : Json → String
  | null => "null"
  | bool b => toString b
  | int i => toString i
  | str s => quote s
  | arr elements => enclose "[" "," "]" (compactElements elements)
  | obj members => enclose openBrace "," closeBrace (compactMembers members)

/-- The text of each element. -/
def compactElements : List Json → List String
  | [] => []
  | value :: rest => value.compact :: compactElements rest

/-- The text of each member. -/
def compactMembers : List (String × Json) → List String
  | [] => []
  | (name, value) :: rest => (quote name ++ ":" ++ value.compact) :: compactMembers rest

end

mutual

/-- The value as text on several lines, of which the first is already at the given level. -/
def pretty (level : Nat) : Json → String
  | null => "null"
  | bool b => toString b
  | int i => toString i
  | str s => quote s
  | arr elements => layOut level "[" "]" (prettyElements (level + 1) elements)
  | obj members => layOut level openBrace closeBrace (prettyMembers (level + 1) members)

/-- The text of each element. -/
def prettyElements (level : Nat) : List Json → List String
  | [] => []
  | value :: rest => value.pretty level :: prettyElements level rest

/-- The text of each member. -/
def prettyMembers (level : Nat) : List (String × Json) → List String
  | [] => []
  | (name, value) :: rest =>
    (quote name ++ ": " ++ value.pretty level) :: prettyMembers level rest

end

end Json

end Peg
