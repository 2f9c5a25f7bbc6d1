import Peg.Json.Decoder
import Peg.Text.Hex

/-!
# Strings in a JSON text

A string is read up to its closing quote; the opening one has been taken already. In it an escape is
a backslash and a letter that stands for a character, or `\u` and the number of a UTF-16 unit in
four digits; a character of two units is written as two such escapes, first the leading surrogate
and then the trailing one.

Who wants the content (`Peg.Json.Decoder.string`) wants a character for each surrogate. To get past
a string (`Peg.Json.Decoder.skipString`) it is enough that its escapes are escapes.
-/

namespace Peg.Json

/-! ### Escapes -/

/-- What a letter after a backslash stands for. -/
def unescape? (c : Char) : Option Char :=
  match c with
  | '"' | '\\' | '/' => some c
  | 'b' => some '\x08'
  | 'f' => some '\x0c'
  | 'n' => some '\n'
  | 'r' => some '\r'
  | 't' => some '\t'
  | _ => none

/-- Whether the unit is a leading surrogate. -/
def isLeading (n : Nat) : Bool := 0xd800 ≤ n && n ≤ 0xdbff

/-- Whether the unit is a trailing surrogate. -/
def isTrailing (n : Nat) : Bool := 0xdc00 ≤ n && n ≤ 0xdfff

/-- The character that is meant with a leading and a trailing surrogate. -/
def ofSurrogates (leading trailing : Nat) : Char :=
  Char.ofNat (0x10000 + (leading - 0xd800) * 0x400 + (trailing - 0xdc00))

/-- Whether the character may only be written as an escape. -/
def isControl (c : Char) : Bool := c.toNat < 0x20

/-- The flaw of a `\u` that is not followed by four digits. Four bytes are read to see that. -/
def Flaw.ofUnit (rest : List Char) : Flaw :=
  if bytes rest < 4 then ⟨.endInString, 0⟩ else ⟨.escape, bytes rest - 4⟩

namespace Decoder

/-! ### Strings -/

/-- The characters up to the closing quote, after those in `before`, which come last one first. If a
leading surrogate was the last thing in the string, then it is `leading`. -/
def stringAfter (before : List Char) (leading : Option Nat) :
    List Char → Except Flaw (String × List Char)
  | [] => .error ⟨.endInString, 0⟩
  | '\\' :: 'u' :: a :: b :: c :: d :: rest =>
    match leading, Text.hex4? a b c d with
    | _, none => .error (.ofUnit (a :: b :: c :: d :: rest))
    | some u, some v =>
      if isTrailing v then stringAfter (ofSurrogates u v :: before) none rest
      else .error ⟨.loneSurrogate, bytes rest⟩
    | none, some v =>
      if isTrailing v then .error ⟨.loneSurrogate, bytes rest⟩
      else if isLeading v then stringAfter before (some v) rest
      else stringAfter (Char.ofNat v :: before) none rest
  | '\\' :: 'u' :: rest => .error (.ofUnit rest)
  | ['\\'] => .error ⟨.endInString, 0⟩
  | '\\' :: c :: rest =>
    match leading, unescape? c with
    | some _, _ => .error ⟨.surrogateEnd, bytes (c :: rest) - 1⟩
    | none, none => .error ⟨.escape, bytes (c :: rest) - 1⟩
    | none, some e => stringAfter (e :: before) none rest
  | c :: rest =>
    if leading.isSome then .error ⟨.surrogateEnd, bytes (c :: rest) - 1⟩
    else if c = '"' then .ok (String.ofList before.reverse, rest)
    else if isControl c then .error ⟨.control, bytes rest⟩
    else stringAfter (c :: before) none rest

/-- The content of a string. -/
def string : Decoder String := stringAfter [] none

/-- The text after a string. A control character is left in it. -/
def afterString : List Char → Except Flaw (List Char)
  | [] => .error ⟨.endInString, 0⟩
  | '\\' :: 'u' :: a :: b :: c :: d :: rest =>
    if (Text.hex4? a b c d).isSome then afterString rest
    else .error (.ofUnit (a :: b :: c :: d :: rest))
  | '\\' :: 'u' :: rest => .error (.ofUnit rest)
  | ['\\'] => .error ⟨.endInString, 0⟩
  | '\\' :: c :: rest =>
    if (unescape? c).isSome then afterString rest
    else .error ⟨.escape, bytes (c :: rest) - 1⟩
  | c :: rest =>
    if c = '"' then .ok rest
    else if isControl c then .error ⟨.control, bytes (c :: rest)⟩
    else afterString rest

/-- Takes a string. -/
def skipString : Decoder Unit := fun cs => (afterString cs).map ((), ·)

end Decoder

end Peg.Json
