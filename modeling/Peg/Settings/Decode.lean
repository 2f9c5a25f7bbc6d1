import Peg.Json.Decode
import Peg.Settings

/-!
# Settings from JSON

Settings are read from an object of which every member may be missing, or from a list of their
values, of which the last ones may be missing. What is missing keeps its default. Members of other
names are skipped, whatever they hold, but no setting may be given twice.
-/

namespace Peg

open Json (Decoder)
open Json.Decoder (next drop fail refuse)

/-- The settings that a text has given so far. -/
structure Settings.Given where
  /-- Whether failures are put on record. -/
  tracking : Option Bool := none
  /-- The length of the longest input that is wanted. -/
  limit : Option Nat := none

namespace Settings.Given

/-- The settings that are given, and defaults for the others. -/
def settings (g : Given) : Settings :=
  { tracking := g.tracking.getD ({} : Settings).tracking
    limit := g.limit.getD ({} : Settings).limit }

/-- Takes the first setting. -/
def takeTracking (g : Given) : Decoder Given :=
  return { g with tracking := some (← Decoder.bool) }

/-- Takes the second setting. -/
def takeLimit (g : Given) : Decoder Given :=
  return { g with limit := some (← Decoder.int 0 0xffffffffffffffff "usize").toNat }

/-- Whether the setting of this name has been given. -/
def has (g : Given) : String → Bool
  | "track_errors" => g.tracking.isSome
  | "max_input_len" => g.limit.isSome
  | _ => false

/-- Takes the value of the member of this name, which is skipped if it is no setting. -/
def takeValue (g : Given) : String → Decoder Given
  | "track_errors" => g.takeTracking
  | "max_input_len" => g.takeLimit
  | _ => do
    Decoder.skip
    return g

/-- Fails because the setting of this name has been given before. That is noticed at the word after
the name, or behind it if that is the end of the object. -/
def duplicate (name : String) : Decoder Given := do
  if (← next) = some '\x7d' then refuse (.duplicate name) else fail (.duplicate name)

/-- Takes a member. -/
def takeMember (g : Given) : Decoder Given := do
  let name ← Decoder.name
  if g.has name then duplicate name
  else
    Decoder.colon
    g.takeValue name

/-- Takes the members of an object from one of its names on, of which there are no more than
`bound`, and the end of the object. -/
def takeMembers (bound : Nat) (g : Given) : Decoder Given := do
  let g ← g.takeMember
  match bound, ← Decoder.separator .object with
  | _, false => drop; return g
  | 0, true => fail .endInObject
  | bound + 1, true => g.takeMembers bound

/-- Takes the settings in an object that has been opened. It has no more members than the text has
characters. -/
def takeObject : Decoder Given := do
  match ← next with
  | none => refuse .endInObject
  | some '\x7d' => drop; return {}
  | some _ => takeMembers (← get).length {}

/-- Takes the settings in a list that has been opened, in their order. -/
def takeList : Decoder Given := do
  match ← next with
  | none => refuse .endInList
  | some ']' => drop; return {}
  | some _ =>
    let g ← takeTracking {}
    let g ← if ← Decoder.separator .list then g.takeLimit else pure g
    Decoder.listEnd
    return g

/-- Takes the settings in an object or a list. -/
def take : Decoder Given := do
  match ← next with
  | some '\x7b' => drop; takeObject
  | some '[' => drop; takeList
  | _ => Decoder.wrongType "struct ParserConfig"

end Settings.Given

/-- Reads settings from a JSON text. -/
def Settings.ofJson (text : String) : Except Json.Error Settings :=
  (Given.settings <$> Given.take).decode text

end Peg
