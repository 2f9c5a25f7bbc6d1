import Peg.Capture
import Peg.Json.Value

/-!
# Settings of a parser

Two things can be set: whether failures are put on record, and how long an input may be. Whatever is
asked for, no input is longer than the offsets of captures reach (`Peg.Settings.effectiveLimit`).
-/

namespace Peg

/-- What can be set for a parser. -/
structure Settings where
  /-- Whether failures are put on record. -/
  tracking : Bool := true
  /-- The length of the longest input that is wanted. -/
  limit : Nat := Capture.maxOffset
deriving DecidableEq, Repr

namespace Settings

/-- The length of the longest input that is parsed. -/
def effectiveLimit (s : Settings) : Nat := min s.limit Capture.maxOffset

/-- The settings as a JSON object. -/
def toJson (s : Settings) : Json :=
  .obj [("track_errors", .bool s.tracking), ("max_input_len", .int s.limit)]

end Settings

end Peg
