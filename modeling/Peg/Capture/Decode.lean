import Peg.Capture
import Peg.Json.Decode

/-!
# Captures from JSON

A capture is read from the number that it is written as, which may be any that fits a word.
-/

namespace Peg

/-- Reads a capture from a JSON text. -/
def Capture.ofJson (text : String) : Except Json.Error Capture :=
  (Json.Decoder.int (-0x8000000000000000) 0x7fffffffffffffff "i64").decode text |>.map fun i => ⟨Int64.ofInt i⟩

end Peg
