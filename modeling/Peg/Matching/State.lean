import Peg.Diagnostic
import Peg.Event

/-!
# The state of a parse

Everything that matching changes: how far the input has been read, the log of failures, the captures
made so far, and the events. Nothing here is shared between parses.

Captures only ever grow at the end, and giving up on an attempt means cutting the list back to its
length at the time (`Peg.State.dropCaptures`). A `Peg.Snapshot` is what has to be remembered to
undo an attempt: the offset and that length. The log is not part of it, since what failed on the
way stays worth knowing.
-/

namespace Peg

/-- The state of a parse. -/
structure State where
  /-- The input and how far it has been read. -/
  reader : Reader
  /-- The failures so far. -/
  log : Log := {}
  /-- The captures so far, in the order in which they were completed. -/
  captures : Array Capture := #[]
  /-- The entries into rules and exits from them so far. -/
  trace : Array Event := #[]
deriving DecidableEq, Repr

/-- An offset and a number of captures. -/
structure Snapshot where
  /-- How far the input had been read. -/
  offset : Nat
  /-- How many captures there were. -/
  captures : Nat
deriving DecidableEq, Repr

namespace State

/-- A parse about to begin at the start of the input. -/
def ofReader (reader : Reader) : State := { reader }

/-- The characters of the input. -/
def input (s : State) : Array Char := s.reader.input

/-- How far the input has been read. -/
def offset (s : State) : Nat := s.reader.offset

/-- Past the next character. -/
def advance (s : State) : State := { s with reader := s.reader.advance }

/-- At another offset of the input. -/
def moveTo (s : State) (offset : Nat) : State := { s with reader := s.reader.moveTo offset }

/-- With a failure added to the log, unless that is muted. -/
def record (s : State) (position : Nat) (failure : Failure) : State :=
  { s with log := s.log.add position failure }

/-- With the log listening or muted. -/
def track (s : State) (tracking : Bool) : State :=
  { s with log := { s.log with tracking } }

/-- With the first `count` failures of the log only. -/
def cutLog (s : State) (count : Nat) : State := { s with log := s.log.cutTo count }

/-- With one more capture. -/
def push (s : State) (c : Capture) : State := { s with captures := s.captures.push c }

/-- With the first `count` captures only. -/
def dropCaptures (s : State) (count : Nat) : State :=
  { s with captures := s.captures.shrink count }

/-- With one more event. -/
def emit (s : State) (e : Event) : State := { s with trace := s.trace.push e }

/-- What has to be remembered to come back here. -/
def snapshot (s : State) : Snapshot := ⟨s.offset, s.captures.size⟩

/-- Back at the offset of a snapshot, with the captures there were then. -/
def restore (s : State) (p : Snapshot) : State := (s.moveTo p.offset).dropCaptures p.captures

end State

end Peg
