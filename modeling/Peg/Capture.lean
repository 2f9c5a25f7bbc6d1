/-!
# Captures

A capture is a range of characters kept as one 64-bit word: the offset where the range stops in the
high half, the offset where it starts in the low half, each of them a signed 32-bit number. One word
is set aside for "nothing was captured": the pair `(-1, -1)`, whose bits are all ones.

The two halves of a word say everything about it: `Peg.Capture.pack` undoes `Peg.Capture.start` and
`Peg.Capture.stop`, and they undo it (`Peg.Capture.start_pack`, `Peg.Capture.stop_pack`,
`Peg.Capture.pack_start_stop`). A word need not come from a match, since it can be read from
outside; its halves may then be negative or out of order, and the range they denote is still
defined (`Peg.Capture.range?`).
-/

namespace Peg

/-- A range of characters in one word. -/
structure Capture where
  /-- The stop offset in the high half and the start offset in the low half. -/
  word : Int64
deriving DecidableEq, Repr

namespace Capture

/-- Both offsets in one word. -/
def pack (start stop : Int32) : Capture :=
  ⟨Int64.ofBitVec (stop.toBitVec ++ start.toBitVec)⟩

/-- The low half of the word. -/
def start (c : Capture) : Int32 :=
  Int32.ofBitVec (c.word.toBitVec.extractLsb' 0 32)

/-- The high half of the word. -/
def stop (c : Capture) : Int32 :=
  Int32.ofBitVec (c.word.toBitVec.extractLsb' 32 32)

/-- The word set aside for "nothing was captured". -/
def empty : Capture := pack (-1) (-1)

instance : Inhabited Capture := ⟨empty⟩

/-- Whether the word is the one set aside. -/
def isEmpty (c : Capture) : Bool := c == empty

/-- The greatest offset a half can hold. -/
def maxOffset : Nat := 0x7fffffff

/-- The capture of the characters from `start` up to `stop`, for offsets up to
`Peg.Capture.maxOffset`. -/
def ofRange (start stop : Nat) : Capture :=
  pack (Int32.ofNat start) (Int32.ofNat stop)

/-- The offset that a half stands for: its sign is extended to 64 bits, which are then read as an
unsigned number, so that a negative half is an offset far past the end of any input. -/
def offset (half : Int32) : Nat :=
  (half.toBitVec.signExtend 64).toNat

/-- The offsets where the range starts and stops, unless nothing was captured. -/
def range? (c : Capture) : Option (Nat × Nat) :=
  if c.isEmpty then none else some (offset c.start, offset c.stop)

/-- The number of characters in the range; none if it stops before it starts. -/
def length (c : Capture) : Nat :=
  match c.range? with
  | none => 0
  | some (start, stop) => stop - start

/-- The word as a number. -/
def toInt (c : Capture) : Int := c.word.toInt

/-- The range as a person reads it. -/
def describe (c : Capture) : String :=
  if c.isEmpty then "CapturePosition(empty)"
  else "CapturePosition(" ++ toString c.start.toInt ++ ".." ++ toString c.stop.toInt ++ ")"

/-! ### The two halves of a word -/

@[simp]
theorem start_pack (start stop : Int32) : (pack start stop).start = start :=
  Int32.toBitVec.inj BitVec.extractLsb'_append_eq_right

@[simp]
theorem stop_pack (start stop : Int32) : (pack start stop).stop = stop :=
  Int32.toBitVec.inj BitVec.extractLsb'_append_eq_left

theorem pack_start_stop (c : Capture) : pack c.start c.stop = c := by
  cases c with
  | mk word =>
    refine congrArg mk (Int64.toBitVec.inj ?_)
    change word.toBitVec.extractLsb' (0 + 32) 32 ++ word.toBitVec.extractLsb' 0 32 = word.toBitVec
    rw [BitVec.extractLsb'_append_extractLsb'_eq_extractLsb' rfl]
    exact BitVec.extractLsb'_eq_self

end Capture

end Peg
