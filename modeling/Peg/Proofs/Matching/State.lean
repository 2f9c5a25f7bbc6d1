import Peg.Matching.State

/-!
# What the operations on a state change

Each operation on a `Peg.State` changes one thing and leaves the rest alone. The lemmas here say so
field by field, for the input, the offset, the log, the captures and the events, and are all that
later proofs use of these operations. The input is the one thing that none of them changes.

A text is compared with what is left of the input, `Peg.Reader.rest`, and comes next exactly when it
is a prefix of that (`Peg.Reader.startsWith_iff`).
-/

namespace Peg

namespace Reader

/-- The characters that have not been read yet. -/
def rest (r : Reader) : List Char := r.input.toList.drop r.offset

theorem rest_eq_cons {r : Reader} {c : Char} (h : r.current? = some c) :
    r.rest = c :: r.advance.rest := by
  obtain ⟨hlt, hc⟩ := Array.getElem?_eq_some_iff.mp h
  have hcons := List.drop_eq_getElem_cons (l := r.input.toList) (i := r.offset) (by simpa using hlt)
  rw [rest, hcons, advance, if_pos hlt, ← hc]
  rfl

theorem rest_eq_nil {r : Reader} (h : r.current? = none) : r.rest = [] := by
  have hle := Array.getElem?_eq_none_iff.mp h
  exact List.drop_eq_nil_of_le (by simpa using hle)

/-- **A text comes next exactly when it is a prefix of what is left.** -/
theorem startsWith_iff {r : Reader} {cs : List Char} : r.startsWith cs = true ↔ cs <+: r.rest := by
  induction cs generalizing r with
  | nil => simp [startsWith]
  | cons c cs ih =>
    rw [startsWith, Bool.and_eq_true, ih]
    rcases hr : r.current? with _ | d
    · simp [rest_eq_nil hr]
    · rw [rest_eq_cons hr, List.cons_prefix_cons, beq_iff_eq, Option.some.injEq, eq_comm]

end Reader

namespace State

variable (s : State)

/-! ### The input and the offset -/

@[simp]
theorem input_advance : s.advance.input = s.input := by
  simp only [advance, input, Reader.advance]
  split <;> rfl

@[simp]
theorem input_moveTo (n : Nat) : (s.moveTo n).input = s.input := rfl

@[simp]
theorem input_record (n : Nat) (f : Failure) : (s.record n f).input = s.input := rfl

@[simp]
theorem input_track (b : Bool) : (s.track b).input = s.input := rfl

@[simp]
theorem input_cutLog (n : Nat) : (s.cutLog n).input = s.input := rfl

@[simp]
theorem input_push (c : Capture) : (s.push c).input = s.input := rfl

@[simp]
theorem input_dropCaptures (n : Nat) : (s.dropCaptures n).input = s.input := rfl

@[simp]
theorem input_emit (e : Event) : (s.emit e).input = s.input := rfl

@[simp]
theorem input_restore (p : Snapshot) : (s.restore p).input = s.input := rfl

theorem offset_advance :
    s.advance.offset = if s.offset < s.input.size then s.offset + 1 else s.offset :=
  apply_ite Reader.offset _ _ _

/-- Stepping past a character goes on by one. -/
theorem offset_advance_of_lt (h : s.offset < s.input.size) : s.advance.offset = s.offset + 1 := by
  rw [offset_advance, if_pos h]

/-- Stepping past the end of the input stays there. -/
theorem offset_advance_of_le (h : s.input.size ≤ s.offset) : s.advance.offset = s.offset := by
  rw [offset_advance, if_neg (Nat.not_lt.mpr h)]

theorem offset_advance_le : s.advance.offset ≤ s.offset + 1 := by
  rw [offset_advance]
  split <;> omega

@[simp]
theorem offset_moveTo (n : Nat) : (s.moveTo n).offset = n := rfl

@[simp]
theorem offset_record (n : Nat) (f : Failure) : (s.record n f).offset = s.offset := rfl

@[simp]
theorem offset_track (b : Bool) : (s.track b).offset = s.offset := rfl

@[simp]
theorem offset_cutLog (n : Nat) : (s.cutLog n).offset = s.offset := rfl

@[simp]
theorem offset_push (c : Capture) : (s.push c).offset = s.offset := rfl

@[simp]
theorem offset_dropCaptures (n : Nat) : (s.dropCaptures n).offset = s.offset := rfl

@[simp]
theorem offset_emit (e : Event) : (s.emit e).offset = s.offset := rfl

@[simp]
theorem offset_restore (p : Snapshot) : (s.restore p).offset = p.offset := rfl

@[simp]
theorem offset_snapshot : s.snapshot.offset = s.offset := rfl

/-! ### The log -/

@[simp]
theorem log_advance : s.advance.log = s.log := rfl

@[simp]
theorem log_moveTo (n : Nat) : (s.moveTo n).log = s.log := rfl

@[simp]
theorem log_record (n : Nat) (f : Failure) : (s.record n f).log = s.log.add n f := rfl

@[simp]
theorem log_track (b : Bool) : (s.track b).log = { s.log with tracking := b } := rfl

@[simp]
theorem log_cutLog (n : Nat) : (s.cutLog n).log = s.log.cutTo n := rfl

@[simp]
theorem log_push (c : Capture) : (s.push c).log = s.log := rfl

@[simp]
theorem log_dropCaptures (n : Nat) : (s.dropCaptures n).log = s.log := rfl

@[simp]
theorem log_emit (e : Event) : (s.emit e).log = s.log := rfl

@[simp]
theorem log_restore (p : Snapshot) : (s.restore p).log = s.log := rfl

/-! ### The captures -/

@[simp]
theorem captures_advance : s.advance.captures = s.captures := rfl

@[simp]
theorem captures_moveTo (n : Nat) : (s.moveTo n).captures = s.captures := rfl

@[simp]
theorem captures_record (n : Nat) (f : Failure) : (s.record n f).captures = s.captures := rfl

@[simp]
theorem captures_track (b : Bool) : (s.track b).captures = s.captures := rfl

@[simp]
theorem captures_cutLog (n : Nat) : (s.cutLog n).captures = s.captures := rfl

@[simp]
theorem captures_push (c : Capture) : (s.push c).captures = s.captures.push c := rfl

@[simp]
theorem captures_dropCaptures (n : Nat) : (s.dropCaptures n).captures = s.captures.take n := by
  simp [dropCaptures]

@[simp]
theorem captures_emit (e : Event) : (s.emit e).captures = s.captures := rfl

@[simp]
theorem captures_restore (p : Snapshot) : (s.restore p).captures = s.captures.take p.captures := by
  simp [restore]

@[simp]
theorem captures_snapshot : s.snapshot.captures = s.captures.size := rfl

/-! ### The events -/

@[simp]
theorem trace_advance : s.advance.trace = s.trace := rfl

@[simp]
theorem trace_moveTo (n : Nat) : (s.moveTo n).trace = s.trace := rfl

@[simp]
theorem trace_record (n : Nat) (f : Failure) : (s.record n f).trace = s.trace := rfl

@[simp]
theorem trace_track (b : Bool) : (s.track b).trace = s.trace := rfl

@[simp]
theorem trace_cutLog (n : Nat) : (s.cutLog n).trace = s.trace := rfl

@[simp]
theorem trace_push (c : Capture) : (s.push c).trace = s.trace := rfl

@[simp]
theorem trace_dropCaptures (n : Nat) : (s.dropCaptures n).trace = s.trace := rfl

@[simp]
theorem trace_emit (e : Event) : (s.emit e).trace = s.trace.push e := rfl

@[simp]
theorem trace_restore (p : Snapshot) : (s.restore p).trace = s.trace := rfl

end State

end Peg
