import Peg.Matching.Script

/-!
# What the combinators answer

For each combinator of `Peg.Matcher` one equivalence says from which answers of its parts an answer
of its own arises, with the state it leaves behind. Read from left to right it takes an answer
apart, and read from right to left it puts one together. A native rule that asks for something puts
the answer in front of what it does next (`Peg.Script.run_ask_eq_some`).
-/

namespace Peg.Matcher

variable {m first second : Matcher} {s t : State} {b : Bool}

/-! ### Putting something around a matcher -/

theorem rollback_eq_some :
    rollback m s = (some b, t) ↔
      (b = true ∧ m s = (some true, t)) ∨
        (b = false ∧ ∃ u, m s = (some false, u) ∧ t = u.dropCaptures s.captures.size) := by
  rw [rollback]
  rcases m s with ⟨_ | _ | _, u⟩ <;> simp [eq_comm]

theorem recording_eq_some {f : Failure} :
    recording f m s = (some b, t) ↔
      (b = true ∧ m s = (some true, t)) ∨
        (b = false ∧ ∃ u, m s = (some false, u) ∧ t = u.record s.offset f) := by
  rw [recording]
  rcases m s with ⟨_ | _ | _, u⟩ <;> simp [eq_comm]

theorem captured_eq_some :
    captured m s = (some b, t) ↔
      (b = true ∧ ∃ u, m s = (some true, u) ∧ t = u.push (Capture.ofRange s.offset u.offset)) ∨
        (b = false ∧ m s = (some false, t)) := by
  rw [captured]
  rcases m s with ⟨_ | _ | _, u⟩ <;> simp [eq_comm]

theorem traced_eq_some {rule : String} :
    traced rule m s = (some b, t) ↔
      ∃ u, m (s.emit (.enter rule s.offset)) = (some b, u) ∧
        t = u.emit (.exit rule u.offset b) := by
  rw [traced]
  rcases m (s.emit (.enter rule s.offset)) with ⟨_ | _ | _, u⟩ <;> cases b <;> simp [eq_comm]

/-! ### Looking ahead -/

theorem ahead_eq_some :
    ahead m s = (some b, t) ↔
      (b = true ∧ ∃ u, m s = (some true, u) ∧ t = u.restore s.snapshot) ∨
        (b = false ∧ ∃ u, m s = (some false, u) ∧
          t = (u.restore s.snapshot).record s.offset .ahead) := by
  rw [ahead, recording, peeking]
  rcases m s with ⟨_ | _ | _, u⟩ <;> cases b <;> simp [eq_comm]

theorem notAhead_eq_some :
    notAhead m s = (some b, t) ↔
      (b = true ∧ ∃ u, m s = (some false, u) ∧ t = u.restore s.snapshot) ∨
        (b = false ∧ ∃ u, m s = (some true, u) ∧
          t = (u.restore s.snapshot).record s.offset .notAhead) := by
  rw [notAhead, recording, negated, peeking]
  rcases m s with ⟨_ | _ | _, u⟩ <;> cases b <;> simp [eq_comm]

/-! ### Several attempts -/

theorem sequence_eq_some :
    sequence first second s = (some b, t) ↔
      (b = false ∧ ∃ u, first s = (some false, u) ∧
          t = (u.moveTo s.offset).record s.offset .sequence) ∨
        (b = false ∧ ∃ u v, first s = (some true, u) ∧ second u = (some false, v) ∧
          t = v.record s.offset .sequence) ∨
        (b = true ∧ ∃ u, first s = (some true, u) ∧ second u = (some true, t)) := by
  rw [sequence, recording, andThen, returning]
  rcases first s with ⟨_ | _ | _, u⟩
  · simp
  · cases b <;> simp [eq_comm]
  · rcases h : second u with ⟨_ | _ | _, v⟩ <;> cases b <;> simp [h, eq_comm]

theorem choice_eq_some :
    choice first second s = (some b, t) ↔
      (b = true ∧ first s = (some true, t)) ∨
        (b = true ∧ ∃ u v, first s = (some false, u) ∧
          second (u.moveTo s.offset) = (some true, v) ∧ t = v.cutLog s.log.records.size) ∨
        (b = false ∧ ∃ u v, first s = (some false, u) ∧
          second (u.moveTo s.offset) = (some false, v) ∧ t = v.record s.offset .choice) := by
  rw [choice]
  rcases first s with ⟨_ | _ | _, u⟩
  · simp
  · rcases h : second (u.moveTo s.offset) with ⟨_ | _ | _, v⟩ <;> cases b <;> simp [h, eq_comm]
  · cases b <;> simp

theorem optional_eq_some :
    optional m s = (some b, t) ↔
      b = true ∧ (m s = (some true, t) ∨ ∃ u, m s = (some false, u) ∧ t = u.moveTo s.offset) := by
  rw [optional, returning]
  rcases m s with ⟨_ | _ | _, u⟩ <;> cases b <;> simp [eq_comm]

/-! ### Repetitions -/

theorem iterate_succ_eq_some {bound mark : Nat} :
    iterate m (bound + 1) mark s = (some b, t) ↔
      (b = true ∧ ∃ u, m s = (some false, u) ∧ t = u.moveTo mark) ∨
        (b = true ∧ m s = (some true, t) ∧ t.offset = mark) ∨
        ∃ u, m s = (some true, u) ∧ u.offset ≠ mark ∧ iterate m bound u.offset u = (some b, t) := by
  rw [iterate]
  rcases m s with ⟨_ | _ | _, u⟩
  · simp
  · simp [eq_comm]
  · by_cases hu : u.offset = mark
    · -- the round that matched is the last one
      simp only [if_pos hu]
      cases b <;> simp +contextual [hu, eq_comm]
    · have hlast : ¬(u = t ∧ t.offset = mark) := by
        rintro ⟨rfl, ht⟩
        exact hu ht
      simp [hu, hlast]

/-- A repetition that is answered has had a round. -/
theorem iterate_eq_some {bound mark : Nat} (h : iterate m bound mark s = (some b, t)) :
    ∃ k, bound = k + 1 := by
  cases bound with
  | zero => simp [iterate] at h
  | succ k => exact ⟨k, rfl⟩

theorem repeated_eq_some {bound : Nat} :
    repeated bound m s = (some b, t) ↔
      ∃ u, iterate m bound s.offset (s.track false) = (some b, u) ∧
        t = u.track s.log.tracking := by
  rw [repeated]
  rcases iterate m bound s.offset (s.track false) with ⟨_ | c, u⟩
  · simp
  · simp [eq_comm, and_assoc]

/-! ### Single pieces of text -/

theorem literal_eq_some {text : String} :
    literal text s = (some b, t) ↔
      (b = true ∧ s.reader.startsWith text.toList = true ∧
          t = s.moveTo (s.offset + text.length)) ∨
        (b = false ∧ s.reader.startsWith text.toList = false ∧
          t = s.record s.offset (.literal text)) := by
  rw [literal, recording]
  cases h : s.reader.startsWith text.toList <;> cases b <;> simp [eq_comm]

theorem single_eq_some {accept : Option Char → Bool} {f : Failure} :
    single accept f s = (some b, t) ↔
      (b = true ∧ accept s.reader.current? = true ∧ t = s.advance) ∨
        (b = false ∧ accept s.reader.current? = false ∧
          t = s.advance.record s.offset f) := by
  rw [single, recording]
  cases h : accept s.reader.current? <;> cases b <;> simp [eq_comm]

end Peg.Matcher

/-! ### Native rules -/

theorem Peg.Script.run_ask_eq_some {attempt : Goal → Matcher} {goal : Goal} {s t : State}
    {resume : Bool → State → Script} {b : Bool} :
    (ask goal s resume).run attempt = (some b, t) ↔
      ∃ c u, attempt goal s = (some c, u) ∧ (resume c u).run attempt = (some b, t) := by
  rw [run]
  rcases attempt goal s with ⟨_ | c, u⟩
  · simp
  · cases c <;> simp
