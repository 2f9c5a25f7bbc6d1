import Peg.Proofs.Matching.Logging
import Peg.Proofs.Matching.Translation

/-!
# What an evaluation adds

In a grammar of trees, all that evaluating an expression does to a state is to leave the input at some
offset and to add something to the log, to the captures and to the events: a `Peg.Effect`. That the
expression has an effect in a state (`Peg.Grammar.Does`) is a statement about its evaluation there, and
every evaluation that comes to an end is of this kind (`Peg.Grammar.AllTrees.evaluate_iff_does`).

The effect is a matter of the input, of the offset and of whether the log listens. What is on record by
then, what is captured and what was reported plays no part in it
(`Peg.Grammar.AllTrees.does_congr`). So an expression that is tried again from where another one began
has the effect that it would have had in the first place.
-/

namespace Peg

/-- **What evaluating an expression does to a state**: where it leaves the input, and what it adds. -/
structure Effect where
  /-- The offset where the input is left. -/
  stop : Nat
  /-- What is put on record. -/
  records : List Diagnostic := []
  /-- What is captured. -/
  captures : List Capture := []
  /-- The entries into rules and exits from them. -/
  events : List Event := []

/-- One effect after the other. -/
def Effect.andThen (x y : Effect) : Effect where
  stop := y.stop
  records := x.records ++ y.records
  captures := x.captures ++ y.captures
  events := x.events ++ y.events

/-- What a log takes in when something that fails at each of the offsets is put on record. -/
def Log.notes (l : Log) (f : Failure) (ps : List Nat) : List Diagnostic :=
  if l.tracking then ps.map (⟨·, f⟩) else []

theorem Log.notes_append (l : Log) (f : Failure) (ps qs : List Nat) :
    l.notes f (ps ++ qs) = l.notes f ps ++ l.notes f qs := by
  cases hl : l.tracking <;> simp [notes, hl]

/-- What was added to a list is cut off again. -/
theorem shrink_append_toList {α : Type} (xs : Array α) (ys : List α) :
    (xs ++ ys).shrink xs.size = xs := by
  apply Array.toList_inj.mp
  simp

/-! ### Moving on by nothing -/

theorem Diagnostic.shift_zero (d : Diagnostic) : d.shift 0 = d := by
  rw [shift, Nat.zero_add]

theorem Capture.shift_zero (c : Capture) : c.shift 0 = c := by
  have hzero : Int32.ofNat 0 = 0 := rfl
  rw [shift, hzero, Int32.zero_add, Int32.zero_add, pack_start_stop]

theorem Event.shift_zero (e : Event) : e.shift 0 = e := by
  cases e <;> simp [shift]

/-! ### States with an effect on them -/

namespace State

/-- The state in which an effect leaves this one. -/
def followedBy (s : State) (x : Effect) : State where
  reader := s.reader.moveTo x.stop
  log := { s.log with records := s.log.records ++ x.records }
  captures := s.captures ++ x.captures
  trace := s.trace ++ x.events

variable {s t : State} {x y : Effect}

theorem followedBy_inj : s.followedBy x = s.followedBy y ↔ x = y := by
  refine ⟨fun h => ?_, fun h => h ▸ rfl⟩
  obtain ⟨p, ds, cs, es⟩ := x
  obtain ⟨q, ds', cs', es'⟩ := y
  simpa [followedBy, Reader.moveTo, ← Array.toList_inj] using h

@[simp]
theorem offset_followedBy (s : State) (x : Effect) : (s.followedBy x).offset = x.stop := rfl

@[simp]
theorem notes_log_followedBy (s : State) (x : Effect) (f : Failure) (ps : List Nat) :
    (s.followedBy x).log.notes f ps = s.log.notes f ps := rfl

@[simp]
theorem followedBy_stop_offset (s : State) : s.followedBy { stop := s.offset } = s := by
  simp [followedBy, Reader.moveTo, State.offset]

theorem eq_followedBy_iff : s = s.followedBy x ↔ x = { stop := s.offset } := by
  constructor
  · intro h
    exact followedBy_inj.mp (h.symm.trans s.followedBy_stop_offset.symm)
  · rintro rfl
    exact s.followedBy_stop_offset.symm

@[simp]
theorem followedBy_followedBy (s : State) (x y : Effect) :
    (s.followedBy x).followedBy y = s.followedBy (x.andThen y) := by
  simp [followedBy, Effect.andThen, Reader.moveTo, ← Array.toList_inj]

@[simp]
theorem moveTo_followedBy (s : State) (x : Effect) (p : Nat) :
    (s.followedBy x).moveTo p = s.followedBy { x with stop := p } := rfl

@[simp]
theorem record_followedBy (s : State) (x : Effect) (p : Nat) (f : Failure) :
    (s.followedBy x).record p f =
      s.followedBy { x with records := x.records ++ s.log.notes f [p] } := by
  cases hl : s.log.tracking <;>
    simp [followedBy, record, Log.add, Log.notes, hl, ← Array.toList_inj]

@[simp]
theorem cutLog_followedBy (s : State) (x : Effect) :
    (s.followedBy x).cutLog s.log.records.size = s.followedBy { x with records := [] } := by
  simp only [followedBy, cutLog, Log.cutTo, shrink_append_toList]
  simp

@[simp]
theorem dropCaptures_followedBy (s : State) (x : Effect) :
    (s.followedBy x).dropCaptures s.captures.size = s.followedBy { x with captures := [] } := by
  simp only [followedBy, dropCaptures, shrink_append_toList]
  simp

/-- The state with nothing on record, captured or reported. -/
def fresh (s : State) : State where
  reader := s.reader
  log := { tracking := s.log.tracking }

/-- What is on record, captured and reported, without any input. -/
def context (s : State) : State := { s with reader := { input := #[] } }

/-- What a state has that a fresh one has not. -/
def effect (s : State) : Effect where
  stop := s.offset
  records := s.log.records.toList
  captures := s.captures.toList
  events := s.trace.toList

/-- Put behind what was there before, what a state has is an effect. -/
theorem context_after (hi : t.input = s.input) (ht : t.log.tracking = s.log.tracking) :
    s.context.after t = s.followedBy t.effect := by
  obtain ⟨⟨input, offset⟩, ⟨records, tracking⟩, captures, trace⟩ := t
  obtain rfl : input = _ := hi
  obtain rfl : tracking = _ := ht
  simp [after, context, followedBy, effect, State.input, State.offset, Reader.moveTo,
    Diagnostic.shift_zero, Capture.shift_zero, Event.shift_zero, ← Array.toList_inj]

end State

/-! ### The effects of expressions -/

namespace Grammar

variable {g : Grammar} {e : Expr} {s s' t : State} {c : Bool} {x y : Effect}

/-- **The expression has the effect** in the state, and comes to the answer. -/
def Does (g : Grammar) (e : Expr) (s : State) (answer : Bool) (x : Effect) : Prop :=
  g.evaluate (.expr e) s = some (answer, s.followedBy x)

namespace AllTrees

/-- An evaluation adds what it would leave behind in a fresh state. -/
theorem evaluate_eq_map (hg : g.AllTrees) (e : Expr) (s : State) :
    g.evaluate (.expr e) s =
      (g.evaluate (.expr e) s.fresh).map fun r => (r.1, s.followedBy r.2.effect) := by
  have hfresh : s.context.after s.fresh = s :=
    (State.context_after (s := s) (t := s.fresh) rfl rfl).trans s.followedBy_stop_offset
  have hmap := hg.evaluate_map (State.similarity_after s.context) (.expr e) s.fresh
  rw [hfresh] at hmap
  rw [hmap]
  refine Option.map_congr fun r hr => ?_
  -- the input stays the same and so does whether the log listens, so what is left behind is an effect
  have hrun := hg.evaluate_iff_runs.mp hr
  rw [State.context_after (s := s) (hrun.reaches hg.nativesRead trivial).input
    (hrun.goal_logs hg).tracking]

theorem does_iff (hg : g.AllTrees) :
    g.Does e s c x ↔ ∃ t, g.evaluate (.expr e) s.fresh = some (c, t) ∧ t.effect = x := by
  rw [Does, hg.evaluate_eq_map, Option.map_eq_some_iff]
  constructor
  · rintro ⟨⟨d, t⟩, ht, h⟩
    obtain ⟨rfl, heq⟩ := Prod.mk.injEq .. ▸ h
    exact ⟨t, ht, State.followedBy_inj.mp heq⟩
  · rintro ⟨t, ht, rfl⟩
    exact ⟨(c, t), ht, rfl⟩

/-- **Every evaluation has an effect.** -/
theorem evaluate_iff_does (hg : g.AllTrees) :
    g.evaluate (.expr e) s = some (c, t) ↔ ∃ x, g.Does e s c x ∧ t = s.followedBy x := by
  constructor
  · intro h
    rw [hg.evaluate_eq_map, Option.map_eq_some_iff] at h
    obtain ⟨⟨d, u⟩, hu, hr⟩ := h
    obtain ⟨rfl, rfl⟩ : d = c ∧ s.followedBy u.effect = t := by simpa using hr
    exact ⟨u.effect, hg.does_iff.mpr ⟨u, hu, rfl⟩, rfl⟩
  · rintro ⟨x, hx, rfl⟩
    exact hx

theorem runs_iff_does (hg : g.AllTrees) :
    g.Runs (.goal (.expr e)) s c t ↔ ∃ x, g.Does e s c x ∧ t = s.followedBy x :=
  hg.evaluate_iff_runs.symm.trans hg.evaluate_iff_does

/-- **An effect depends on nothing but the input, the offset and whether the log listens.** -/
theorem does_congr (hg : g.AllTrees) (hr : s'.reader = s.reader)
    (ht : s'.log.tracking = s.log.tracking) : g.Does e s' c x ↔ g.Does e s c x := by
  have hfresh : s'.fresh = s.fresh := by rw [State.fresh, State.fresh, hr, ht]
  rw [hg.does_iff, hg.does_iff, hfresh]

/-- A second attempt from the same offset has the effect that a first one would have had. -/
theorem does_again (hg : g.AllTrees) (x : Effect) :
    g.Does e ((s.followedBy x).moveTo s.offset) c y ↔ g.Does e s c y :=
  hg.does_congr rfl rfl

/-- What fails captures nothing. -/
theorem captures_eq_nil (hg : g.AllTrees) (h : g.Does e s false x) : x.captures = [] := by
  have hkeeps : (s.followedBy x).captures = s.captures :=
    (hg.evaluate_iff_runs.mp h).keeps hg.nativesSpare
  simpa [State.followedBy, ← Array.toList_inj] using hkeeps

end AllTrees

end Grammar

end Peg
