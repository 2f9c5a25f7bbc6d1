import Peg.Proofs.Capture
import Peg.Proofs.Matching.Captures
import Peg.Proofs.Matching.Endless

/-!
# The same text further on

In a grammar of trees nothing looks behind the offset where it began. So an expression that is matched
behind a text that was read already does what it would do if the input began there: it comes to the same
verdict, and what it leaves behind in the log, among the captures and among the events is what it would
leave behind then, moved on by the length of that text and put behind what was there before
(`Peg.Grammar.evaluate_behind`).

In terms of states, matching commutes with putting a state behind another one (`Peg.State.after`).
-/

namespace Peg

/-! ### Moving on by a number of characters -/

/-- The diagnostic of an attempt that began `n` characters further on. -/
def Diagnostic.shift (n : Nat) (d : Diagnostic) : Diagnostic :=
  { d with position := n + d.position }

/-- The capture with both of its offsets `n` characters further on. -/
def Capture.shift (n : Nat) (c : Capture) : Capture :=
  pack (Int32.ofNat n + c.start) (Int32.ofNat n + c.stop)

/-- The event of the same kind `n` characters further on, if it is one that has a place. -/
def Event.shift (n : Nat) : Event → Event
  | built rules root => built rules root
  | started rule length => started rule length
  | enter rule offset => enter rule (n + offset)
  | exit rule offset matched => exit rule (n + offset) matched
  | finished rule matched position errors => finished rule matched (n + position) errors

@[simp]
theorem Capture.shift_ofRange (n start stop : Nat) :
    (ofRange start stop).shift n = ofRange (n + start) (n + stop) := by
  rw [shift, start_ofRange, stop_ofRange, ofRange, Int32.ofNat_add, Int32.ofNat_add]

/-- What was added to a list is cut back as it would be without the list. -/
theorem shrink_append_map {α β : Type} (before : Array β) (f : α → β) (xs : Array α) (n : Nat) :
    (before ++ xs.map f).shrink (before.size + n) = before ++ (xs.shrink n).map f := by
  apply Array.toList_inj.mp
  simp [List.take_of_length_le]

namespace State

/-- The state `s` behind the text of the state `before`, with everything in it moved on accordingly and
put behind what is in `before`. -/
def after (before s : State) : State where
  reader := { input := before.input ++ s.input, offset := before.input.size + s.offset }
  log :=
    { records := before.log.records ++ s.log.records.map (·.shift before.input.size)
      tracking := s.log.tracking }
  captures := before.captures ++ s.captures.map (·.shift before.input.size)
  trace := before.trace ++ s.trace.map (·.shift before.input.size)

variable {before s s' t t' : State}

theorem behind_after (before s : State) : s.Behind before.input (before.after s) := ⟨rfl, rfl⟩

/-- A state behind another one is known by its parts. -/
theorem eq_after (h : s.Behind before.input s') (hl : s'.log = (before.after s).log)
    (hc : s'.captures = (before.after s).captures) (ht : s'.trace = (before.after s).trace) :
    s' = before.after s := by
  obtain ⟨⟨input, offset⟩, log, captures, trace⟩ := s'
  obtain rfl : input = before.input ++ s.input := h.input
  obtain rfl : offset = before.input.size + s.offset := h.offset
  obtain rfl : log = _ := hl
  obtain rfl : captures = _ := hc
  obtain rfl : trace = _ := ht
  rfl

/-- **Matching commutes with putting a state behind another one.** -/
theorem similarity_after (before : State) : Similarity fun s s' => s' = before.after s where
  rest := by
    rintro s _ rfl
    exact (Behind.similarity _).rest (behind_after before s)
  advance := by
    rintro s _ rfl
    exact eq_after ((Behind.similarity _).advance (behind_after before s)) rfl rfl rfl
  skip n hs := by
    subst hs
    exact eq_after ((Behind.similarity _).skip n (behind_after before _)) rfl rfl rfl
  back := by
    rintro s _ t _ rfl rfl
    rfl
  isBack := by
    rintro s _ t _ rfl rfl
    exact (Behind.similarity _).isBack (behind_after before s) (behind_after before t)
  record {s _ t _} f hs ht := by
    subst hs ht
    refine eq_after ⟨rfl, rfl⟩ ?_ rfl rfl
    cases htracking : t.log.tracking <;>
      simp [record, after, Log.add, htracking, Diagnostic.shift, offset]
  mute := by
    rintro s _ rfl
    rfl
  listen := by
    rintro s _ t _ rfl rfl
    rfl
  cutLog := by
    rintro s _ t _ rfl rfl
    refine eq_after ⟨rfl, rfl⟩ ?_ rfl rfl
    simp only [cutLog, after, Log.cutTo, Array.size_append, Array.size_map, shrink_append_map]
  dropCaptures := by
    rintro s _ t _ rfl rfl
    refine eq_after ⟨rfl, rfl⟩ rfl ?_ rfl
    simp only [dropCaptures, after, Array.size_append, Array.size_map, shrink_append_map]
  push := by
    rintro s _ t _ rfl rfl
    refine eq_after ⟨rfl, rfl⟩ rfl ?_ rfl
    simp [after, offset]
  enter rule hs := by
    subst hs
    refine eq_after ⟨rfl, rfl⟩ rfl rfl ?_
    simp [after, Event.shift, offset]
  exit rule b hs := by
    subst hs
    refine eq_after ⟨rfl, rfl⟩ rfl rfl ?_
    simp [after, Event.shift, offset]

end State

namespace Grammar

variable {g : Grammar} {s t : State} {b : Bool}

/-- In a grammar of trees evaluations commute with whatever matching commutes with. -/
theorem AllTrees.evaluate_map (hg : g.AllTrees) {f : State → State}
    (hf : Similarity fun s s' => s' = f s) (goal : Goal) (s : State) :
    g.evaluate goal (f s) = (g.evaluate goal s).map fun r => (r.1, f r.2) := by
  have hmap (depth : Nat) : g.attempt depth goal (f s) = (g.attempt depth goal s).map id f :=
    hf.attempt_map (fun _ _ hid => absurd hid hg.body_ne_native) depth goal s
  rcases he : g.evaluate goal s with _ | ⟨b, t⟩
  · -- an answer on one side would be one on the other
    rcases he' : g.evaluate goal (f s) with _ | ⟨b, t'⟩
    · rfl
    · have hanswer := evaluate_eq_some.mp he'
      rw [hmap] at hanswer
      rcases ha : g.attempt (g.depthFor goal (f s).reader.size) goal s with ⟨c, t⟩
      obtain ⟨rfl, -⟩ : c = some b ∧ f t = t' := by simpa [ha] using hanswer
      rw [hg.evaluate_iff_runs.mpr (runs_of_attempt ha)] at he
      cases he
  · have hanswer := hmap (g.depthFor goal s.reader.size)
    rw [evaluate_eq_some.mp he] at hanswer
    exact hg.evaluate_iff_runs.mpr (runs_of_attempt hanswer)

/-- What an expression captures lies between the offset where it began and the end of the input. -/
theorem exists_range_of_runs (hg : g.AllTrees) {e : Expr} (h : g.Runs (.goal (.expr e)) s b t)
    (hs : s.captures = #[]) (ho : s.offset ≤ s.input.size) :
    ∀ c ∈ t.captures, ∃ p q, c = Capture.ofRange p q ∧ p ≤ q ∧ q ≤ s.input.size := by
  intro c hc
  cases b with
  | false =>
    have hnone : t.captures = s.captures := h.keeps hg.nativesSpare
    simp [hnone, hs] at hc
  | true =>
    obtain ⟨cs, hcs, hn⟩ := h.collects hg trivial nofun
    have hmax := (h.reaches hg.nativesRead trivial).le_max
    rw [hs] at hcs
    obtain ⟨r, hr, rfl⟩ : ∃ r ∈ cs, Capture.ofRange r.1 r.2 = c := by
      simpa [hcs] using Array.mem_toList_iff.mpr hc
    have hwithin := hn.within r hr
    exact ⟨r.1, r.2, rfl, hwithin.2.1, by omega⟩

/-- **What an expression comes to depends on nothing but what is ahead.** In a grammar of trees, take an
expression behind a text that was read, with whatever diagnostics, captures and events there are by then.
It comes to what it comes to at the start of an input of what is ahead, and leaves that behind what there
was, with its places moved on by the length of the text. For a text and an input that are not too long
together for captures, moving a capture on is adding that length to both of its offsets. -/
theorem evaluate_behind (hg : g.AllTrees) (e : Expr) (tracking : Bool) (before : State)
    (input : Array Char) (hsize : (before.input ++ input).size ≤ Capture.maxOffset) :
    g.evaluate (.expr e)
        { reader := { input := before.input ++ input, offset := before.input.size }
          log := { records := before.log.records, tracking }
          captures := before.captures
          trace := before.trace } =
      (g.evaluate (.expr e) { reader := { input }, log := { tracking } }).map
        (fun r => (r.1, before.after r.2)) ∧
    ∀ b t, g.evaluate (.expr e) { reader := { input }, log := { tracking } } = some (b, t) →
      ∀ c ∈ t.captures,
        (c.shift before.input.size).start.toInt = before.input.size + c.start.toInt ∧
        (c.shift before.input.size).stop.toInt = before.input.size + c.stop.toInt := by
  refine ⟨?_, fun b t h c hc => ?_⟩
  · rw [← hg.evaluate_map (State.similarity_after before)]
    simp [State.after, State.input, State.offset]
  · have hrun := runs_of_attempt (evaluate_eq_some.mp h)
    obtain ⟨p, q, rfl, hpq, hq⟩ := exists_range_of_runs hg hrun rfl (Nat.zero_le _) c hc
    have hle : before.input.size + q ≤ Capture.maxOffset := by
      rw [Array.size_append] at hsize
      exact Nat.le_trans (Nat.add_le_add_left hq _) hsize
    rw [Capture.shift_ofRange]
    simp only [Capture.start_ofRange, Capture.stop_ofRange]
    rw [Capture.toInt_ofNat hle, Capture.toInt_ofNat (by omega), Capture.toInt_ofNat (by omega),
      Capture.toInt_ofNat (by omega)]
    omega

/-- `word <- <'a'> word / 'b'`. -/
def word : Grammar where
  rules := [⟨"word", .tree (.alt (.seq (.capture (.char 'a')) (.call { name := "word", id := some 0 }))
    (.char 'b'))⟩]
  root := some 0

/-- Behind an `x` that was captured and a failure that was put on record, a word is matched as it is at
the start of an input. -/
theorem evaluate_behind_word :
    word.AllTrees ∧ (#['x'] ++ #['a', 'b']).size ≤ Capture.maxOffset ∧
      ∃ t, word.evaluate (.expr (.call { name := "word", id := some 0 }))
          { reader := { input := #['x', 'a', 'b'], offset := 1 }
            log := { records := #[⟨0, .any⟩] }
            captures := #[Capture.ofRange 0 1] } = some (true, t) ∧
        t.offset = 3 ∧ t.captures = #[Capture.ofRange 0 1, Capture.ofRange 1 2] := by
  have hg : word.AllTrees := by simp [AllTrees, word, Body.tree?]
  have hsize : (#['x'] ++ #['a', 'b']).size ≤ Capture.maxOffset := by decide
  obtain ⟨t, ht, hoffset, hcaptures⟩ : ∃ t,
      word.evaluate (.expr (.call { name := "word", id := some 0 }))
        { reader := { input := #['a', 'b'] }, log := { tracking := true } } = some (true, t) ∧
      t.offset = 2 ∧ t.captures = #[Capture.ofRange 0 1] := ⟨_, rfl, rfl, rfl⟩
  let before : State :=
    { reader := { input := #['x'] }
      log := { records := #[⟨0, .any⟩] }
      captures := #[Capture.ofRange 0 1] }
  have heval := (evaluate_behind hg (.call { name := "word", id := some 0 }) true before #['a', 'b']
    hsize).1
  rw [ht] at heval
  refine ⟨hg, hsize, before.after t, heval, ?_, ?_⟩
  · change 1 + t.offset = 3
    rw [hoffset]
  · change #[Capture.ofRange 0 1] ++ t.captures.map (·.shift 1) = _
    simp [hcaptures]

end Grammar

end Peg
