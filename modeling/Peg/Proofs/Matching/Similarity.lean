import Peg.Proofs.Matching.Progress

/-!
# Parses that run alike

Two parses in similar states take the same course, and stay in similar states, for every notion of
similarity that the operations on states respect (`Peg.Similarity`). What is required is that similar
states see the same characters ahead, that coming back to an earlier offset takes both to similar
places, and that log, captures and events may be changed in the ways in which matching changes them.

One induction on the depth covers all such notions (`Peg.Similarity.attempt`). It also covers the
attempts that remain without an answer, which run out of depth on both sides.

The similarity used here is that of two states that stand at the same place of a text, of which one
has more text before it (`Peg.State.Behind`): an attempt depends on nothing but what is ahead.
-/

namespace Peg

/-- **A relation between states that matching preserves.** -/
structure Similarity (R : State → State → Prop) : Prop where
  /-- Similar states see the same characters ahead. -/
  rest : ∀ {s s'}, R s s' → s.reader.rest = s'.reader.rest
  /-- Stepping past a character. -/
  advance : ∀ {s s'}, R s s' → R s.advance s'.advance
  /-- Stepping past a text. -/
  skip : ∀ {s s'} (n : Nat), R s s' → R (s.moveTo (s.offset + n)) (s'.moveTo (s'.offset + n))
  /-- Coming back. -/
  back : ∀ {s s' t t'}, R s s' → R t t' → R (t.moveTo s.offset) (t'.moveTo s'.offset)
  /-- Being back. -/
  isBack : ∀ {s s' t t'}, R s s' → R t t' → (t.offset = s.offset ↔ t'.offset = s'.offset)
  /-- A failure that is put on record. -/
  record : ∀ {s s' t t'} (f : Failure), R s s' → R t t' →
    R (t.record s.offset f) (t'.record s'.offset f)
  /-- Muting the log. -/
  mute : ∀ {s s'}, R s s' → R (s.track false) (s'.track false)
  /-- Listening as before. -/
  listen : ∀ {s s' t t'}, R s s' → R t t' → R (t.track s.log.tracking) (t'.track s'.log.tracking)
  /-- Forgetting what went wrong. -/
  cutLog : ∀ {s s' t t'}, R s s' → R t t' →
    R (t.cutLog s.log.records.size) (t'.cutLog s'.log.records.size)
  /-- Dropping captures. -/
  dropCaptures : ∀ {s s' t t'}, R s s' → R t t' →
    R (t.dropCaptures s.captures.size) (t'.dropCaptures s'.captures.size)
  /-- Capturing. -/
  push : ∀ {s s' t t'}, R s s' → R t t' →
    R (t.push (Capture.ofRange s.offset t.offset)) (t'.push (Capture.ofRange s'.offset t'.offset))
  /-- Entering a rule. -/
  enter : ∀ {s s'} (rule : String), R s s' →
    R (s.emit (.enter rule s.offset)) (s'.emit (.enter rule s'.offset))
  /-- Leaving a rule. -/
  exit : ∀ {s s'} (rule : String) (b : Bool), R s s' →
    R (s.emit (.exit rule s.offset b)) (s'.emit (.exit rule s'.offset b))

/-- Scripts that take the same course from similar states on. -/
inductive Script.Similar (R : State → State → Prop) : Script → Script → Prop
  | done {b s s'} (h : R s s') : Similar R (.done b s) (.done b s')
  | ask {goal s s' resume resume'} (h : R s s')
      (hc : ∀ b t t', R t t' → Similar R (resume b t) (resume' b t')) :
      Similar R (.ask goal s resume) (.ask goal s' resume')

/-- Answers that are the same, with similar states. -/
def Agree (R : State → State → Prop) (x y : Option Bool × State) : Prop := x.1 = y.1 ∧ R x.2 y.2

theorem Agree.exists {R : State → State → Prop} {x y : Option Bool × State} (h : Agree R x y) :
    ∃ b t t', x = (b, t) ∧ y = (b, t') ∧ R t t' :=
  ⟨x.1, x.2, y.2, rfl, by rw [h.1], h.2⟩

namespace Matcher

/-- Matchers that answer alike in similar states. -/
def Alike (R : State → State → Prop) (m m' : Matcher) : Prop := ∀ s s', R s s' → Agree R (m s) (m' s')

end Matcher

namespace Similarity

open Matcher

variable {R : State → State → Prop} (hR : Similarity R) {m m' first first' second second' : Matcher}
include hR

theorem current? {s s' : State} (h : R s s') : s.reader.current? = s'.reader.current? := by
  have hrest := hR.rest h
  rcases hc : s.reader.current? with _ | c <;> rcases hc' : s'.reader.current? with _ | c'
  · rfl
  · simp [Reader.rest_eq_nil hc, Reader.rest_eq_cons hc'] at hrest
  · simp [Reader.rest_eq_cons hc, Reader.rest_eq_nil hc'] at hrest
  · simp only [Reader.rest_eq_cons hc, Reader.rest_eq_cons hc', List.cons.injEq] at hrest
    rw [hrest.1]

theorem startsWith {s s' : State} (h : R s s') (cs : List Char) :
    s.reader.startsWith cs = s'.reader.startsWith cs :=
  Bool.eq_iff_iff.mpr (by rw [Reader.startsWith_iff, Reader.startsWith_iff, hR.rest h])

theorem restore {s s' t t' : State} (hs : R s s') (ht : R t t') :
    R (t.restore s.snapshot) (t'.restore s'.snapshot) :=
  hR.dropCaptures hs (hR.back hs ht)

/-! ### The combinators -/

theorem rollback (h : Alike R m m') : Alike R (rollback m) (rollback m') := by
  intro s s' hs
  obtain ⟨b, t, t', hm, hm', ht⟩ := (h s s' hs).exists
  rw [Matcher.rollback, Matcher.rollback, hm, hm']
  rcases b with _ | _ | _
  · exact ⟨rfl, ht⟩
  · exact ⟨rfl, hR.dropCaptures hs ht⟩
  · exact ⟨rfl, ht⟩

theorem recording (f : Failure) (h : Alike R m m') : Alike R (recording f m) (recording f m') := by
  intro s s' hs
  obtain ⟨b, t, t', hm, hm', ht⟩ := (h s s' hs).exists
  rw [Matcher.recording, Matcher.recording, hm, hm']
  rcases b with _ | _ | _
  · exact ⟨rfl, ht⟩
  · exact ⟨rfl, hR.record f hs ht⟩
  · exact ⟨rfl, ht⟩

theorem returning (h : Alike R m m') : Alike R (returning m) (returning m') := by
  intro s s' hs
  obtain ⟨b, t, t', hm, hm', ht⟩ := (h s s' hs).exists
  rw [Matcher.returning, Matcher.returning, hm, hm']
  rcases b with _ | _ | _
  · exact ⟨rfl, ht⟩
  · exact ⟨rfl, hR.back hs ht⟩
  · exact ⟨rfl, ht⟩

omit hR in
theorem andThen (h : Alike R first first') (h' : Alike R second second') :
    Alike R (andThen first second) (andThen first' second') := by
  intro s s' hs
  obtain ⟨b, t, t', hm, hm', ht⟩ := (h s s' hs).exists
  rw [Matcher.andThen, Matcher.andThen, hm, hm']
  rcases b with _ | _ | _
  · exact ⟨rfl, ht⟩
  · exact ⟨rfl, ht⟩
  · exact h' t t' ht

theorem sequence (h : Alike R first first') (h' : Alike R second second') :
    Alike R (sequence first second) (sequence first' second') :=
  hR.recording _ (andThen (hR.returning h) h')

theorem choice (h : Alike R first first') (h' : Alike R second second') :
    Alike R (choice first second) (choice first' second') := by
  intro s s' hs
  obtain ⟨b, t, t', hm, hm', ht⟩ := (h s s' hs).exists
  rw [Matcher.choice, Matcher.choice, hm, hm']
  rcases b with _ | _ | _
  · exact ⟨rfl, ht⟩
  · obtain ⟨c, u, u', hn, hn', hu⟩ := (h' _ _ (hR.back hs ht)).exists
    dsimp only
    rw [hn, hn']
    rcases c with _ | _ | _
    · exact ⟨rfl, hu⟩
    · exact ⟨rfl, hR.record _ hs hu⟩
    · exact ⟨rfl, hR.cutLog hs hu⟩
  · exact ⟨rfl, ht⟩

theorem literal (x : String) : Alike R (literal x) (literal x) := by
  refine hR.recording _ fun s s' hs => ?_
  rw [← hR.startsWith hs]
  by_cases hx : s.reader.startsWith x.toList
  · rw [if_pos hx, if_pos hx]
    exact ⟨rfl, hR.skip _ hs⟩
  · rw [if_neg hx, if_neg hx]
    exact ⟨rfl, hs⟩

theorem single (accept : Option Char → Bool) (f : Failure) :
    Alike R (single accept f) (single accept f) :=
  hR.recording _ fun _ _ hs => ⟨by rw [hR.current? hs], hR.advance hs⟩

theorem optional (h : Alike R m m') : Alike R (optional m) (optional m') := by
  intro s s' hs
  obtain ⟨b, t, t', hm, hm', ht⟩ := (hR.returning h s s' hs).exists
  rw [Matcher.optional, Matcher.optional, hm, hm']
  rcases b with _ | b
  · exact ⟨rfl, ht⟩
  · exact ⟨rfl, ht⟩

/-- The rounds of a repetition from similar marks on. -/
theorem iterate (h : Alike R m m') (bound : Nat) {r r' s s' : State} (hr : R r r') (hs : R s s') :
    Agree R (iterate m bound r.offset s) (iterate m' bound r'.offset s') := by
  induction bound generalizing r r' s s' with
  | zero => exact ⟨rfl, hs⟩
  | succ bound ih =>
    obtain ⟨b, t, t', hm, hm', ht⟩ := (h s s' hs).exists
    rw [Matcher.iterate, Matcher.iterate, hm, hm']
    rcases b with _ | _ | _
    · exact ⟨rfl, ht⟩
    · exact ⟨rfl, hR.back hr ht⟩
    · dsimp only at ht ⊢
      -- both rounds got somewhere or neither did
      by_cases ho : t.offset = r.offset
      · rw [if_pos ho, if_pos ((hR.isBack hr ht).mp ho)]
        exact ⟨rfl, ht⟩
      · rw [if_neg ho, if_neg (mt (hR.isBack hr ht).mpr ho)]
        exact ih ht ht

theorem repeated (h : Alike R m m') (bound : Nat) :
    Alike R (repeated bound m) (repeated bound m') := by
  intro s s' hs
  obtain ⟨b, t, t', hm, hm', ht⟩ := (hR.iterate h bound hs (hR.mute hs)).exists
  rw [Matcher.repeated, Matcher.repeated, hm, hm']
  rcases b with _ | b
  · exact ⟨rfl, ht⟩
  · exact ⟨rfl, hR.listen hs ht⟩

theorem peeking (h : Alike R m m') : Alike R (peeking m) (peeking m') := by
  intro s s' hs
  obtain ⟨b, t, t', hm, hm', ht⟩ := (h s s' hs).exists
  rw [Matcher.peeking, Matcher.peeking, hm, hm']
  rcases b with _ | b
  · exact ⟨rfl, ht⟩
  · exact ⟨rfl, hR.restore hs ht⟩

omit hR in
theorem negated (h : Alike R m m') : Alike R (negated m) (negated m') := by
  intro s s' hs
  obtain ⟨b, t, t', hm, hm', ht⟩ := (h s s' hs).exists
  rw [Matcher.negated, Matcher.negated, hm, hm']
  rcases b with _ | b <;> exact ⟨rfl, ht⟩

theorem captured (h : Alike R m m') : Alike R (captured m) (captured m') := by
  intro s s' hs
  obtain ⟨b, t, t', hm, hm', ht⟩ := (h s s' hs).exists
  rw [Matcher.captured, Matcher.captured, hm, hm']
  rcases b with _ | _ | _
  · exact ⟨rfl, ht⟩
  · exact ⟨rfl, ht⟩
  · exact ⟨rfl, hR.push hs ht⟩

theorem traced (rule : String) (h : Alike R m m') : Alike R (traced rule m) (traced rule m') := by
  intro s s' hs
  obtain ⟨b, t, t', hm, hm', ht⟩ := (h _ _ (hR.enter rule hs)).exists
  rw [Matcher.traced, Matcher.traced, hm, hm']
  rcases b with _ | b
  · exact ⟨rfl, ht⟩
  · exact ⟨rfl, hR.exit rule b ht⟩

/-! ### Expressions and grammars -/

theorem step {attempt attempt' : Goal → Matcher}
    (h : ∀ goal, Alike R (attempt goal) (attempt' goal)) (bound : Nat) (e : Expr) :
    Alike R (e.step attempt bound) (e.step attempt' bound) := by
  cases e with
  | seq a b => exact hR.sequence (h _) (h _)
  | alt a b => exact hR.choice (h _) (h _)
  | text x => exact hR.literal x
  | char c => exact hR.single _ _
  | endOfInput => exact hR.single _ _
  | range first last => exact hR.single _ _
  | any => exact hR.single _ _
  | opt a => exact hR.optional (h _)
  | star a => exact hR.repeated (h _) bound
  | plus a => exact hR.sequence (h _) (hR.repeated (h _) bound)
  | ahead a => exact hR.recording _ (hR.peeking (h _))
  | notAhead a => exact hR.recording _ (negated (hR.peeking (h _)))
  | call r =>
    refine hR.recording _ ?_
    rcases r.id with _ | id
    · exact fun _ _ hs => ⟨rfl, hs⟩
    · exact h _
  | capture a => exact hR.captured (h _)
  | empty => exact fun _ _ hs => ⟨rfl, hs⟩

omit hR in
theorem script {attempt attempt' : Goal → Matcher}
    (h : ∀ goal, Alike R (attempt goal) (attempt' goal)) {c c' : Script} (hc : c.Similar R c') :
    Agree R (c.run attempt) (c'.run attempt') := by
  induction hc with
  | done hs => exact ⟨rfl, hs⟩
  | @ask goal s s' resume resume' hs _ ih =>
    obtain ⟨b, t, t', hm, hm', ht⟩ := (h goal s s' hs).exists
    rw [Script.run, Script.run, hm, hm']
    rcases b with _ | b
    · exact ⟨rfl, ht⟩
    · exact ih b t t' ht

/-- **Goals are attempted alike in similar states**, provided the native rules of the grammar take
the same course there. -/
theorem attempt {g : Grammar}
    (hn : ∀ id start, g.body? id = some (.native start) →
      ∀ s s', R s s' → (start s).Similar R (start s')) (depth : Nat) (goal : Goal) :
    Alike R (g.attempt depth goal) (g.attempt depth goal) := by
  induction depth generalizing goal with
  | zero => exact fun _ _ hs => ⟨rfl, hs⟩
  | succ depth ih =>
    cases goal with
    | expr e => exact hR.rollback (hR.step ih depth e)
    | rule id =>
      refine hR.traced _ ?_
      rcases hid : g.body? id with _ | ⟨e | start⟩
      · exact fun _ _ hs => ⟨rfl, hs⟩
      · exact ih _
      · exact fun s s' hs => script ih (hn id start hid s s' hs)
    | named name =>
      rw [Grammar.attempt]
      rcases g.find? name with _ | id
      · exact fun _ _ hs => ⟨rfl, hs⟩
      · exact ih _

end Similarity

/-- **Attempts commute with a map of the states** that takes every state to a similar one. -/
theorem Similarity.attempt_map {g : Grammar} {f : State → State} (hf : Similarity fun s s' => s' = f s)
    (hn : ∀ id start, g.body? id = some (.native start) →
      ∀ s, (start s).Similar (fun s s' => s' = f s) (start (f s))) (depth : Nat) (goal : Goal)
    (s : State) : g.attempt depth goal (f s) = (g.attempt depth goal s).map id f := by
  obtain ⟨hb, ht⟩ := hf.attempt (g := g)
    (fun id start hid s s' (hs : s' = f s) => hs ▸ hn id start hid s) depth goal s (f s) rfl
  exact Prod.ext hb.symm ht

/-! ### The same place of a text -/

/-- The second state stands where the first stands, with the text `u` put before the input. -/
structure State.Behind (u : Array Char) (s s' : State) : Prop where
  /-- The text is put before the input. -/
  input : s'.input = u ++ s.input
  /-- It is skipped. -/
  offset : s'.offset = u.size + s.offset

namespace State.Behind

variable {u : Array Char} {s s' t t' : State}

/-- Without any text, two states that read the same. -/
theorem of_eq (hi : s.input = s'.input) (ho : s.offset = s'.offset) : Behind #[] s s' :=
  ⟨by simp [hi], by simp [ho]⟩

/-- Only the input and the offset count. -/
theorem congr (h : Behind u s s') (hi : t.input = s.input) (ho : t.offset = s.offset)
    (hi' : t'.input = s'.input) (ho' : t'.offset = s'.offset) : Behind u t t' :=
  ⟨by rw [hi', hi, h.input], by rw [ho', ho, h.offset]⟩

theorem size (h : Behind u s s') : s'.input.size = u.size + s.input.size := by
  rw [h.input, Array.size_append]

/-- What is ahead does not depend on the text before. -/
theorem similarity (u : Array Char) : Similarity (Behind u) where
  rest {s s'} h := by
    have hi : s'.reader.input = _ := h.input
    have ho : s'.reader.offset = _ := h.offset
    rw [Reader.rest, Reader.rest, hi, ho, Array.toList_append, ← Array.length_toList,
      List.drop_length_add_append]
    rfl
  advance {s s'} h := by
    refine ⟨by rw [input_advance, input_advance, h.input], ?_⟩
    rw [offset_advance, offset_advance, h.size, h.offset]
    split <;> split <;> omega
  skip n h := ⟨h.input, by rw [offset_moveTo, offset_moveTo, h.offset, Nat.add_assoc]⟩
  back h h' := ⟨h'.input, h.offset⟩
  isBack h h' := by rw [h.offset, h'.offset]; omega
  record _ _ h := h.congr rfl rfl rfl rfl
  mute h := h.congr rfl rfl rfl rfl
  listen _ h := h.congr rfl rfl rfl rfl
  cutLog _ h := h.congr rfl rfl rfl rfl
  dropCaptures _ h := h.congr rfl rfl rfl rfl
  push _ h := h.congr rfl rfl rfl rfl
  enter _ h := h.congr rfl rfl rfl rfl
  exit _ _ h := h.congr rfl rfl rfl rfl

end State.Behind

/-- **In a grammar of trees an attempt depends on nothing but what is ahead**: put behind another
text, with another log and other captures, it takes the same course. -/
theorem Grammar.AllTrees.attempt_behind {g : Grammar} (h : g.AllTrees) {u : Array Char}
    {s s' : State} (hs : s.Behind u s') (depth : Nat) (goal : Goal) :
    (g.attempt depth goal s).1 = (g.attempt depth goal s').1 ∧
      (g.attempt depth goal s).2.Behind u (g.attempt depth goal s').2 :=
  (State.Behind.similarity u).attempt (fun _ _ hid => absurd hid h.body_ne_native) depth goal s s' hs

end Peg
