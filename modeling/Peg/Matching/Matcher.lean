import Peg.Matching.State

/-!
# Matchers and how they are put together

A `Peg.Matcher` attempts something in a state: it answers whether it matched, and in which state it
left the parse. It may also give no answer, which happens only when the bound that its caller set on
the work was too low; a larger bound then gives an answer, if there is one to be had. The state is
there in any case: without an answer it says how far the work had come.

There is one combinator for each kind of expression. What they promise about the state after a
failure differs, and other combinators rely on it:

* a text is given back when it does not come next, but a single character stays read
  (`Peg.Matcher.literal`, `Peg.Matcher.single`);
* of two things in a row, the second leaves the input where it failed, so that the furthest point
  reached can be seen, while a failure of the first goes back to the start (`Peg.Matcher.sequence`);
* when the second alternative works out, the log forgets what went wrong since the choice began
  (`Peg.Matcher.choice`);
* a repetition mutes the log, because it always ends with a failure (`Peg.Matcher.repeated`);
* looking ahead moves nothing and captures nothing (`Peg.Matcher.ahead`, `Peg.Matcher.notAhead`).

What was captured during an attempt that failed is dropped by `Peg.Matcher.rollback`, which is put
around every expression.
-/

namespace Peg

/-- Attempts something: whether it matched, unless the bound on the work was too low, and the state
afterwards. -/
abbrev Matcher := State → Option Bool × State

namespace Matcher

/-- Always matches, and reads nothing. -/
def pass : Matcher := fun s => (some true, s)

/-- Never matches. -/
def fail : Matcher := fun s => (some false, s)

/-- Drops the captures made during a failed attempt. -/
def rollback (m : Matcher) : Matcher := fun s =>
  match m s with
  | (some false, t) => (some false, t.dropCaptures s.captures.size)
  | answer => answer

/-- A failure is put on record where the attempt began. -/
def recording (failure : Failure) (m : Matcher) : Matcher := fun s =>
  match m s with
  | (some false, t) => (some false, t.record s.offset failure)
  | answer => answer

/-- Goes back to where the attempt began if it fails. -/
def returning (m : Matcher) : Matcher := fun s =>
  match m s with
  | (some false, t) => (some false, t.moveTo s.offset)
  | answer => answer

/-- One after the other, without any account of failures. -/
def andThen (first second : Matcher) : Matcher := fun s =>
  match first s with
  | (some true, t) => second t
  | answer => answer

/-- One after the other. A failure of the first goes back to where it began; the second leaves the
input where it failed. -/
def sequence (first second : Matcher) : Matcher :=
  recording .sequence (andThen (returning first) second)

/-- The first or else, from the same offset, the second. If it is the second, the log is cut back
to what it was before. -/
def choice (first second : Matcher) : Matcher := fun s =>
  match first s with
  | (some false, t) =>
    match second (t.moveTo s.offset) with
    | (some true, u) => (some true, u.cutLog s.log.records.size)
    | (some false, u) => (some false, u.record s.offset .choice)
    | answer => answer
  | answer => answer

/-- The characters of a text, all or none of them. -/
def literal (text : String) : Matcher := recording (.literal text) fun s =>
  if s.reader.startsWith text.toList then (some true, s.moveTo (s.offset + text.length))
  else (some false, s)

/-- One character that is accepted, `none` being the end of the input. It stays read even if it is
not accepted. -/
def single (accept : Option Char → Bool) (failure : Failure) : Matcher := recording failure fun s =>
  (some (accept s.reader.current?), s.advance)

/-- As much of the matcher as there is, which may be nothing. -/
def optional (m : Matcher) : Matcher := fun s =>
  match returning m s with
  | (some _, t) => (some true, t)
  | answer => answer

/-- Repeats the matcher from an offset `mark` on until it fails or does not get past the offset
where it began; then the input is back where the last repetition that counts ended. No answer after
`bound` repetitions. -/
def iterate (m : Matcher) (bound mark : Nat) : Matcher := fun s =>
  match bound with
  | 0 => (none, s)
  | bound + 1 =>
    match m s with
    | (some true, t) => if t.offset = mark then (some true, t) else iterate m bound t.offset t
    | (some false, t) => (some true, t.moveTo mark)
    | answer => answer

/-- The matcher as often as it can be had, with the log muted meanwhile. -/
def repeated (bound : Nat) (m : Matcher) : Matcher := fun s =>
  match iterate m bound s.offset (s.track false) with
  | (some matched, t) => (some matched, t.track s.log.tracking)
  | answer => answer

/-- Whether the matcher would match; the input is where it was and nothing is captured. -/
def peeking (m : Matcher) : Matcher := fun s =>
  match m s with
  | (some matched, t) => (some matched, t.restore s.snapshot)
  | answer => answer

/-- Matches what the matcher does not match, and nothing is read either way. -/
def negated (m : Matcher) : Matcher := fun s =>
  match m s with
  | (some matched, t) => (some !matched, t)
  | answer => answer

/-- The matcher would match here. -/
def ahead (m : Matcher) : Matcher := recording .ahead (peeking m)

/-- The matcher would not match here. -/
def notAhead (m : Matcher) : Matcher := recording .notAhead (negated (peeking m))

/-- The matcher, whose range of characters is captured. -/
def captured (m : Matcher) : Matcher := fun s =>
  match m s with
  | (some true, t) => (some true, t.push (Capture.ofRange s.offset t.offset))
  | answer => answer

/-- The matcher of a rule, with its entry and its exit among the events. -/
def traced (rule : String) (m : Matcher) : Matcher := fun s =>
  match m (s.emit (.enter rule s.offset)) with
  | (some matched, t) => (some matched, t.emit (.exit rule t.offset matched))
  | answer => answer

end Matcher

end Peg
