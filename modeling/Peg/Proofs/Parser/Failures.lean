import Peg.Grammar.Build
import Peg.Proofs.Parser.Run

/-!
# The captures of a parse that fails

An expression that fails leaves no more captures than it found, whatever the native rules do that it
calls: it drops what is too much (`Peg.Grammar.Runs.captures_size_le`). A native rule that fails need not.
What it has captured by then, itself or by the rules it asked for, is dropped by the expression that
called it. But no expression calls the rule that a parse begins with. If that is a native one, the outcome
of a parse that fails holds whatever it has left behind.

So a parse that fails carries no captures if it begins at a tree, or at a native rule that gives back
what it has captured when it fails (`Peg.Grammar.GivesBack`). A native rule that is nothing but an
expression does (`Peg.Grammar.givesBack_opaqueTree`). One that asks for two things one after the other
does not, when it gets the first and not the second.

All this is true of every run that fails (`Peg.Parser.leftBehind_of_runs`), and so at whatever depth an
attempt has its answer, not only at the one that a parse allows itself (`Peg.Parser.captures_of_failure`).
-/

namespace Peg

namespace Grammar

variable {g : Grammar} {e : Expr} {s t : State}

/-- **The native rule gives back what it has captured** when it fails. -/
def GivesBack (g : Grammar) (start : State → Script) : Prop :=
  ∀ s t, g.Runs (.script (start s)) s false t → t.captures.size ≤ s.captures.size

/-- **An expression that fails leaves no more captures than it found**, whatever native rules do. -/
theorem Runs.captures_size_le (h : g.Runs (.goal (.expr e)) s false t) :
    t.captures.size ≤ s.captures.size := by
  cases h with
  | expr_fails _ =>
    rw [State.captures_dropCaptures]
    simp

/-- A native rule that is nothing but an expression gives back what that has captured. -/
theorem givesBack_opaqueTree {start : State → Script} (h : Body.opaqueTree e = .native start) :
    g.GivesBack start := by
  obtain rfl : (fun s => .ask (.expr e) s .done) = start := by simpa [Body.opaqueTree] using h
  intro s t hrun
  cases hrun with
  | ask hasked hdone =>
    cases hdone with
    | done => exact hasked.captures_size_le

end Grammar

namespace Parser

variable {p : Parser} {id : RuleId} {input : Array Char} {t : State}

/-- The state in which the body of the rule is run that a parse begins with. -/
def entered (p : Parser) (id : RuleId) (input : Array Char) : State :=
  (p.start id input).emit (.enter (p.grammar.nameOf id) (p.start id input).offset)

/-- There is nothing captured yet. -/
theorem captures_entered (p : Parser) (id : RuleId) (input : Array Char) :
    (p.entered id input).captures = #[] := rfl

/-- **What is left of the captures when a parse by the rule fails.** -/
structure LeftBehind (p : Parser) (id : RuleId) (input : Array Char) (captures : List Capture) :
    Prop where
  /-- If the parse begins at a native rule, it is whatever the rule has left behind. -/
  native : ∀ start, p.grammar.body? id = some (.native start) → ∃ t,
    p.grammar.Runs (.script (start (p.entered id input))) (p.entered id input) false t ∧
      captures = t.captures.toList
  /-- It is nothing if that native rule gives back what it has captured when it fails, or if the parse
  begins at a tree. -/
  nil : (∀ start, p.grammar.body? id = some (.native start) → p.grammar.GivesBack start) →
    captures = []

/-- What a failed run of the rule that a parse begins with has captured. -/
theorem leftBehind_of_runs (h : p.grammar.Runs (.goal (.rule id)) (p.start id input) false t) :
    p.LeftBehind id input t.captures.toList := by
  -- where there were no captures, no more than there were is none
  have hnone {u : State} (hu : u.captures.size ≤ (p.entered id input).captures.size) :
      u.captures.toList = [] := by
    rw [captures_entered] at hu
    simpa using hu
  cases h with
  | rule_tree hid hbody =>
    exact ⟨fun start hstart => by simp [hid] at hstart, fun _ => hnone hbody.captures_size_le⟩
  | @rule_native _ _ _ _ u hid hbody =>
    refine ⟨fun start hstart => ⟨u, ?_, rfl⟩, fun hback => hnone (u := u) (hback _ hid _ _ hbody)⟩
    obtain rfl := Body.native.inj (Option.some.inj (hid.symm.trans hstart))
    exact hbody
  | rule_missing hid => exact ⟨fun start hstart => by simp [hid] at hstart, fun _ => rfl⟩

/-- **What a parse that fails has captured.** If it begins at a native rule, that is whatever the rule
has left behind; and if that native rule gives back what it has captured when it fails, or if the parse
begins at a tree, there is nothing. The settings play no part in it, nor do other native rules, and it
is so at whatever depth an attempt at the rule has failed. -/
theorem captures_of_failure (p : Parser) (id : RuleId) (input : Array Char) :
    (∀ parse, p.run id input = .ok parse → parse.outcome.matched = false →
      p.LeftBehind id input parse.outcome.captures) ∧
    ∀ depth t, p.grammar.attempt depth (.rule id) (p.start id input) = (some false, t) →
      p.LeftBehind id input (t.outcome false).captures := by
  refine ⟨fun parse h hm => ?_, fun depth t h => leftBehind_of_runs (Grammar.runs_of_attempt h)⟩
  obtain ⟨-, b, t, he, rfl⟩ := run_eq_ok_iff.mp h
  obtain rfl : b = false := hm
  exact leftBehind_of_runs (Grammar.runs_of_attempt (Grammar.evaluate_eq_some.mp he))

/-- A native rule that asks for a `letter`, and then for another one. -/
def twoLetters (s : State) : Script :=
  .ask (.named "letter") s fun matched t =>
    if matched then .ask (.named "letter") t .done else .done false t

/-- A native rule `pair` that asks for two letters, and `letter <- <.>`. -/
def letters : Draft where
  rules := [⟨"pair", .native twoLetters⟩, ⟨"letter", .tree (.capture .any)⟩]

/-- The grammar that `Peg.Parser.letters` is built to. -/
def lettersParser : Parser where
  grammar :=
    { rules := [⟨"pair", .native twoLetters⟩, ⟨"letter", .tree (.capture .any)⟩]
      root := some 0 }

/-- A parse from `letter` that fails leaves nothing behind. One from `pair` leaves what `pair` does, and so
does an attempt at `pair` that may go six levels deep. -/
theorem captures_of_failure_letters :
    (∃ parse, lettersParser.run 1 #[] = .ok parse ∧ parse.outcome.matched = false ∧
        parse.outcome.captures = []) ∧
      (∃ parse t, lettersParser.run 0 #['a'] = .ok parse ∧ parse.outcome.matched = false ∧
        lettersParser.grammar.Runs (.script (twoLetters (lettersParser.entered 0 #['a'])))
          (lettersParser.entered 0 #['a']) false t ∧ parse.outcome.captures = t.captures.toList) ∧
      ∃ t u, lettersParser.grammar.attempt 6 (.rule 0) (lettersParser.start 0 #['a']) =
          (some false, t) ∧
        lettersParser.grammar.Runs (.script (twoLetters (lettersParser.entered 0 #['a'])))
          (lettersParser.entered 0 #['a']) false u ∧
        (t.outcome false).captures = u.captures.toList := by
  obtain ⟨one, hone, hone'⟩ : ∃ parse, lettersParser.run 1 #[] = .ok parse ∧
      parse.outcome.matched = false := ⟨_, rfl, rfl⟩
  obtain ⟨two, htwo, htwo'⟩ : ∃ parse, lettersParser.run 0 #['a'] = .ok parse ∧
      parse.outcome.matched = false := ⟨_, rfl, rfl⟩
  obtain ⟨s, hattempt⟩ : ∃ s, lettersParser.grammar.attempt 6 (.rule 0)
      (lettersParser.start 0 #['a']) = (some false, s) := ⟨_, rfl⟩
  have htree : ∀ start, lettersParser.grammar.body? 1 = some (.native start) →
      lettersParser.grammar.GivesBack start := nofun
  have hnothing := ((captures_of_failure lettersParser 1 #[]).1 one hone hone').nil htree
  obtain ⟨hparses, hattempts⟩ := captures_of_failure lettersParser 0 #['a']
  obtain ⟨t, hrun, hcaptures⟩ := (hparses two htwo htwo').native _ rfl
  obtain ⟨u, hrun', hcaptures'⟩ := (hattempts 6 s hattempt).native _ rfl
  exact ⟨⟨one, hone, hone', hnothing⟩, ⟨two, t, htwo, htwo', hrun, hcaptures⟩, s, u, hattempt, hrun',
    hcaptures'⟩

/-- **A parse that fails with a capture**: `pair` gets its first letter and not its second, and the first
one stays. -/
theorem failure_keeps_letter :
    letters.build = .ok lettersParser.grammar ∧
      ∃ parse, lettersParser.run 0 #['a'] = .ok parse ∧ parse.outcome.matched = false ∧
        parse.outcome.captures = [Capture.ofRange 0 1] :=
  ⟨rfl, _, rfl, rfl, rfl⟩

end Parser

end Peg
