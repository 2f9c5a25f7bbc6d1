import Mathlib.Data.List.ModifyLast
import Peg.Parser
import Peg.Proofs.Matching.Similarity

/-!
# Parsing with the log muted

Whether failures are put on record makes no difference to a parse but that they are put on record. With
the log muted from the start it takes the same course, at every step of the way: it is refused for the
same reason, or it comes to the same verdict at the same offset with the same captures and the same
events, and there is nothing in the log (`Peg.Parser.run_muted`). A repetition in it that mutes the log
and lets it listen as before has nothing to let it listen to.

This holds of all grammars whose native rules have nothing to do with the log but add to it
(`Peg.Grammar.NativesOnlyAdd`). A native rule that looks into the log may well do something else when
it finds less there.
-/

namespace Peg

/-! ### States with another log -/

/-- The log with the diagnostics added one after the other. -/
def Log.addAll (log : Log) (ds : List Diagnostic) : Log :=
  ds.foldl (fun log d => log.add d.position d.failure) log

/-- The state with another log. -/
def State.withLog (s : State) (log : Log) : State := { s with log }

/-- The state with nothing in the log and the log muted. -/
def State.muted (s : State) : State := s.withLog { tracking := false }

/-- What is added to a muted log is lost. -/
theorem Log.addAll_muted (ds : List Diagnostic) :
    Log.addAll { tracking := false } ds = { tracking := false } := by
  induction ds with
  | nil => rfl
  | cons d ds ih => exact ih

/-- **Matching commutes with muting the log.** -/
theorem State.similarity_muted : Similarity fun s s' => s' = s.muted where
  rest := by
    rintro s _ rfl
    rfl
  advance := by
    rintro s _ rfl
    rfl
  skip n h := by
    subst h
    rfl
  back := by
    rintro s _ t _ rfl rfl
    rfl
  isBack := by
    rintro s _ t _ rfl rfl
    exact Iff.rfl
  record f hs ht := by
    subst hs ht
    rfl
  mute := by
    rintro s _ rfl
    rfl
  listen := by
    rintro s _ t _ rfl rfl
    rfl
  cutLog := by
    rintro s _ t _ rfl rfl
    simp [cutLog, muted, withLog, Log.cutTo]
  dropCaptures := by
    rintro s _ t _ rfl rfl
    rfl
  push := by
    rintro s _ t _ rfl rfl
    rfl
  enter rule h := by
    subst h
    rfl
  exit rule b h := by
    subst h
    rfl

/-! ### Native rules that only add to the log -/

/-- **The two scripts take the same course, and all they do to the log is add to it.** The first begins
with the log `l` and the second with `l'`. Wherever they ask for something and where they are over, both
have added the same diagnostics and are in the same state otherwise. They go on in the same way after
whatever answer, even if what they asked for has left them different logs. -/
inductive Script.OnlyAdd : Log → Log → Script → Script → Prop
  | done {l l' b s} (ds : List Diagnostic) (hs : s.log = l.addAll ds) :
      OnlyAdd l l' (.done b s) (.done b (s.withLog (l'.addAll ds)))
  | ask {l l' goal r resume resume'} (ds : List Diagnostic) (hr : r.log = l.addAll ds)
      (hc : ∀ b t log, OnlyAdd t.log log (resume b t) (resume' b (t.withLog log))) :
      OnlyAdd l l' (.ask goal r resume) (.ask goal (r.withLog (l'.addAll ds)) resume')

/-- A script that begins with the log muted does what it would do with a log that listens. -/
theorem Script.OnlyAdd.similar {l : Log} {c c' : Script} (h : OnlyAdd l { tracking := false } c c') :
    c.Similar (fun s s' => s' = s.muted) c' := by
  generalize hl : ({ tracking := false } : Log) = l' at h
  induction h with
  | done ds hs =>
    subst hl
    exact .done (by rw [Log.addAll_muted, State.muted])
  | ask ds hr _ ih =>
    subst hl
    refine .ask (by rw [Log.addAll_muted, State.muted]) ?_
    rintro b t _ rfl
    exact ih b t _ rfl

namespace Grammar

/-- **All that native rules do to the log is add to it**, and what they do does not depend on it. -/
def NativesOnlyAdd (g : Grammar) : Prop :=
  ∀ id start, g.body? id = some (.native start) →
    ∀ s log, Script.OnlyAdd s.log log (start s) (start (s.withLog log))

variable {g : Grammar}

/-- **With the log muted an attempt takes the same course.** -/
theorem attempt_muted (hg : g.NativesOnlyAdd) (depth : Nat) (goal : Goal) (s : State) :
    g.attempt depth goal s.muted = (g.attempt depth goal s).map id State.muted :=
  State.similarity_muted.attempt_map (fun id start hid s => (hg id start hid s _).similar) depth goal s

theorem evaluate_muted (hg : g.NativesOnlyAdd) (goal : Goal) (s : State) :
    g.evaluate goal s.muted = (g.evaluate goal s).map fun r => (r.1, r.2.muted) := by
  have hsize : s.muted.reader.size = s.reader.size := rfl
  rw [evaluate, evaluate, attempt_muted hg, hsize]
  rcases g.attempt (g.depthFor goal s.reader.size) goal s with ⟨_ | b, t⟩ <;> rfl

end Grammar

/-! ### Parses -/

/-- The end of a parse with no failures to report; any other event as it is. -/
def Event.muted : Event → Event
  | finished rule matched position _ => finished rule matched position 0
  | built rules root => built rules root
  | started rule length => started rule length
  | enter rule offset => enter rule offset
  | exit rule offset matched => exit rule offset matched

/-- The parse with nothing on record. Of the events, only the last one tells the number of failures. -/
def Parse.muted (p : Parse) : Parse where
  outcome := { p.outcome with errors := [] }
  trace := p.trace.modifyLast Event.muted

namespace Parser

variable {g : Grammar}

theorem finish_muted (p : Parser) (rule : RuleId) (b : Bool) (s : State) :
    p.finish rule b s.muted = (p.finish rule b s).muted := by
  simp [finish, Parse.muted, State.outcome, State.muted, State.withLog, State.emit, State.offset,
    Event.muted, List.modifyLast_concat]

/-- **Whether failures are put on record makes no other difference to a parse.** Take a grammar whose
native rules only add to the log, and any limit, rule and input. With the log muted, the parse is refused
or goes too deep exactly if it is so with the log listening, and for the same reason; otherwise it is the
same parse with nothing on record. To whatever depth an attempt is carried, it has come just as far. -/
theorem run_muted (hg : g.NativesOnlyAdd) (limit : Nat) (rule : RuleId) (input : Array Char) :
    Parser.run { grammar := g, settings := { tracking := false, limit } } rule input =
      (Parser.run { grammar := g, settings := { tracking := true, limit } } rule input).map
        Parse.muted ∧
    ∀ depth,
      g.attempt depth (.rule rule)
          (Parser.start { grammar := g, settings := { tracking := false, limit } } rule input) =
        (g.attempt depth (.rule rule)
          (Parser.start { grammar := g, settings := { tracking := true, limit } } rule input)).map
            id State.muted := by
  have hstart : Parser.start { grammar := g, settings := { tracking := false, limit } } rule input =
      (Parser.start { grammar := g, settings := { tracking := true, limit } } rule input).muted := rfl
  refine ⟨?_, fun depth => hstart ▸ Grammar.attempt_muted hg depth _ _⟩
  have hlimit : Settings.effectiveLimit { tracking := false, limit } =
      Settings.effectiveLimit { tracking := true, limit } := rfl
  simp only [run, run?, hlimit, hstart, Grammar.evaluate_muted hg]
  split
  · rfl
  · rcases g.evaluate (.rule rule)
      (Parser.start { grammar := g, settings := { tracking := true, limit } } rule input) with
        _ | ⟨b, t⟩
    · rfl
    · exact congrArg Except.ok (finish_muted _ rule b t)

/-- A native rule that notes that it is looking for the rule `digit`, and looks for it. -/
def noting (s : State) : Script :=
  .ask (.named "digit") (s.record s.offset (.note "looking for a digit")) .done

/-- `list <- noted? ((noted ';')* noted)*`, where `noted` is native and looks for a digit. -/
def noted : Grammar where
  rules := [
    ⟨"list", .tree (.seq (.opt (.call { name := "noted", id := some 1 }))
      (.star (.seq (.star (.seq (.call { name := "noted", id := some 1 }) (.char ';')))
        (.call { name := "noted", id := some 1 }))))⟩,
    ⟨"noted", .native noting⟩,
    ⟨"digit", .tree (.capture .digit)⟩]
  root := some 0

theorem nativesOnlyAdd_noted : noted.NativesOnlyAdd := by
  intro id start hid s log
  obtain rfl : start = noting := by
    rcases id with _ | _ | _ | id <;> simp_all [noted, Grammar.body?]
  exact .ask [⟨s.offset, .note "looking for a digit"⟩] rfl fun b t log => .done [] rfl

/-- With the log listening something is on record in the end, and the repetitions muted the log on the
way. -/
theorem run_muted_noted :
    noted.NativesOnlyAdd ∧
      ∃ parse, Parser.run { grammar := noted } 0 #['1', '2', ';', '3'] = .ok parse ∧
        parse.outcome.matched = true ∧ parse.outcome.errors ≠ [] ∧
        Parser.run { grammar := noted, settings := { tracking := false } } 0 #['1', '2', ';', '3'] =
          .ok parse.muted := by
  obtain ⟨parse, hparse, hm, herrors⟩ : ∃ parse,
      Parser.run { grammar := noted } 0 #['1', '2', ';', '3'] = .ok parse ∧
        parse.outcome.matched = true ∧ parse.outcome.errors ≠ [] := by
    have hrun : ((Parser.run { grammar := noted } 0 #['1', '2', ';', '3']).toOption.map fun parse =>
        (parse.outcome.matched, parse.outcome.errors.length)) = some (true, 1) := by decide +kernel
    rcases hr : Parser.run { grammar := noted } 0 #['1', '2', ';', '3'] with error | parse <;>
      rw [hr] at hrun
    · simp [Except.toOption] at hrun
    · obtain ⟨hm, hlength⟩ : parse.outcome.matched = true ∧ parse.outcome.errors.length = 1 := by
        simpa [Except.toOption] using hrun
      exact ⟨parse, rfl, hm, List.ne_nil_of_length_eq_add_one hlength⟩
  have hmuted := (run_muted nativesOnlyAdd_noted Capture.maxOffset 0 #['1', '2', ';', '3']).1
  rw [hparse] at hmuted
  exact ⟨nativesOnlyAdd_noted, parse, hparse, hm, herrors, hmuted⟩

end Parser

end Peg
