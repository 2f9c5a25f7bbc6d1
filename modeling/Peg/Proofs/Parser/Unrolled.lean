import Peg.Proofs.Grammar.Unrolled
import Peg.Proofs.Parser.Order

/-!
# Repetitions that are written out parse the same

In a grammar of trees, `e+` and `e e*` are matched alike. Not only do they read the same: they leave the
same state behind, with its failures, captures and events. Written out, the repetition is two nodes
instead of one, and the second, which has a mark for captures of its own, never fails and so never goes
back to it.

A run of a task is one of the task with its repetitions written out (`Peg.Grammar.Runs.unrolled`). The
other direction goes by the depth of an attempt (`Peg.Grammar.runs_of_attempt_unrolled`), because there
the second half of a repetition is an expression that is not part of the one it was written out from.
So evaluations come to the same, and the parses of a draft do not change when its repetitions are written
out (`Peg.Draft.unrolled_agrees`).
-/

namespace Peg

/-- What tests one character has nothing to be written out. -/
theorem Expr.unrolled_of_single {e : Expr} {accept : Option Char → Bool} {f : Failure}
    (he : e.single? = some (accept, f)) : e.unrolled = e := by
  cases e with
  | char c => rfl
  | endOfInput => rfl
  | range first last => rfl
  | any => rfl
  | _ => cases he

/-- The goal with the repetitions in its expression written out. -/
def Goal.unrolled : Goal → Goal
  | expr e => expr e.unrolled
  | rule id => rule id
  | named name => named name

/-- One step of matching is the same with repetitions written out, as long as it is not the first step of
one of them. -/
theorem Expr.step_unrolled {e : Expr} (he : ∀ a, e ≠ plus a) (attempt : Goal → Matcher)
    (bound : Nat) :
    e.unrolled.step attempt bound = e.step (fun asked => attempt asked.unrolled) bound := by
  cases e with
  | plus a => exact absurd rfl (he a)
  | _ => rfl

/-- The task with the repetitions in its expression written out. -/
def Task.unrolled : Task → Task
  | goal asked => goal asked.unrolled
  | node e => node e.unrolled
  | loop a mark => loop a.unrolled mark
  | script c => script c

namespace Grammar

variable {g : Grammar} {τ : Task} {s t : State} {b : Bool}

theorem AllTrees.unrolled (hg : g.AllTrees) : g.unrolled.AllTrees := by
  refine List.forall_mem_map.mpr fun rule hrule => ?_
  have htree := hg rule hrule
  rcases hb : rule.body with e | start
  · simp [Definition.unrolled, hb, Body.unrolled, Body.tree?]
  · simp [hb, Body.tree?] at htree

theorem body?_unrolled_tree {id : RuleId} {e : Expr} (hid : g.body? id = some (.tree e)) :
    g.unrolled.body? id = some (.tree e.unrolled) := by
  rw [body?_unrolled, hid]
  rfl

/-- **What is run is run the same with repetitions written out.** -/
theorem Runs.unrolled (hg : g.AllTrees) (h : g.Runs τ s b t) (hτ : ∀ c, τ ≠ .script c) :
    g.unrolled.Runs τ.unrolled s b t := by
  induction h with
  | expr_matches _ ih => exact .expr_matches (ih nofun)
  | expr_fails _ ih => exact .expr_fails (ih nofun)
  | rule_tree hid _ ih =>
    have hrun := ih nofun
    rw [← g.nameOf_unrolled] at hrun ⊢
    exact .rule_tree (body?_unrolled_tree hid) hrun
  | rule_native hid => exact absurd hid hg.body_ne_native
  | rule_missing hid =>
    rw [← g.nameOf_unrolled]
    exact .rule_missing (by rw [body?_unrolled, hid]; rfl)
  | named_known hid _ ih => exact .named_known (by rwa [find?_unrolled]) (ih nofun)
  | named_unknown hid => exact .named_unknown (by rwa [find?_unrolled])
  | text_matches h => exact .text_matches h
  | text_fails h => exact .text_fails h
  | single_matches he h =>
    rw [Task.unrolled, Expr.unrolled_of_single he]
    exact .single_matches he h
  | single_fails he h =>
    rw [Task.unrolled, Expr.unrolled_of_single he]
    exact .single_fails he h
  | empty => exact .empty
  | seq_first_fails _ ih => exact .seq_first_fails (ih nofun)
  | seq_second_fails _ _ iha ihb => exact .seq_second_fails (iha nofun) (ihb nofun)
  | seq_matches _ _ iha ihb => exact .seq_matches (iha nofun) (ihb nofun)
  | alt_first _ ih => exact .alt_first (ih nofun)
  | alt_second _ _ iha ihb => exact .alt_second (iha nofun) (ihb nofun)
  | alt_fails _ _ iha ihb => exact .alt_fails (iha nofun) (ihb nofun)
  | opt_some _ ih => exact .opt_some (ih nofun)
  | opt_none _ ih => exact .opt_none (ih nofun)
  | star _ ih => exact .star (ih nofun)
  -- a repetition that is written out is a row of two
  | plus_fails _ ih => exact .seq_first_fails (ih nofun)
  | plus_matches _ _ iha ihl => exact .seq_matches (iha nofun) (.expr_matches (.star (ihl nofun)))
  | loop_ends _ ih => exact .loop_ends (ih nofun)
  | loop_still _ ht ih => exact .loop_still (ih nofun) ht
  | loop_more _ ht _ iha ihl => exact .loop_more (iha nofun) ht (ihl nofun)
  | ahead_matches _ ih => exact .ahead_matches (ih nofun)
  | ahead_fails _ ih => exact .ahead_fails (ih nofun)
  | notAhead_matches _ ih => exact .notAhead_matches (ih nofun)
  | notAhead_fails _ ih => exact .notAhead_fails (ih nofun)
  | call_matches hr _ ih => exact .call_matches hr (ih nofun)
  | call_fails hr _ ih => exact .call_fails hr (ih nofun)
  | call_unbound hr => exact .call_unbound hr
  | capture_matches _ ih => exact .capture_matches (ih nofun)
  | capture_fails _ ih => exact .capture_fails (ih nofun)
  | done => exact absurd rfl (hτ _)
  | ask => exact absurd rfl (hτ _)

/-- A repetition that is run as an expression matches, with the end of its loop. -/
theorem exists_loop_of_runs_star {a : Expr} (h : g.Runs (.goal (.expr (.star a))) s b t) :
    b = true ∧ ∃ u, g.Runs (.loop a s.offset) (s.track false) true u ∧
      t = u.track s.log.tracking := by
  cases h with
  | expr_matches h =>
    cases h with
    | star hl => exact ⟨rfl, _, hl, rfl⟩
    | single_matches he => cases he
  | expr_fails h =>
    cases h with
    | single_fails he => cases he

section Attempt

variable {depth : Nat} (ih : ∀ (goal : Goal) (s : State) (b : Bool) (t : State),
  g.unrolled.attempt depth goal.unrolled s = (some b, t) → g.Runs (.goal goal) s b t)
include ih

/-- What one step answers with repetitions written out is a run of the node. -/
theorem runs_node_of_step_unrolled {e : Expr} {bound : Nat}
    (h : e.unrolled.step (g.unrolled.attempt depth) bound s = (some b, t)) :
    g.Runs (.node e) s b t := by
  by_cases hplus : ∀ a, e ≠ .plus a
  · rw [Expr.step_unrolled hplus] at h
    exact runs_node_of_step ih h
  · obtain ⟨a, rfl⟩ : ∃ a, e = .plus a := by simpa using hplus
    obtain ⟨rfl, u, ha, rfl⟩ | ⟨rfl, u, v, -, hstar, -⟩ | ⟨rfl, u, ha, hstar⟩ :=
      Matcher.sequence_eq_some.mp h
    · exact .plus_fails (ih (.expr a) _ _ _ ha)
    · -- the second half does not fail
      obtain ⟨hfalse, -⟩ := exists_loop_of_runs_star (ih (.expr (.star a)) _ _ _ hstar)
      cases hfalse
    · obtain ⟨-, v, hl, rfl⟩ := exists_loop_of_runs_star (ih (.expr (.star a)) _ _ _ hstar)
      exact .plus_matches (ih (.expr a) _ _ _ ha) hl

end Attempt

/-- **What is answered with repetitions written out is a run.** -/
theorem runs_of_attempt_unrolled (hg : g.AllTrees) {depth : Nat} {goal : Goal}
    (h : g.unrolled.attempt depth goal.unrolled s = (some b, t)) : g.Runs (.goal goal) s b t := by
  induction depth generalizing goal s b t with
  | zero => simp [attempt] at h
  | succ depth ih =>
    have ih : ∀ goal s b t, g.unrolled.attempt depth goal.unrolled s = (some b, t) →
        g.Runs (.goal goal) s b t := fun _ _ _ _ => ih
    cases goal with
    | expr e =>
      obtain ⟨rfl, he⟩ | ⟨rfl, u, he, rfl⟩ := Matcher.rollback_eq_some.mp h
      · exact .expr_matches (runs_node_of_step_unrolled ih he)
      · exact .expr_fails (runs_node_of_step_unrolled ih he)
    | rule id =>
      obtain ⟨u, hu, rfl⟩ := Matcher.traced_eq_some.mp h
      rw [nameOf_unrolled] at hu ⊢
      rw [body?_unrolled] at hu
      rcases hid : g.body? id with _ | ⟨e | start⟩
      · rw [hid] at hu
        obtain ⟨rfl, rfl⟩ : false = b ∧ s.emit (.enter (g.nameOf id) s.offset) = u := by
          simpa [Matcher.fail] using hu
        exact .rule_missing hid
      · rw [hid] at hu
        exact .rule_tree hid (ih (.expr e) _ _ _ hu)
      · exact absurd hid hg.body_ne_native
    | named name =>
      rw [Goal.unrolled, attempt, find?_unrolled] at h
      rcases hid : g.find? name with _ | id <;> rw [hid] at h
      · obtain ⟨rfl, rfl⟩ : false = b ∧ s = t := by simpa [Matcher.fail] using h
        exact .named_unknown hid
      · exact .named_known hid (ih (.rule id) _ _ _ h)

/-- **Goals are run the same with repetitions written out.** -/
theorem AllTrees.runs_unrolled_iff (hg : g.AllTrees) {goal : Goal} :
    g.unrolled.Runs (.goal goal.unrolled) s b t ↔ g.Runs (.goal goal) s b t := by
  constructor
  · intro h
    obtain ⟨depth, ha⟩ := exists_attempt_iff_runs.mpr h
    exact runs_of_attempt_unrolled hg ha
  · exact fun h => h.unrolled hg nofun

theorem AllTrees.evaluate_unrolled (hg : g.AllTrees) (goal : Goal) :
    g.unrolled.evaluate goal.unrolled = g.evaluate goal := by
  funext s
  ext ⟨b, t⟩
  rw [hg.unrolled.evaluate_iff_runs, hg.evaluate_iff_runs, hg.runs_unrolled_iff]

end Grammar

namespace Parser

variable {g : Grammar}

/-- **A parse is the same with repetitions written out.** -/
theorem run_unrolled (hg : g.AllTrees) (settings : Settings) (id : RuleId) (input : Array Char) :
    run { grammar := g.unrolled, settings } id input = run { grammar := g, settings } id input :=
  run_congr (g.nameOf_unrolled id) (hg.evaluate_unrolled (.rule id)) settings input

theorem parseFrom_unrolled (hg : g.AllTrees) (settings : Settings) (name input : String) :
    parseFrom { grammar := g.unrolled, settings } name input =
      parseFrom { grammar := g, settings } name input := by
  simp only [parseFrom, Grammar.find?_unrolled, run_unrolled hg]

theorem parse_unrolled (hg : g.AllTrees) (settings : Settings) (input : String) :
    parse { grammar := g.unrolled, settings } input = parse { grammar := g, settings } input := by
  simp only [parse, parseChars, run_unrolled hg]
  rfl

end Parser

namespace Draft

/-- **One or more is one and then any number.** Take the rules of a draft, which are trees, and write
`e e*` for every `e+` in them, at whatever depth. What comes of building is the same: the same defect, or
a grammar in both cases. And then a parse by the root or from a rule that is named is the same too,
whatever the settings and the input: whether it matched and how far it read, or why it was refused, the
failures on record, the captures, and the entries into rules and exits from them. -/
theorem unrolled_agrees (d : Draft) (htrees : ∀ rule ∈ d.rules, rule.body.tree?.isSome) :
    (∀ defect, d.unrolled.build = .error defect ↔ d.build = .error defect) ∧
    ((∃ g', d.unrolled.build = .ok g') ↔ ∃ g, d.build = .ok g) ∧
    ∀ g g', d.build = .ok g → d.unrolled.build = .ok g' → ∀ settings input,
      Parser.parse ⟨g', settings⟩ input = Parser.parse ⟨g, settings⟩ input ∧
        ∀ name, Parser.parseFrom ⟨g', settings⟩ name input =
          Parser.parseFrom ⟨g, settings⟩ name input := by
  rw [build_unrolled]
  refine ⟨fun defect => ?_, ?_, fun g g' hg hg' settings input => ?_⟩
  · rcases d.build with defect' | g <;> simp [Except.map]
  · rcases d.build with defect' | g <;> simp [Except.map]
  · rw [hg] at hg'
    obtain rfl : g.unrolled = g' := Except.ok.inj hg'
    obtain ⟨hclosed, hwrites, -⟩ := build_eq_ok_iff.mp hg
    have htrees := hwrites.allTrees hclosed.names htrees
    exact ⟨Parser.parse_unrolled htrees settings input,
      fun name => Parser.parseFrom_unrolled htrees settings name input⟩

/-- `words <- (<[a-z]+> ' '?)+`. -/
def words : Draft where
  rules := [⟨"words", .tree (.plus (.seq (.capture (.plus (.range 'a' 'z'))) (.opt (.char ' '))))⟩]

theorem unrolled_agrees_words :
    (∀ rule ∈ words.rules, rule.body.tree?.isSome) ∧
      ∃ g g' parse, words.build = .ok g ∧ words.unrolled.build = .ok g' ∧
        Parser.parseFrom ⟨g', {}⟩ "words" "ab c" = .ok parse ∧
        Parser.parseFrom ⟨g, {}⟩ "words" "ab c" = .ok parse ∧
        parse.outcome.captures = [Capture.ofRange 0 2, Capture.ofRange 3 4] := by
  have htrees : ∀ rule ∈ words.rules, rule.body.tree?.isSome := by simp [words, Body.tree?]
  obtain ⟨-, -, hparse⟩ := unrolled_agrees words htrees
  have hsame := (hparse _ _ rfl rfl {} "ab c").2 "words"
  exact ⟨htrees, _, _, _, rfl, rfl, hsame, rfl, rfl⟩

end Draft

end Peg
