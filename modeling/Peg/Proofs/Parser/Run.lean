import Peg.Parser
import Peg.Proofs.Matching.LeftRecursion
import Peg.Proofs.Semantics.Evaluation

/-!
# Parses and verdicts

A parse that is not refused evaluates a rule from a fresh state and reports how that ended
(`Peg.Parser.run_eq_ok_iff`). In a resolved grammar of trees the report is what a verdict says, and
where no rule calls itself before it has read something there is one (`Peg.Parser.exists_recorded`).
-/

namespace Peg

/-- **What a verdict tells of an outcome**: whether it is a match and, if so, where it ended and what
it captured. Without a match nothing is captured. -/
def Verdict.Recorded (v : Verdict) (o : Outcome) : Prop :=
  match v with
  | .fails => o.matched = false ∧ o.captures = []
  | .matches stop ranges =>
    o.matched = true ∧ o.position = stop ∧
      o.captures = ranges.map fun r => Capture.ofRange r.1 r.2

/-- Where no rule calls itself before it has read anything, every expression has a verdict. -/
theorem Grammar.exists_derives {g : Grammar} (hg : g.AllTrees) (hr : g.Resolved)
    (hacyclic : ∀ id, ¬Relation.TransGen (g.LeftCall true) id id) {input : Array Char} (e : Expr)
    (p : Nat) (he : g.Binds e) : ∃ v, Derives g.trees input e p v := by
  have hn := hg.nativesRead
  let s : State := { reader := { input, offset := p } }
  obtain ⟨b, t, h⟩ := evaluate_of_not_reenters hn
    (not_reenters_of_acyclic hn hacyclic (.goal (.expr e)) s)
  obtain ⟨v, hv, -⟩ := derives_of_runs hg.means hr he (runs_of_attempt (evaluate_eq_some.mp h))
  exact ⟨v, hv⟩

/-- An input that is not refused is within the limit, and its offsets fit into captures. -/
theorem Settings.le_effectiveLimit_iff {s : Settings} {n : Nat} :
    n ≤ s.effectiveLimit ↔ n ≤ s.limit ∧ n ≤ Capture.maxOffset :=
  Nat.le_min

namespace Parser

variable {p : Parser} {id : RuleId} {input : Array Char} {parse : Parse}

theorem run_eq_ok_iff : p.run id input = .ok parse ↔
    input.size ≤ p.settings.effectiveLimit ∧ ∃ b t,
      p.grammar.evaluate (.rule id) (p.start id input) = some (b, t) ∧ p.finish id b t = parse := by
  rw [run]
  split
  · rename_i hsize
    simp [Nat.not_le.mpr hsize]
  · rename_i hsize
    rw [run?]
    rcases p.grammar.evaluate (.rule id) (p.start id input) with _ | ⟨b, t⟩
    · simp
    · simp [Nat.le_of_not_lt hsize]

/-- What a verdict tells of the states before and after, it tells of the outcome. -/
theorem recorded_of_describes {v : Verdict} {b : Bool} {t : State}
    (h : v.Describes (p.start id input) b t) : v.Recorded (p.finish id b t).outcome := by
  cases v with
  | fails =>
    obtain ⟨-, rfl, hcs⟩ := h
    refine ⟨rfl, ?_⟩
    change t.captures.toList = []
    rw [hcs]
    rfl
  | «matches» q cs =>
    obtain ⟨-, rfl, hq, hcs⟩ := h
    exact ⟨rfl, hq, hcs⟩

/-- **A parse comes to what can be derived**, unless a rule calls itself before it has read
anything. -/
theorem exists_recorded (hg : p.grammar.AllTrees) (hr : p.grammar.Resolved)
    (hacyclic : ∀ id, ¬Relation.TransGen (p.grammar.LeftCall true) id id)
    (hid : id < p.grammar.size) (hsize : input.size ≤ p.settings.effectiveLimit) (name : String) :
    ∃ parse v, p.run id input = .ok parse ∧
      Derives p.grammar.trees input (.call { name, id := some id }) 0 v ∧
        v.Recorded parse.outcome := by
  have hn := hg.nativesRead
  obtain ⟨b, t, he⟩ := Grammar.evaluate_of_not_reenters hn
    (Grammar.not_reenters_of_acyclic hn hacyclic (.goal (.rule id)) (p.start id input))
  obtain ⟨v, hv, hd⟩ : ∃ v, Derives p.grammar.trees input (.call { name, id := some id }) 0 v ∧
      v.Describes (p.start id input) b t :=
    Grammar.explained_of_runs hg.means hr (Grammar.runs_of_attempt (Grammar.evaluate_eq_some.mp he))
      hid { name, id := some id } rfl
  exact ⟨_, v, run_eq_ok_iff.mpr ⟨hsize, b, t, he, rfl⟩, hv, recorded_of_describes hd⟩

end Parser

end Peg
