import Peg.Proofs.Matching.Reentry
import Peg.Proofs.Matching.Similarity

/-!
# A parse without end is one with re-entry

A task that is answered has all its parts answered, each goal at a smaller depth than the one it is
asked in (`Peg.Grammar.Starts.answered`). Where an attempt depends on nothing but what is ahead, a
rule that came back to itself at one offset would then be answered at ever smaller depths. So for a
grammar of trees the converse of `Peg.Grammar.evaluate_of_not_reenters` holds too: an evaluation has
no result exactly when there is re-entry (`Peg.Grammar.AllTrees.evaluate_eq_none_iff`), and the depth
that an evaluation allows itself loses no answer (`Peg.Grammar.AllTrees.evaluate_iff_runs`).
-/

namespace Peg

namespace Grammar

/-- The task is answered at the given depth, with some bound on its repetitions. -/
def Answered (g : Grammar) (depth : Nat) (τ : Task) (s : State) : Prop :=
  ∃ bound b t, τ.matcher (g.attempt depth) bound s = (some b, t)

variable {g : Grammar} {depth : Nat} {τ τ' : Task} {s s' t : State} {b : Bool}

/-- A part that was run is answered as the run says. -/
theorem attempt_of_answer {goal : Goal} (h : g.Runs (.goal goal) s b t) {c : Bool} {u : State}
    (ha : g.attempt depth goal s = (some c, u)) : c = b ∧ u = t :=
  (runs_of_attempt ha).unique h

/-- The loop of a repetition that is answered is answered. -/
theorem answered_loop {a : Expr} {bound : Nat}
    (h : Matcher.repeated bound (g.attempt depth (.expr a)) s = (some b, t)) :
    g.Answered depth (.loop a s.offset) (s.track false) := by
  obtain ⟨u, hl, -⟩ := Matcher.repeated_eq_some.mp h
  exact ⟨bound, b, u, hl⟩

/-- What a goal starts is answered at a smaller depth. -/
theorem Starts.answered_of_goal {goal : Goal} (h : g.Starts (.goal goal) s τ' s')
    (ha : g.Answered depth (.goal goal) s) : ∃ k < depth, g.Answered k τ' s' := by
  obtain ⟨bound, b, t, ha⟩ := ha
  obtain _ | k := depth
  · simp [Task.matcher, attempt] at ha
  refine ⟨k, Nat.lt_succ_self k, ?_⟩
  cases h with
  | node =>
    obtain ⟨-, he⟩ | ⟨-, u, he, -⟩ := Matcher.rollback_eq_some.mp ha
    · exact ⟨k, _, _, he⟩
    · exact ⟨k, _, _, he⟩
  | tree hid =>
    obtain ⟨u, hu, -⟩ := Matcher.traced_eq_some.mp ha
    rw [hid] at hu
    exact ⟨k, _, _, hu⟩
  | native hid =>
    obtain ⟨u, hu, -⟩ := Matcher.traced_eq_some.mp ha
    rw [hid] at hu
    exact ⟨k, _, _, hu⟩
  | named hid =>
    simp only [Task.matcher, attempt, hid] at ha
    exact ⟨k, _, _, ha⟩

/-- What anything else starts is answered at the same depth. -/
theorem Starts.answered_of_part (h : g.Starts τ s τ' s') (hτ : ∀ goal, τ ≠ .goal goal)
    (ha : g.Answered depth τ s) : g.Answered depth τ' s' := by
  obtain ⟨bound, b, t, ha⟩ := ha
  cases h with
  | node => exact absurd rfl (hτ _)
  | tree => exact absurd rfl (hτ _)
  | native => exact absurd rfl (hτ _)
  | named => exact absurd rfl (hτ _)
  | seq_first =>
    obtain ⟨-, u, ha, -⟩ | ⟨-, u, -, ha, -⟩ | ⟨-, u, ha, -⟩ := Matcher.sequence_eq_some.mp ha <;>
      exact ⟨bound, _, _, ha⟩
  | seq_second hrun =>
    -- the first part is answered as it was run, so the second began where it is begun here
    obtain ⟨-, u, ha, -⟩ | ⟨-, u, v, ha, hb, -⟩ | ⟨-, u, ha, hb⟩ := Matcher.sequence_eq_some.mp ha
    · exact absurd (attempt_of_answer hrun ha).1 (by decide)
    · obtain ⟨-, rfl⟩ := attempt_of_answer hrun ha
      exact ⟨bound, _, _, hb⟩
    · obtain ⟨-, rfl⟩ := attempt_of_answer hrun ha
      exact ⟨bound, _, _, hb⟩
  | alt_first =>
    obtain ⟨-, ha⟩ | ⟨-, u, -, ha, -⟩ | ⟨-, u, -, ha, -⟩ := Matcher.choice_eq_some.mp ha <;>
      exact ⟨bound, _, _, ha⟩
  | alt_second hrun =>
    obtain ⟨-, ha⟩ | ⟨-, u, v, ha, hb, -⟩ | ⟨-, u, v, ha, hb, -⟩ := Matcher.choice_eq_some.mp ha
    · exact absurd (attempt_of_answer hrun ha).1 (by decide)
    · obtain ⟨-, rfl⟩ := attempt_of_answer hrun ha
      exact ⟨bound, _, _, hb⟩
    · obtain ⟨-, rfl⟩ := attempt_of_answer hrun ha
      exact ⟨bound, _, _, hb⟩
  | opt =>
    obtain ⟨-, ha | ⟨u, ha, -⟩⟩ := Matcher.optional_eq_some.mp ha <;> exact ⟨bound, _, _, ha⟩
  | star => exact answered_loop ha
  | plus_first =>
    obtain ⟨-, u, ha, -⟩ | ⟨-, u, -, ha, -⟩ | ⟨-, u, ha, -⟩ := Matcher.sequence_eq_some.mp ha <;>
      exact ⟨bound, _, _, ha⟩
  | plus_rest hrun =>
    obtain ⟨-, u, ha, -⟩ | ⟨-, u, v, ha, hb, -⟩ | ⟨-, u, ha, hb⟩ := Matcher.sequence_eq_some.mp ha
    · exact absurd (attempt_of_answer hrun ha).1 (by decide)
    · obtain ⟨-, rfl⟩ := attempt_of_answer hrun ha
      exact answered_loop hb
    · obtain ⟨-, rfl⟩ := attempt_of_answer hrun ha
      exact answered_loop hb
  | ahead =>
    obtain ⟨-, u, ha, -⟩ | ⟨-, u, ha, -⟩ := Matcher.ahead_eq_some.mp ha <;> exact ⟨bound, _, _, ha⟩
  | notAhead =>
    obtain ⟨-, u, ha, -⟩ | ⟨-, u, ha, -⟩ := Matcher.notAhead_eq_some.mp ha <;>
      exact ⟨bound, _, _, ha⟩
  | call hr =>
    simp only [Task.matcher, Expr.step, hr] at ha
    obtain ⟨-, ha⟩ | ⟨-, u, ha, -⟩ := Matcher.recording_eq_some.mp ha <;> exact ⟨bound, _, _, ha⟩
  | capture =>
    obtain ⟨-, u, ha, -⟩ | ⟨-, ha⟩ := Matcher.captured_eq_some.mp ha <;> exact ⟨bound, _, _, ha⟩
  | loop_first =>
    obtain ⟨k, rfl⟩ := Matcher.iterate_eq_some ha
    obtain ⟨-, u, ha, -⟩ | ⟨-, ha, -⟩ | ⟨u, ha, -⟩ := Matcher.iterate_succ_eq_some.mp ha <;>
      exact ⟨k, _, _, ha⟩
  | loop_more hrun ht =>
    -- the round matched and got past the mark, so the repetition went on from where it ended
    obtain ⟨k, rfl⟩ := Matcher.iterate_eq_some ha
    obtain ⟨-, u, ha, -⟩ | ⟨-, ha, ho⟩ | ⟨u, ha, -, hrest⟩ := Matcher.iterate_succ_eq_some.mp ha
    · exact absurd (attempt_of_answer hrun ha).1 (by decide)
    · obtain ⟨-, rfl⟩ := attempt_of_answer hrun ha
      exact absurd ho ht
    · obtain ⟨-, rfl⟩ := attempt_of_answer hrun ha
      exact ⟨k, _, _, hrest⟩
  | ask =>
    obtain ⟨c, u, ha, -⟩ := Script.run_ask_eq_some.mp ha
    exact ⟨bound, c, u, ha⟩
  | resume hrun =>
    obtain ⟨c, u, ha, hrest⟩ := Script.run_ask_eq_some.mp ha
    obtain ⟨rfl, rfl⟩ := attempt_of_answer hrun ha
    exact ⟨bound, _, _, hrest⟩

/-- **What an answered task starts is answered**, at no greater depth. -/
theorem Starts.answered (h : g.Starts τ s τ' s') (ha : g.Answered depth τ s) :
    ∃ k ≤ depth, g.Answered k τ' s' := by
  rcases τ with goal | e | ⟨e, mark⟩ | c
  · obtain ⟨k, hk, ha⟩ := h.answered_of_goal ha
    exact ⟨k, Nat.le_of_lt hk, ha⟩
  all_goals exact ⟨depth, Nat.le_refl _, h.answered_of_part (by simp) ha⟩

theorem answered_of_opens (h : Relation.ReflTransGen g.Opens (τ, s) (τ', s'))
    (ha : g.Answered depth τ s) : ∃ k ≤ depth, g.Answered k τ' s' := by
  have hkeeps {τ₁ s₁ τ₂ s₂} (h₁ : ∃ k ≤ depth, g.Answered k τ₁ s₁)
      (hst : g.Starts τ₁ s₁ τ₂ s₂) : ∃ k ≤ depth, g.Answered k τ₂ s₂ := by
    obtain ⟨k, hk, ha⟩ := h₁
    obtain ⟨k', hk', ha'⟩ := hst.answered ha
    exact ⟨k', hk'.trans hk, ha'⟩
  exact invariant_of_opens hkeeps h ⟨depth, Nat.le_refl _, ha⟩

namespace AllTrees

/-- **A rule that is answered does not come back to itself at one offset.** -/
theorem not_opens_of_answered (hg : g.AllTrees) {id : RuleId}
    (ha : g.Answered depth (.goal (.rule id)) s)
    (h : Relation.TransGen g.Opens (.goal (.rule id), s) (.goal (.rule id), s')) :
    s'.offset ≠ s.offset := by
  intro ho
  -- by induction on the depth: the second answer comes at a smaller one
  induction depth using Nat.strong_induction_on with
  | _ depth ih =>
    obtain ⟨⟨τ, t⟩, hstep, hrest⟩ := Relation.TransGen.head'_iff.mp h
    have hst : g.Starts (.goal (.rule id)) s τ t := hstep
    obtain ⟨k, hk, hat⟩ := hst.answered_of_goal ha
    obtain ⟨k', hk', has⟩ := answered_of_opens hrest hat
    -- what the rule comes back to looks just like where it began
    have hreach := (reaches_of_opens hg.nativesRead h.to_reflTransGen trivial).2
    have hsame := (hg.attempt_behind (.of_eq hreach.input ho) k' (.rule id)).1
    obtain ⟨bound, b, u, hs'⟩ := has
    simp only [Task.matcher] at hs'
    rw [hs'] at hsame
    exact ih k' (by omega) ⟨bound, b, (g.attempt k' (.rule id) s).2, Prod.ext hsame.symm rfl⟩

theorem not_reenters_of_attempt (hg : g.AllTrees) {goal : Goal}
    (h : g.attempt depth goal s = (some b, t)) : ¬g.Reenters (.goal goal) s := by
  rintro ⟨id, s₁, s₂, hchain, hloop, ho⟩
  obtain ⟨k, -, ha⟩ := answered_of_opens hchain ⟨0, b, t, h⟩
  exact hg.not_opens_of_answered ha hloop ho

/-- **An evaluation misses no answer.** -/
theorem evaluate_iff_runs (hg : g.AllTrees) {goal : Goal} :
    g.evaluate goal s = some (b, t) ↔ g.Runs (.goal goal) s b t := by
  constructor
  · intro h
    exact runs_of_attempt (evaluate_eq_some.mp h)
  · intro h
    -- what has a run has no re-entry, so the depth of an evaluation is enough
    obtain ⟨depth, hd⟩ := exists_attempt_iff_runs.mpr h
    obtain ⟨c, u, he⟩ := evaluate_of_not_reenters hg.nativesRead (hg.not_reenters_of_attempt hd)
    obtain ⟨rfl, rfl⟩ := attempt_of_answer h (evaluate_eq_some.mp he)
    exact he

/-- **An evaluation has no result exactly when there is re-entry.** -/
theorem evaluate_eq_none_iff (hg : g.AllTrees) {goal : Goal} :
    g.evaluate goal s = none ↔ g.Reenters (.goal goal) s := by
  constructor
  · intro h
    by_contra hr
    obtain ⟨b, t, he⟩ := evaluate_of_not_reenters hg.nativesRead hr
    simp [h] at he
  · intro h
    rcases he : g.evaluate goal s with _ | ⟨b, t⟩
    · rfl
    · exact absurd h (hg.not_reenters_of_attempt (evaluate_eq_some.mp he))

end AllTrees

end Grammar

end Peg
