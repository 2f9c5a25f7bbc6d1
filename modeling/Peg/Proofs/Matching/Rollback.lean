import Peg.Proofs.Grammar.Basic
import Peg.Proofs.Matching.Runs

/-!
# What was captured before

Whatever is tried, the captures that were there before stay there: a run puts captures behind them and
takes none of them away (`Peg.Grammar.Runs.keeps`). This is what makes rolling back exact. Cutting the
captures back to their number when an attempt began gives the captures of that time only if nothing has
cut deeper in between, and nothing does.

An expression that fails leaves the captures as they were, one that matches may have added some, and
looking ahead changes neither the captures nor the offset, however it comes out
(`Peg.Grammar.attempt_rolls_back`).

Native rules may do what they like, with one exception: they must not take away what was captured before
they were entered (`Peg.Grammar.NativesSpare`). A native rule that asks for something may rely on the
same of what it asks for.
-/

namespace Peg

namespace State

variable {s t : State}

theorem isPrefix_of_captures_eq (h : t.captures = s.captures) :
    s.captures.toList <+: t.captures.toList :=
  h ▸ List.prefix_rfl

/-- Captures that only grew are cut back to what they were. -/
theorem captures_dropCaptures_of_isPrefix (h : s.captures.toList <+: t.captures.toList) :
    (t.dropCaptures s.captures.size).captures = s.captures := by
  obtain ⟨r, hr⟩ := h
  apply Array.toList_inj.mp
  simp [← hr]

/-- Where captures only grew, looking ahead leaves them as they were. -/
theorem captures_restore_of_isPrefix (h : s.captures.toList <+: t.captures.toList) :
    (t.restore s.snapshot).captures = s.captures :=
  captures_dropCaptures_of_isPrefix (t := t.moveTo s.offset) h

end State

namespace Grammar

/-- **The script spares the captures `cs`**: they are still there whenever it asks for something and
when it is over. It has to do so only for answers that the grammar gives and that have taken no captures
away. -/
inductive Spares (g : Grammar) (cs : List Capture) : Script → Prop
  | done {b s} (h : cs <+: s.captures.toList) : g.Spares cs (.done b s)
  | ask {goal r resume} (h : cs <+: r.captures.toList)
      (hc : ∀ b t, g.Runs (.goal goal) r b t → r.captures.toList <+: t.captures.toList →
        g.Spares cs (resume b t)) : g.Spares cs (.ask goal r resume)

/-- **No native rule takes away what was captured before it was entered.** -/
def NativesSpare (g : Grammar) : Prop :=
  ∀ id start, g.body? id = some (.native start) → ∀ s, g.Spares s.captures.toList (start s)

theorem AllTrees.nativesSpare {g : Grammar} (h : g.AllTrees) : g.NativesSpare :=
  fun _ _ hid => absurd hid h.body_ne_native

end Grammar

/-- **What a run leaves of the captures**: all of them, and nothing else if it is that of an expression
that fails. -/
def Task.Keeps (g : Grammar) (τ : Task) (s : State) (b : Bool) (t : State) : Prop :=
  match τ, b with
  | .goal (.expr _), false => t.captures = s.captures
  | .goal (.expr _), true | .goal (.rule _), _ | .goal (.named _), _ | .node _, _ | .loop _ _, _ =>
    s.captures.toList <+: t.captures.toList
  | .script c, _ => ∀ cs, g.Spares cs c → cs <+: t.captures.toList

theorem Task.Keeps.isPrefix {g : Grammar} {goal : Goal} {s : State} {b : Bool} {t : State}
    (h : (Task.goal goal).Keeps g s b t) : s.captures.toList <+: t.captures.toList := by
  cases goal with
  | expr e =>
    cases b with
    | false => exact State.isPrefix_of_captures_eq h
    | true => exact h
  | rule id => exact h
  | named name => exact h

namespace Grammar

variable {g : Grammar} {τ : Task} {s t : State} {b : Bool}

/-- **No run takes away what was captured before**, and an expression that fails adds nothing to it. -/
theorem Runs.keeps (hn : g.NativesSpare) (h : g.Runs τ s b t) : τ.Keeps g s b t := by
  induction h with
  | expr_matches _ ih => exact ih
  | expr_fails _ ih => exact State.captures_dropCaptures_of_isPrefix ih
  | rule_tree _ _ ih => exact ih.isPrefix
  | @rule_native id start s _ _ hid _ ih =>
    exact ih _ (hn id start hid (s.emit (.enter (g.nameOf id) s.offset)))
  | rule_missing => exact List.prefix_rfl
  | named_known _ _ ih => exact ih
  | named_unknown => exact List.prefix_rfl
  | text_matches => exact List.prefix_rfl
  | text_fails => exact List.prefix_rfl
  | single_matches => exact List.prefix_rfl
  | single_fails => exact List.prefix_rfl
  | empty => exact List.prefix_rfl
  | seq_first_fails _ ih => exact ih.isPrefix
  | seq_second_fails _ _ iha ihb => exact iha.isPrefix.trans ihb.isPrefix
  | seq_matches _ _ iha ihb => exact iha.isPrefix.trans ihb.isPrefix
  | alt_first _ ih => exact ih
  | alt_second _ _ iha ihb => exact iha.isPrefix.trans ihb.isPrefix
  | alt_fails _ _ iha ihb => exact iha.isPrefix.trans ihb.isPrefix
  | opt_some _ ih => exact ih
  | opt_none _ ih => exact ih.isPrefix
  | star _ ih => exact ih
  | plus_fails _ ih => exact ih.isPrefix
  | plus_matches _ _ iha ihl => exact iha.isPrefix.trans ihl
  | loop_ends _ ih => exact ih.isPrefix
  | loop_still _ _ ih => exact ih
  | loop_more _ _ _ iha ihl => exact iha.isPrefix.trans ihl
  | ahead_matches _ ih =>
    exact State.isPrefix_of_captures_eq (State.captures_restore_of_isPrefix ih.isPrefix)
  | ahead_fails _ ih =>
    exact State.isPrefix_of_captures_eq (State.captures_restore_of_isPrefix ih.isPrefix)
  | notAhead_matches _ ih =>
    exact State.isPrefix_of_captures_eq (State.captures_restore_of_isPrefix ih.isPrefix)
  | notAhead_fails _ ih =>
    exact State.isPrefix_of_captures_eq (State.captures_restore_of_isPrefix ih.isPrefix)
  | call_matches _ _ ih => exact ih
  | call_fails _ _ ih => exact ih
  | call_unbound => exact List.prefix_rfl
  | capture_matches _ ih => exact ih.isPrefix.trans (by simp)
  | capture_fails _ ih => exact ih.isPrefix
  | done =>
    intro cs hcs
    cases hcs with
    | done h => exact h
  | ask hrun _ ih ihc =>
    -- what was asked for has taken nothing away, and so neither does what comes after it
    intro cs hcs
    cases hcs with
    | ask _ hc => exact ihc cs (hc _ _ hrun ih.isPrefix)

/-- Looking ahead leaves the captures and the offset as they were, whatever comes of it. -/
theorem Runs.restores (hn : g.NativesSpare) {e a : Expr} (he : e = .ahead a ∨ e = .notAhead a)
    (h : g.Runs (.goal (.expr e)) s b t) : t.captures = s.captures ∧ t.offset = s.offset := by
  have hnode : ∀ {c u}, g.Runs (.node e) s c u → u.captures = s.captures ∧ u.offset = s.offset := by
    intro c u hrun
    have hrestore {c v} (ha : g.Runs (.goal (.expr a)) s c v) :
        (v.restore s.snapshot).captures = s.captures :=
      State.captures_restore_of_isPrefix (ha.keeps hn).isPrefix
    rcases he with rfl | rfl
    · cases hrun with
      | single_matches he => cases he
      | single_fails he => cases he
      | ahead_matches ha => exact ⟨hrestore ha, rfl⟩
      | ahead_fails ha => exact ⟨hrestore ha, rfl⟩
    · cases hrun with
      | single_matches he => cases he
      | single_fails he => cases he
      | notAhead_matches ha => exact ⟨hrestore ha, rfl⟩
      | notAhead_fails ha => exact ⟨hrestore ha, rfl⟩
  cases b with
  | true =>
    cases h with
    | expr_matches hrun => exact hnode hrun
  | false =>
    refine ⟨h.keeps hn, ?_⟩
    cases h with
    | expr_fails hrun => exact (hnode hrun).2

/-- **Rolling back is exact.** In a grammar whose native rules take away nothing that was captured
before they were entered, an expression that fails leaves the captures as they were, and one that matches
leaves them at the front of what there is then. Looking ahead leaves the captures and the offset as they
were, whichever way it comes out. -/
theorem attempt_rolls_back (hn : g.NativesSpare) {depth : Nat} {e : Expr}
    (h : g.attempt depth (.expr e) s = (some b, t)) :
    (b = false → t.captures = s.captures) ∧
      (b = true → s.captures.toList <+: t.captures.toList) ∧
      ((∃ a, e = .ahead a ∨ e = .notAhead a) → t.captures = s.captures ∧ t.offset = s.offset) := by
  have hrun := runs_of_attempt h
  have hkeeps := hrun.keeps hn
  refine ⟨?_, fun _ => hkeeps.isPrefix, fun ⟨a, ha⟩ => hrun.restores hn ha⟩
  rintro rfl
  exact hkeeps

/-- A native rule that captures something, asks for the rule `item`, reads on and fails. -/
def grabbing (s : State) : Script :=
  .ask (.named "item") (s.push Capture.empty) fun _ t => .done false t.advance

/-- `item <- <.>`, and a native rule `grab` that fails with all it has captured. -/
def grabber : Grammar where
  rules := [⟨"item", .tree (.capture .any)⟩, ⟨"grab", .native grabbing⟩]

theorem nativesSpare_grabber : grabber.NativesSpare := by
  intro id start hid s
  obtain rfl : start = grabbing := by
    rcases id with _ | _ | id <;> simp_all [grabber, body?]
  have hpush : s.captures.toList <+: (s.push Capture.empty).captures.toList := by simp
  exact .ask hpush fun _ t _ ht => .done (hpush.trans ht)

/-- The rule `grab` has failed with two captures more, behind the expression that looked for it. -/
theorem attempt_rolls_back_grabber :
    grabber.NativesSpare ∧
      ∃ t, grabber.attempt 8 (.expr (.notAhead (.call { name := "grab", id := some 1 })))
          { reader := { input := #['x', 'y'] }, captures := #[Capture.ofRange 0 2] } = (some true, t) ∧
        t.captures = #[Capture.ofRange 0 2] ∧ t.offset = 0 := by
  obtain ⟨t, ht⟩ : ∃ t,
      grabber.attempt 8 (.expr (.notAhead (.call { name := "grab", id := some 1 })))
        { reader := { input := #['x', 'y'] }, captures := #[Capture.ofRange 0 2] } = (some true, t) :=
    ⟨_, rfl⟩
  have hrestores := (attempt_rolls_back nativesSpare_grabber ht).2.2 ⟨_, .inr rfl⟩
  exact ⟨nativesSpare_grabber, t, ht, hrestores⟩

end Grammar

end Peg
