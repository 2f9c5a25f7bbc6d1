import Peg.Proofs.Matching.Runs

/-!
# What a task starts

`Peg.Grammar.Starts` says which tasks a task begins on its way, and in which states. Whether the
later ones are begun depends on how the earlier ones ended, so that the relation rests on the
finished runs of the earlier ones; it says nothing about whether the tasks begun last come to an end.
A chain of started tasks is what is open at one moment of a parse.

A task that starts nothing without end comes to an end. The main statement puts a number to that:
given a measure that goes down by one with every goal entered and every round of a repetition, and
does not go up otherwise (`Peg.Grammar.Bounds`), a depth greater than the measure is enough for an
answer (`Peg.Grammar.Bounds.attempt`).
-/

namespace Peg

namespace Grammar

/-- **The tasks that a task starts**, with the states in which they begin. -/
inductive Starts (g : Grammar) : Task → State → Task → State → Prop
  /- Goals. -/
  | node {e s} : g.Starts (.goal (.expr e)) s (.node e) s
  | tree {id e s} (hid : g.body? id = some (.tree e)) :
      g.Starts (.goal (.rule id)) s (.goal (.expr e)) (s.emit (.enter (g.nameOf id) s.offset))
  | native {id start s} (hid : g.body? id = some (.native start)) :
      g.Starts (.goal (.rule id)) s (.script (start (s.emit (.enter (g.nameOf id) s.offset))))
        (s.emit (.enter (g.nameOf id) s.offset))
  | named {name id s} (hid : g.find? name = some id) :
      g.Starts (.goal (.named name)) s (.goal (.rule id)) s
  /- Nodes. -/
  | seq_first {a b s} : g.Starts (.node (.seq a b)) s (.goal (.expr a)) s
  | seq_second {a b s t} (h : g.Runs (.goal (.expr a)) s true t) :
      g.Starts (.node (.seq a b)) s (.goal (.expr b)) t
  | alt_first {a b s} : g.Starts (.node (.alt a b)) s (.goal (.expr a)) s
  | alt_second {a b s t} (h : g.Runs (.goal (.expr a)) s false t) :
      g.Starts (.node (.alt a b)) s (.goal (.expr b)) (t.moveTo s.offset)
  | opt {a s} : g.Starts (.node (.opt a)) s (.goal (.expr a)) s
  | star {a s} : g.Starts (.node (.star a)) s (.loop a s.offset) (s.track false)
  | plus_first {a s} : g.Starts (.node (.plus a)) s (.goal (.expr a)) s
  | plus_rest {a s t} (h : g.Runs (.goal (.expr a)) s true t) :
      g.Starts (.node (.plus a)) s (.loop a t.offset) (t.track false)
  | ahead {a s} : g.Starts (.node (.ahead a)) s (.goal (.expr a)) s
  | notAhead {a s} : g.Starts (.node (.notAhead a)) s (.goal (.expr a)) s
  | call {r id s} (hr : r.id = some id) : g.Starts (.node (.call r)) s (.goal (.rule id)) s
  | capture {a s} : g.Starts (.node (.capture a)) s (.goal (.expr a)) s
  /- Repetitions and scripts. -/
  | loop_first {a mark s} : g.Starts (.loop a mark) s (.goal (.expr a)) s
  | loop_more {a mark s t} (h : g.Runs (.goal (.expr a)) s true t) (ht : t.offset ≠ mark) :
      g.Starts (.loop a mark) s (.loop a t.offset) t
  | ask {goal r resume s} : g.Starts (.script (.ask goal r resume)) s (.goal goal) r
  | resume {goal r resume s b t} (h : g.Runs (.goal goal) r b t) :
      g.Starts (.script (.ask goal r resume)) s (.script (resume b t)) t

end Grammar

/-- A single character is tested at once. -/
theorem Matcher.single_answer (accept : Option Char → Bool) (f : Failure) (s : State) :
    ∃ b t, single accept f s = (some b, t) := by
  cases h : accept s.reader.current? with
  | false => exact ⟨_, _, single_eq_some.mpr (.inr ⟨rfl, h, rfl⟩)⟩
  | true => exact ⟨_, _, single_eq_some.mpr (.inl ⟨rfl, h, rfl⟩)⟩

/-- What starting one task from another costs: one for what is entered from a goal, and one for the
next round of a repetition. -/
def Task.cost : Task → Task → Nat
  | .goal _, _ | .loop .., .loop .. => 1
  | _, _ => 0

namespace Grammar

/-- **A measure that pays for everything started**, on tasks that satisfy an invariant. -/
structure Bounds (g : Grammar) (Inv : Task → State → Prop) (μ : Task → State → Nat) : Prop where
  /-- The invariant passes on to what is started. -/
  keeps : ∀ {τ s τ' s'}, Inv τ s → g.Starts τ s τ' s' → Inv τ' s'
  /-- The measure pays for what is started. -/
  pays : ∀ {τ s τ' s'}, Inv τ s → g.Starts τ s τ' s' → μ τ' s' + τ.cost τ' ≤ μ τ s

namespace Bounds

variable {g : Grammar} {Inv : Task → State → Prop} {μ : Task → State → Nat} {depth bound : Nat}

section Step

variable (h : g.Bounds Inv μ)
  (hF : ∀ goal s, Inv (.goal goal) s → μ (.goal goal) s < depth →
    ∃ b t, g.attempt depth goal s = (some b, t))
include h hF

/-- A goal that a node, a repetition or a script starts is answered. -/
theorem answer_of_starts {τ : Task} {s s' : State} {goal : Goal} (hs : Inv τ s)
    (hd : μ τ s < depth) (hst : g.Starts τ s (.goal goal) s') :
    ∃ b t, g.attempt depth goal s' = (some b, t) := by
  have hpay := h.pays hs hst
  exact hF goal s' (h.keeps hs hst) (by omega)

/-- A repetition is answered, by induction on the rounds that are left. -/
theorem iterate {a : Expr} {mark : Nat} {s : State} (hs : Inv (.loop a mark) s)
    (hd : μ (.loop a mark) s < depth) (hb : μ (.loop a mark) s < bound) :
    ∃ b t, Matcher.iterate (g.attempt depth (.expr a)) bound mark s = (some b, t) := by
  induction bound generalizing mark s with
  | zero => omega
  | succ bound ih =>
    obtain ⟨b, t, ha⟩ := h.answer_of_starts hF hs hd .loop_first
    cases b with
    | false => exact ⟨_, _, Matcher.iterate_succ_eq_some.mpr (.inl ⟨rfl, t, ha, rfl⟩)⟩
    | true =>
      by_cases ht : t.offset = mark
      · exact ⟨_, _, Matcher.iterate_succ_eq_some.mpr (.inr (.inl ⟨rfl, ha, ht⟩))⟩
      · have hst : g.Starts (.loop a mark) s (.loop a t.offset) t :=
          .loop_more (runs_of_attempt ha) ht
        have hpay : μ (.loop a t.offset) t + 1 ≤ μ (.loop a mark) s := h.pays hs hst
        obtain ⟨b, u, hrest⟩ := ih (h.keeps hs hst) (by omega) (by omega)
        exact ⟨b, u, Matcher.iterate_succ_eq_some.mpr (.inr (.inr ⟨t, ha, ht, hrest⟩))⟩

/-- A script is answered. -/
theorem script {c : Script} {s : State} (hs : Inv (.script c) s) (hd : μ (.script c) s < depth) :
    ∃ b t, c.run (g.attempt depth) = (some b, t) := by
  induction c generalizing s with
  | done b t => exact ⟨b, t, rfl⟩
  | ask goal r resume ih =>
    obtain ⟨b, t, ha⟩ := h.answer_of_starts hF hs hd .ask
    have hst : g.Starts (.script (.ask goal r resume)) s (.script (resume b t)) t :=
      .resume (runs_of_attempt ha)
    have hpay := h.pays hs hst
    obtain ⟨c, u, hrest⟩ := ih b t (h.keeps hs hst) (by omega)
    exact ⟨c, u, Script.run_ask_eq_some.mpr ⟨b, t, ha, hrest⟩⟩

/-- The loop inside a muted repetition is answered. -/
theorem repeated {τ : Task} {a : Expr} {s s' : State} (hs : Inv τ s) (hd : μ τ s < depth)
    (hb : μ τ s < bound) (hst : g.Starts τ s (.loop a s'.offset) (s'.track false)) :
    ∃ b t, Matcher.repeated bound (g.attempt depth (.expr a)) s' = (some b, t) := by
  have hpay := h.pays hs hst
  obtain ⟨b, t, hl⟩ := h.iterate hF (h.keeps hs hst) (by omega) (by omega : _ < bound)
  exact ⟨b, _, Matcher.repeated_eq_some.mpr ⟨t, hl, rfl⟩⟩

/-- A node is answered. -/
theorem step {e : Expr} {s : State} (hs : Inv (.node e) s) (hd : μ (.node e) s < depth)
    (hb : μ (.node e) s < bound) :
    ∃ b t, e.step (g.attempt depth) bound s = (some b, t) := by
  cases e with
  | seq a b =>
    obtain ⟨_ | _, t, ha⟩ := h.answer_of_starts hF hs hd .seq_first
    · exact ⟨_, _, Matcher.sequence_eq_some.mpr (.inl ⟨rfl, t, ha, rfl⟩)⟩
    · obtain ⟨_ | _, u, hb⟩ := h.answer_of_starts hF hs hd (.seq_second (runs_of_attempt ha))
      · exact ⟨_, _, Matcher.sequence_eq_some.mpr (.inr (.inl ⟨rfl, t, u, ha, hb, rfl⟩))⟩
      · exact ⟨_, _, Matcher.sequence_eq_some.mpr (.inr (.inr ⟨rfl, t, ha, hb⟩))⟩
  | alt a b =>
    obtain ⟨_ | _, t, ha⟩ := h.answer_of_starts hF hs hd .alt_first
    · obtain ⟨_ | _, u, hb⟩ := h.answer_of_starts hF hs hd (.alt_second (runs_of_attempt ha))
      · exact ⟨_, _, Matcher.choice_eq_some.mpr (.inr (.inr ⟨rfl, t, u, ha, hb, rfl⟩))⟩
      · exact ⟨_, _, Matcher.choice_eq_some.mpr (.inr (.inl ⟨rfl, t, u, ha, hb, rfl⟩))⟩
    · exact ⟨_, _, Matcher.choice_eq_some.mpr (.inl ⟨rfl, ha⟩)⟩
  | opt a =>
    obtain ⟨_ | _, t, ha⟩ := h.answer_of_starts hF hs hd .opt
    · exact ⟨_, _, Matcher.optional_eq_some.mpr ⟨rfl, .inr ⟨t, ha, rfl⟩⟩⟩
    · exact ⟨_, _, Matcher.optional_eq_some.mpr ⟨rfl, .inl ha⟩⟩
  | star a => exact h.repeated hF hs hd hb .star
  | plus a =>
    obtain ⟨_ | _, t, ha⟩ := h.answer_of_starts hF hs hd .plus_first
    · exact ⟨_, _, Matcher.sequence_eq_some.mpr (.inl ⟨rfl, t, ha, rfl⟩)⟩
    · obtain ⟨_ | _, u, hl⟩ := h.repeated hF hs hd hb (.plus_rest (runs_of_attempt ha))
      · exact ⟨_, _, Matcher.sequence_eq_some.mpr (.inr (.inl ⟨rfl, t, u, ha, hl, rfl⟩))⟩
      · exact ⟨_, _, Matcher.sequence_eq_some.mpr (.inr (.inr ⟨rfl, t, ha, hl⟩))⟩
  | ahead a =>
    obtain ⟨_ | _, t, ha⟩ := h.answer_of_starts hF hs hd .ahead
    · exact ⟨_, _, Matcher.ahead_eq_some.mpr (.inr ⟨rfl, t, ha, rfl⟩)⟩
    · exact ⟨_, _, Matcher.ahead_eq_some.mpr (.inl ⟨rfl, t, ha, rfl⟩)⟩
  | notAhead a =>
    obtain ⟨_ | _, t, ha⟩ := h.answer_of_starts hF hs hd .notAhead
    · exact ⟨_, _, Matcher.notAhead_eq_some.mpr (.inl ⟨rfl, t, ha, rfl⟩)⟩
    · exact ⟨_, _, Matcher.notAhead_eq_some.mpr (.inr ⟨rfl, t, ha, rfl⟩)⟩
  | call r =>
    rcases hr : r.id with _ | id <;> simp only [Expr.step, hr]
    · exact ⟨_, _, Matcher.recording_eq_some.mpr (.inr ⟨rfl, s, rfl, rfl⟩)⟩
    · obtain ⟨_ | _, t, ha⟩ := h.answer_of_starts hF hs hd (.call hr)
      · exact ⟨_, _, Matcher.recording_eq_some.mpr (.inr ⟨rfl, t, ha, rfl⟩)⟩
      · exact ⟨_, _, Matcher.recording_eq_some.mpr (.inl ⟨rfl, ha⟩)⟩
  | capture a =>
    obtain ⟨_ | _, t, ha⟩ := h.answer_of_starts hF hs hd .capture
    · exact ⟨_, _, Matcher.captured_eq_some.mpr (.inr ⟨rfl, ha⟩)⟩
    · exact ⟨_, _, Matcher.captured_eq_some.mpr (.inl ⟨rfl, t, ha, rfl⟩)⟩
  | text x =>
    cases hx : s.reader.startsWith x.toList with
    | false => exact ⟨_, _, Matcher.literal_eq_some.mpr (.inr ⟨rfl, hx, rfl⟩)⟩
    | true => exact ⟨_, _, Matcher.literal_eq_some.mpr (.inl ⟨rfl, hx, rfl⟩)⟩
  | empty => exact ⟨_, _, rfl⟩
  | char c => exact Matcher.single_answer (· == some c) (.char c) s
  | endOfInput => exact Matcher.single_answer (·.isNone) .endOfInput s
  | range first last =>
    exact Matcher.single_answer (·.any fun c => first ≤ c && c ≤ last) (.range first last) s
  | any => exact Matcher.single_answer (·.isSome) .any s

end Step

/-- **A depth greater than the measure is enough for an answer.** -/
theorem attempt (h : g.Bounds Inv μ) {goal : Goal} {s : State} (hs : Inv (.goal goal) s)
    (hd : μ (.goal goal) s < depth) : ∃ b t, g.attempt depth goal s = (some b, t) := by
  induction depth generalizing goal s with
  | zero => omega
  | succ depth ih =>
    have hF : ∀ goal s, Inv (.goal goal) s → μ (.goal goal) s < depth →
        ∃ b t, g.attempt depth goal s = (some b, t) := fun _ _ => ih
    cases goal with
    | expr e =>
      have hpay : μ (.node e) s + 1 ≤ μ (.goal (.expr e)) s := h.pays hs .node
      obtain ⟨_ | _, t, he⟩ :=
        h.step hF (h.keeps hs .node) (by omega) (by omega : _ < depth)
      · exact ⟨_, _, Matcher.rollback_eq_some.mpr (.inr ⟨rfl, t, he, rfl⟩)⟩
      · exact ⟨_, _, Matcher.rollback_eq_some.mpr (.inl ⟨rfl, he⟩)⟩
    | rule id =>
      rcases hid : g.body? id with _ | ⟨e | start⟩ <;> simp only [Grammar.attempt, hid]
      · exact ⟨_, _, Matcher.traced_eq_some.mpr ⟨_, rfl, rfl⟩⟩
      · have hpay := h.pays hs (.tree hid)
        simp only [Task.cost] at hpay
        obtain ⟨b, t, he⟩ := ih (h.keeps hs (.tree hid)) (by omega)
        exact ⟨b, _, Matcher.traced_eq_some.mpr ⟨t, he, rfl⟩⟩
      · have hpay := h.pays hs (.native hid)
        simp only [Task.cost] at hpay
        obtain ⟨b, t, he⟩ := h.script hF (h.keeps hs (.native hid)) (by omega)
        exact ⟨b, _, Matcher.traced_eq_some.mpr ⟨t, he, rfl⟩⟩
    | named name =>
      rcases hid : g.find? name with _ | id <;> simp only [Grammar.attempt, hid]
      · exact ⟨_, _, rfl⟩
      · have hpay := h.pays hs (.named hid)
        simp only [Task.cost] at hpay
        exact ih (h.keeps hs (.named hid)) (by omega)

end Bounds

end Grammar

end Peg
