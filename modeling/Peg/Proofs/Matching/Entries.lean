import Peg.Proofs.Matching.Reentry

/-!
# The rules that are open

The events of a parse tell which rules are open at each moment: those that were entered and have not
been left. Entries and exits nest, so an exit closes the latest entry that is still open
(`Peg.openEntries`). In a grammar of trees a finished run leaves the entries as it found them
(`Peg.Grammar.Runs.opened`), and so what is open is what is on the way down, that is, the rules on the
chain of tasks that led there (`Peg.Grammar.mem_opened_of_opens`, `Peg.Grammar.opens_of_mem_opened`).
-/

namespace Peg

/-- The entries that are open after one more event, the latest first. -/
def Event.after (opened : List (String × Nat)) : Event → List (String × Nat)
  | enter rule offset => (rule, offset) :: opened
  | exit _ _ _ => opened.tail
  | built _ _ | started _ _ | finished _ _ _ _ => opened

/-- The entries into rules that have no exit yet, the latest first. -/
def openEntries (trace : List Event) : List (String × Nat) := trace.foldl Event.after []

/-- The rule is entered at the offset while an entry of it at the same offset is open. -/
def Reentry (trace : List Event) (rule : String) (offset : Nat) : Prop :=
  ∃ before after, trace = before ++ .enter rule offset :: after ∧
    (rule, offset) ∈ openEntries before

/-- The entries that are open in a state. -/
def State.opened (s : State) : List (String × Nat) := openEntries s.trace.toList

namespace State

variable (s : State)

@[simp]
theorem opened_emit (e : Event) : (s.emit e).opened = e.after s.opened := by
  simp [opened, openEntries]

@[simp]
theorem opened_moveTo (n : Nat) : (s.moveTo n).opened = s.opened := rfl

@[simp]
theorem opened_track (b : Bool) : (s.track b).opened = s.opened := rfl

end State

/-- What a task enters: a rule at the offset where it begins, and nothing otherwise. -/
def Task.entry (g : Grammar) (s : State) : Task → List (String × Nat)
  | .goal (.rule id) => [(g.nameOf id, s.offset)]
  | _ => []

namespace Grammar

variable {g : Grammar} {τ τ' : Task} {s s' t : State} {b : Bool} {id : RuleId}

/-- **A finished run closes what it opened.** -/
theorem Runs.opened (hg : g.AllTrees) (h : g.Runs τ s b t) (hτ : ∀ c, τ ≠ .script c) :
    t.opened = s.opened := by
  -- only rules make events, and each closes the entry that it opened
  induction h with
  | rule_tree _ _ ih => simp [ih (by simp), Event.after]
  | rule_native hid => exact absurd hid hg.body_ne_native
  | rule_missing => simp [Event.after]
  | named_known _ _ ih => exact ih (by simp)
  | seq_second_fails _ _ iha ihb => exact (ihb (by simp)).trans (iha (by simp))
  | seq_matches _ _ iha ihb => exact (ihb (by simp)).trans (iha (by simp))
  | alt_second _ _ iha ihb => exact (ihb (by simp)).trans (iha (by simp))
  | alt_fails _ _ iha ihb => exact (ihb (by simp)).trans (iha (by simp))
  | plus_matches _ _ iha ihl => exact (ihl (by simp)).trans (iha (by simp))
  | loop_more _ _ _ iha ihl => exact (ihl (by simp)).trans (iha (by simp))
  | done => exact absurd rfl (hτ _)
  | ask => exact absurd rfl (hτ _)
  | expr_matches _ ih => exact ih (by simp)
  | expr_fails _ ih => exact ih (by simp)
  | seq_first_fails _ ih => exact ih (by simp)
  | alt_first _ ih => exact ih (by simp)
  | opt_some _ ih => exact ih (by simp)
  | opt_none _ ih => exact ih (by simp)
  | star _ ih => exact ih (by simp)
  | plus_fails _ ih => exact ih (by simp)
  | loop_ends _ ih => exact ih (by simp)
  | loop_still _ _ ih => exact ih (by simp)
  | ahead_matches _ ih => exact ih (by simp)
  | ahead_fails _ ih => exact ih (by simp)
  | notAhead_matches _ ih => exact ih (by simp)
  | notAhead_fails _ ih => exact ih (by simp)
  | call_matches _ _ ih => exact ih (by simp)
  | call_fails _ _ ih => exact ih (by simp)
  | capture_matches _ ih => exact ih (by simp)
  | capture_fails _ ih => exact ih (by simp)
  | _ => rfl

/-- What a task starts finds open what the task found open and what the task enters. -/
theorem Starts.opened (hg : g.AllTrees) (h : g.Starts τ s τ' s') (hf : τ.Fits s) :
    s'.opened = τ.entry g s ++ s.opened := by
  cases h with
  | tree => exact State.opened_emit _ _
  | native hid => exact absurd hid hg.body_ne_native
  | seq_second h => exact h.opened hg (by simp)
  | alt_second h => exact (State.opened_moveTo _ _).trans (h.opened hg (by simp))
  | plus_rest h => exact (State.opened_track _ _).trans (h.opened hg (by simp))
  | loop_more h => exact h.opened hg (by simp)
  | ask => exact absurd hf Task.not_fits_ask
  | resume => exact absurd hf Task.not_fits_ask
  | _ => rfl

/-- **A rule is open in whatever it leads to.** -/
theorem mem_opened_of_opens (hg : g.AllTrees)
    (h : Relation.TransGen g.Opens (.goal (.rule id), s) (τ, t)) :
    (g.nameOf id, s.offset) ∈ t.opened := by
  suffices ∀ y, Relation.TransGen g.Opens (.goal (.rule id), s) y →
      (g.nameOf id, s.offset) ∈ y.2.opened from this _ h
  intro y hy
  induction hy with
  | single hstep =>
    rw [Starts.opened hg hstep trivial]
    exact List.mem_cons_self
  | tail hchain hstep ih =>
    -- a step adds what it enters and closes nothing
    have hf := (reaches_of_opens hg.nativesRead hchain.to_reflTransGen trivial).1
    rw [Starts.opened hg hstep hf]
    exact List.mem_append_right _ ih

/-- The entry is that of a rule which is open on the way from the first task to the second. -/
def OnWay (g : Grammar) (x y : Task × State) (entry : String × Nat) : Prop :=
  ∃ id u, Relation.ReflTransGen g.Opens x (.goal (.rule id), u) ∧
    Relation.TransGen g.Opens (.goal (.rule id), u) y ∧ entry = (g.nameOf id, u.offset)

/-- **Whatever is open was open before or is a rule on the way.** -/
theorem opens_of_mem_opened (hg : g.AllTrees) {x y : Task × State} {entry : String × Nat}
    (h : Relation.ReflTransGen g.Opens x y) (hf : x.1.Fits x.2) (he : entry ∈ y.2.opened) :
    entry ∈ x.2.opened ∨ g.OnWay x y entry := by
  induction h with
  | refl => exact .inl he
  | @tail y z hchain hstep ih =>
    have hfy := (reaches_of_opens hg.nativesRead hchain hf).1
    rw [Starts.opened hg hstep hfy] at he
    rcases List.mem_append.mp he with hnew | hold
    · -- the rule that is entered by this step
      obtain ⟨τ, u⟩ := y
      rcases τ with (_ | id | _) | _ | _ | _ <;> simp only [Task.entry, List.not_mem_nil] at hnew
      exact .inr ⟨id, u, hchain, .single hstep, List.mem_singleton.mp hnew⟩
    · obtain hx | ⟨id, u, hto, hfrom, heq⟩ := ih hold
      · exact .inl hx
      · exact .inr ⟨id, u, hto, hfrom.tail hstep, heq⟩

end Grammar

end Peg
