import Peg.Grammar.LeftCalls
import Peg.Proofs.Grammar.Digraph
import Peg.Proofs.Matching.Reentry

/-!
# Re-entry is left recursion

What a task comes to before anything is read stands at the left edge of what it matches
(`Peg.Grammar.leads_of_opens`). So a rule that comes back to itself at one offset lies on a cycle of
left calls (`Peg.Grammar.leftCycle_of_opens`): in the graph where the end of the input counts as
nothing, wherever it happens, and in the graph where it counts as a character, if there was a
character left.

A grammar without such a cycle has no parse without end (`Peg.Grammar.evaluation_ends`), if its native
rules ask for nothing and only read on. This holds even of expressions that repeat something nullable,
since a repetition ends with the first round that reads nothing, and a bound of one more than the
characters that are left is never used up (`Peg.Grammar.iterate_of_answers`).
-/

namespace Peg

/-- The left calls of a grammar. -/
abbrev Grammar.LeftCall (g : Grammar) (ends : Bool) : RuleId → RuleId → Prop :=
  Digraph.Edge (g.leftEdges ends)

/-- The task may come to the rule before anything is read. -/
def Task.Leads (g : Grammar) (ends : Bool) (τ : Task) (id : RuleId) : Prop :=
  match τ with
  | .goal (.expr e) | .node e | .loop e _ =>
    ∃ i ∈ e.leftCalls (g.nullable ends) ends, Relation.ReflTransGen (g.LeftCall ends) i id
  | .goal (.rule i) => Relation.ReflTransGen (g.LeftCall ends) i id
  | .goal (.named name) =>
    ∃ i, g.find? name = some i ∧ Relation.ReflTransGen (g.LeftCall ends) i id
  | .script _ => False

namespace Grammar

variable {g : Grammar} {ends : Bool} {τ τ' : Task} {s s' : State} {id : RuleId}

/-- The left calls of a rule are those of its tree. -/
theorem leftCall_of_body {e : Expr} {i : RuleId} (hid : g.body? id = some (.tree e))
    (hi : i ∈ e.leftCalls (g.nullable ends) ends) : g.LeftCall ends id i := by
  obtain ⟨d, hd, hbody⟩ := Option.map_eq_some_iff.mp hid
  simpa [LeftCall, Digraph.Edge, leftEdges, hd, hbody, Body.leftCalls] using hi

/-- A task leads to whatever is led to by what it starts without having read anything. -/
theorem Starts.leads (hn : g.NativesRead) (h : g.Starts τ s τ' s') (hf : τ.Fits s)
    (ho : s'.offset = s.offset) (hends : ends = true ∨ s.offset < s.input.size)
    (hl : τ'.Leads g ends id) : τ.Leads g ends id := by
  cases h with
  | node => exact hl
  | tree hid =>
    obtain ⟨i, hi, hchain⟩ := hl
    exact .head (leftCall_of_body hid hi) hchain
  | native => exact hl.elim
  | named hid => exact ⟨_, hid, hl⟩
  | seq_first =>
    obtain ⟨i, hi, hchain⟩ := hl
    exact ⟨i, by simp [Expr.leftCalls, hi], hchain⟩
  | @seq_second a b _ _ ha =>
    -- the first part was matched and has read nothing
    have hnull : a.nullable (g.nullable ends) ends = true := ha.nullable hn trivial rfl ho hends
    obtain ⟨i, hi, hchain⟩ := hl
    exact ⟨i, by simp [Expr.leftCalls, hnull, hi], hchain⟩
  | alt_first =>
    obtain ⟨i, hi, hchain⟩ := hl
    exact ⟨i, by simp [Expr.leftCalls, hi], hchain⟩
  | alt_second =>
    obtain ⟨i, hi, hchain⟩ := hl
    exact ⟨i, by simp [Expr.leftCalls, hi], hchain⟩
  | opt => exact hl
  | star => exact hl
  | plus_first => exact hl
  | plus_rest => exact hl
  | ahead => exact hl
  | notAhead => exact hl
  | call hr => exact ⟨_, by simp [Expr.leftCalls, hr], hl⟩
  | capture => exact hl
  | loop_first => exact hl
  | loop_more _ ht =>
    -- another round is begun only where something was read
    exact absurd (ho.trans hf) ht
  | ask => exact absurd hf Task.not_fits_ask
  | resume => exact absurd hf Task.not_fits_ask

/-- **What a task comes to before anything is read stands at its left edge.** -/
theorem leads_of_opens (hn : g.NativesRead)
    (h : Relation.ReflTransGen g.Opens (τ, s) (.goal (.rule id), s')) (hf : τ.Fits s)
    (ho : s'.offset = s.offset) (hends : ends = true ∨ s.offset < s.input.size) :
    τ.Leads g ends id := by
  suffices ∀ x : Task × State, Relation.ReflTransGen g.Opens x (.goal (.rule id), s') →
      x.1.Fits x.2 → s'.offset = x.2.offset → (ends = true ∨ x.2.offset < x.2.input.size) →
      x.1.Leads g ends id from this _ h hf ho hends
  intro x hx
  induction hx using Relation.ReflTransGen.head_induction_on with
  | refl => exact fun _ _ _ => .refl
  | @head x y hstep hrest ih =>
    intro hf ho hends
    -- nothing is read between here and the end of the chain
    have hy := Starts.fits hn hstep hf
    have hend := (reaches_of_opens hn hrest hy.1).2
    have hoff : y.2.offset = x.2.offset := by
      have := hy.2.le
      have := hend.le
      omega
    exact hstep.leads hn hf hoff hends
      (ih hy.1 (ho.trans hoff.symm) (by rwa [hy.2.input, hoff]))

/-- **A rule that comes back to itself at one offset lies on a cycle of left calls.** -/
theorem leftCycle_of_opens (hn : g.NativesRead)
    (h : Relation.TransGen g.Opens (.goal (.rule id), s) (.goal (.rule id), s'))
    (ho : s'.offset = s.offset) (hends : ends = true ∨ s.offset < s.input.size) :
    Relation.TransGen (g.LeftCall ends) id id := by
  obtain ⟨⟨τ, t⟩, hstep, hrest⟩ := Relation.TransGen.head'_iff.mp h
  have hst : g.Starts (.goal (.rule id)) s τ t := hstep
  have hy := hst.fits hn trivial
  have hoff : t.offset = s.offset := by
    have := hy.2.le
    have := (reaches_of_opens hn hrest hy.1).2.le
    omega
  have hl : τ.Leads g ends id :=
    leads_of_opens hn hrest hy.1 (ho.trans hoff.symm) (by rwa [hy.2.input, hoff])
  cases hst with
  | tree hid =>
    -- the first edge is that from the rule to its own tree
    obtain ⟨i, hi, hchain⟩ := hl
    exact .head' (leftCall_of_body hid hi) hchain
  | native => exact hl.elim

/-- Without a cycle of left calls no task comes back to a rule. -/
theorem not_reenters_of_acyclic (hn : g.NativesRead)
    (h : ∀ id, ¬Relation.TransGen (g.LeftCall true) id id) (τ : Task) (s : State) :
    ¬g.Reenters τ s :=
  fun ⟨id, _, _, _, hloop, ho⟩ => h id (leftCycle_of_opens hn hloop ho (.inl rfl))

/-- A repetition of something that is always answered ends after at most as many rounds as there are
characters left, and one more. -/
theorem iterate_of_answers (hn : g.NativesRead) {a : Expr} {depth : Nat}
    (ha : ∀ t, s.Reaches t → ∃ b u, g.attempt depth (.expr a) t = (some b, u)) {bound : Nat}
    (hb : s.input.size - s.offset < bound) :
    ∃ u, Matcher.iterate (g.attempt depth (.expr a)) bound s.offset s = (some true, u) := by
  induction bound generalizing s with
  | zero => omega
  | succ bound ih =>
    obtain ⟨b, t, hat⟩ := ha s (.refl s)
    cases b with
    | false => exact ⟨_, Matcher.iterate_succ_eq_some.mpr (.inl ⟨rfl, t, hat, rfl⟩)⟩
    | true =>
      by_cases ht : t.offset = s.offset
      · exact ⟨t, Matcher.iterate_succ_eq_some.mpr (.inr (.inl ⟨rfl, hat, ht⟩))⟩
      · have hr := (runs_of_attempt hat).reaches hn trivial
        have hlt : s.offset < t.offset := by
          have := hr.le
          omega
        have := hr.lt_size hlt
        obtain ⟨u, hu⟩ := ih (fun v hv => ha v (hr.trans hv)) (by rw [hr.input]; omega)
        exact ⟨u, Matcher.iterate_succ_eq_some.mpr (.inr (.inr ⟨t, hat, ht, hu⟩))⟩

/-- More rounds than there are characters left, and one more, are never used. -/
theorem iterate_bound (hn : g.NativesRead) (a : Expr) (depth : Nat) {bound bound' : Nat}
    (hb : s.input.size - s.offset < bound) (hb' : s.input.size - s.offset < bound') :
    Matcher.iterate (g.attempt depth (.expr a)) bound s.offset s =
      Matcher.iterate (g.attempt depth (.expr a)) bound' s.offset s := by
  induction bound generalizing bound' s with
  | zero => omega
  | succ bound ih =>
    obtain ⟨bound', rfl⟩ : ∃ k, bound' = k + 1 := ⟨bound' - 1, by omega⟩
    rw [Matcher.iterate, Matcher.iterate]
    rcases hat : g.attempt depth (.expr a) s with ⟨_ | _ | _, t⟩
    · rfl
    · rfl
    · by_cases ht : t.offset = s.offset
      · simp only [if_pos ht]
      · have hr := (runs_of_attempt hat).reaches hn trivial
        have hlt : s.offset < t.offset := by
          have := hr.le
          omega
        have := hr.lt_size hlt
        simp only [if_neg ht]
        exact ih (by rw [hr.input]; omega) (by rw [hr.input]; omega)

/-- **Without a cycle of left calls everything comes to an end.** Every expression is evaluated from
any state on. A repetition of it that may go on for one round more than there are characters left
ends by itself, and is never carried on for longer than that at whatever depth. -/
theorem evaluation_ends (hn : g.NativesRead)
    (h : ∀ id, ¬Relation.TransGen (g.LeftCall true) id id) (e : Expr) (s : State) :
    (∃ b t, g.evaluate (.expr e) s = some (b, t)) ∧
      (∀ depth, g.depthFor (.expr e) s.reader.size ≤ depth →
        ∃ t, Matcher.iterate (g.attempt depth (.expr e)) (s.input.size - s.offset + 1) s.offset s =
          (some true, t)) ∧
      ∀ depth bound, s.input.size - s.offset + 1 ≤ bound →
        Matcher.iterate (g.attempt depth (.expr e)) bound s.offset s =
          Matcher.iterate (g.attempt depth (.expr e)) (s.input.size - s.offset + 1) s.offset s := by
  refine ⟨evaluate_of_not_reenters hn (not_reenters_of_acyclic hn h _ s), fun depth hd => ?_,
    fun depth bound hb => iterate_bound hn e depth hb (Nat.lt_succ_self _)⟩
  refine iterate_of_answers hn (fun t ht => ?_) (Nat.lt_succ_self _)
  have hsize : t.reader.size = s.reader.size := congrArg Array.size ht.input
  exact attempt_of_not_reenters hn (not_reenters_of_acyclic hn h _ t) (by rwa [hsize])

/-- A native rule that reads one character, whichever it is. -/
def readOne (s : State) : Script :=
  if s.offset < s.input.size then .done true s.advance else .done false s

/-- `a <- b?* c`, where `b` is native and `c` leads nowhere. -/
def looping : Grammar where
  rules := [
    ⟨"a", .tree (.seq (.star (.opt (.call { name := "b", id := some 1 }))) (Expr.rule "c"))⟩,
    ⟨"b", .native readOne⟩]

theorem nativesRead_looping : looping.NativesRead := by
  intro id start hid s
  have hstart : start = readOne := by
    rcases id with _ | _ | id <;> simp_all [looping, body?]
  rw [hstart, readOne]
  by_cases h : s.offset < s.input.size
  · rw [if_pos h]
    have := s.offset_advance_of_lt h
    exact ⟨true, s.advance, rfl, .advance s, fun _ => by omega⟩
  · rw [if_neg h]
    exact ⟨false, s, rfl, .refl s, fun hb => absurd hb (by decide)⟩

theorem acyclic_looping (id : RuleId) : ¬Relation.TransGen (looping.LeftCall true) id id :=
  Digraph.acyclic_of_cycle? (by decide) id

theorem evaluation_ends_looping :
    looping.NativesRead ∧ (∀ id, ¬Relation.TransGen (looping.LeftCall true) id id) ∧
      ∃ b t, looping.evaluate (.expr (.star (.opt (.call { name := "a", id := some 0 }))))
        (.ofReader { input := #['x', 'y'] }) = some (b, t) :=
  ⟨nativesRead_looping, acyclic_looping,
    (evaluation_ends nativesRead_looping acyclic_looping _ _).1⟩

end Grammar

end Peg
