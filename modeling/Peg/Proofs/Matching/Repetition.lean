import Peg.Proofs.Grammar.Exactness
import Peg.Proofs.Matching.Endless

/-!
# Repetitions get ahead

A repetition goes round until a round fails. It also breaks off after a round that matched without
reading anything (`Peg.Grammar.Breaks`), because the next one would do the same. The checks are there
to make this a case that hardly comes up: what is repeated in a grammar that was built is not nullable
by the verdicts on its rules, and only what is nullable succeeds where it began
(`Peg.Grammar.Runs.nullable`). The one exception is the end of the input, which is found there without
reading anything although it is not nullable. So repetitions break off at the end of the input or not
at all (`Peg.Grammar.nullable_predicts`).

That the loops which come up in a parse are those of the repetitions in the rules is an invariant of
what is started (`Peg.Grammar.Starts.stands`).
-/

namespace Peg

namespace Grammar

/-- The expression stands in a rule of the grammar, at whatever depth. -/
def Has (g : Grammar) (e : Expr) : Prop := ∃ id b, g.body? id = some (.tree b) ∧ b.Contains e

/-- The expression is repeated in a rule of the grammar. -/
def Repeats (g : Grammar) (a : Expr) : Prop := g.Has (.star a) ∨ g.Has (.plus a)

variable {g : Grammar} {e a : Expr}

theorem has_of_body {id : RuleId} (h : g.body? id = some (.tree e)) : g.Has e := ⟨id, e, h, .refl⟩

theorem Has.child (h : g.Has e) (ha : a ∈ e.children) : g.Has a := by
  obtain ⟨id, b, hid, he⟩ := h
  exact ⟨id, b, hid, he.tail ha⟩

theorem Repeats.has (h : g.Repeats a) : g.Has a := by
  obtain h | h := h
  · exact h.child (List.mem_singleton_self a)
  · exact h.child (List.mem_singleton_self a)

/-- What is repeated in a grammar that passes the check is not nullable. -/
theorem Repeatable.not_nullable (hg : g.Repeatable) (h : g.Repeats a) :
    ¬a.nullable g.nullable = true := by
  intro hnull
  obtain ⟨id, b, hid, hb⟩ : ∃ id b, g.body? id = some (.tree b) ∧
      (b.Contains (.star a) ∨ b.Contains (.plus a)) := by
    obtain ⟨id, b, hid, hb⟩ | ⟨id, b, hid, hb⟩ := h
    · exact ⟨id, b, hid, .inl hb⟩
    · exact ⟨id, b, hid, .inr hb⟩
  obtain ⟨rule, hrule, hbody⟩ := Option.map_eq_some_iff.mp hid
  exact hg rule (List.mem_of_getElem? hrule) ⟨b, a, hbody, hb, hnull⟩

end Grammar

/-- What the task is about stands in a rule of the grammar. Of a procedure this cannot be said. -/
def Task.Stands (g : Grammar) : Task → Prop
  | .goal (.expr e) | .node e => g.Has e
  | .goal (.rule _) | .goal (.named _) => True
  | .loop a _ => g.Repeats a
  | .script _ => False

namespace Grammar

variable {g : Grammar} {a e : Expr} {τ τ' : Task} {s s' t u : State}

/-- **What is started on the way stands in a rule** if what starts it does. -/
theorem Starts.stands (hg : g.AllTrees) (h : g.Starts τ s τ' s') (hτ : τ.Stands g) :
    τ'.Stands g := by
  cases h with
  | node => exact hτ
  | tree hid => exact has_of_body hid
  | native hid => exact absurd hid hg.body_ne_native
  | named => trivial
  | star => exact .inl hτ
  | plus_rest => exact .inr hτ
  | call => trivial
  | loop_first => exact Repeats.has hτ
  | loop_more => exact hτ
  | ask => exact hτ.elim
  | resume => exact hτ.elim
  | _ => exact Has.child hτ (by simp [Expr.children])

theorem stands_of_opens (hg : g.AllTrees) (h : Relation.ReflTransGen g.Opens (τ, s) (τ', s'))
    (hτ : τ.Stands g) : τ'.Stands g :=
  invariant_of_opens (fun h₁ hst => hst.stands hg h₁) h hτ

/-- **A repetition breaks off at an offset** while the goal is attempted: it has come to this offset,
and its next round matches and leaves it there. -/
def Breaks (g : Grammar) (goal : Goal) (s : State) (offset : Nat) : Prop :=
  ∃ a u t, Relation.ReflTransGen g.Opens (.goal goal, s) (.loop a offset, u) ∧
    g.Runs (.goal (.expr a)) u true t ∧ t.offset = offset

/-- What succeeds where it began, with input left, is nullable. -/
theorem Runs.nullable_of_still (hg : g.AllTrees) (h : g.Runs (.goal (.expr e)) s true t)
    (hs : s.offset < s.input.size) (ho : t.offset = s.offset) : e.nullable g.nullable = true :=
  h.nullable hg.nativesRead trivial rfl ho (.inr hs)

/-- A round of a repetition that matches, with input left, reads something. -/
theorem Repeatable.round_lt (hr : g.Repeatable) (hg : g.AllTrees) (ha : g.Repeats a)
    (h : g.Runs (.goal (.expr a)) s true t) (hs : s.offset < s.input.size) :
    s.offset < t.offset := by
  have hle := (h.reaches hg.nativesRead trivial).le
  have hne : t.offset ≠ s.offset := fun ho => hr.not_nullable ha (h.nullable_of_still hg hs ho)
  omega

/-- A repetition that breaks off has come to the end of the input. -/
theorem Repeatable.size_le_of_breaks (hr : g.Repeatable) (hg : g.AllTrees) {goal : Goal}
    (hgoal : (Task.goal goal).Stands g) {offset : Nat} (h : g.Breaks goal s offset) :
    s.input.size ≤ offset := by
  obtain ⟨a, u, t, hchain, hrun, ho⟩ := h
  obtain ⟨hmark, hreach⟩ := reaches_of_opens hg.nativesRead hchain trivial
  have hmark : u.offset = offset := hmark
  by_contra hlt
  have hround := hr.round_lt hg (stands_of_opens hg hchain hgoal) hrun (by
    rw [hreach.input]
    omega)
  omega

/-- **Nullability predicts what may succeed where it began**, wherever input is left. In a grammar that
was built, therefore, every round of a repetition that matches where input is left reads something, and
a repetition that breaks off in the course of a parse does so at the end of the input. -/
theorem nullable_predicts (hg : g.AllTrees) :
    (∀ e s t, g.evaluate (.expr e) s = some (true, t) → s.offset < s.input.size →
      t.offset = s.offset → e.nullable g.nullable = true) ∧
    ∀ d : Draft, d.build = .ok g →
      (∀ a s t, g.Repeats a → g.evaluate (.expr a) s = some (true, t) →
        s.offset < s.input.size → s.offset < t.offset) ∧
      ∀ id s offset, g.Breaks (.rule id) s offset → s.input.size ≤ offset := by
  refine ⟨fun e s t h hs ho => ?_, fun d hd => ?_⟩
  · exact (hg.evaluate_iff_runs.mp h).nullable_of_still hg hs ho
  · obtain ⟨-, -, hr, -⟩ := Draft.build_eq_ok_iff.mp hd
    refine ⟨fun a s t ha h hs => ?_, fun id s offset h => ?_⟩
    · exact hr.round_lt hg ha (hg.evaluate_iff_runs.mp h) hs
    · have hstands : (Task.goal (.rule id)).Stands g := trivial
      exact hr.size_le_of_breaks hg hstands h

/-- A rule that is a repetition comes to its loop. -/
theorem opens_loop {id : RuleId} (hid : g.body? id = some (.tree (.star a))) (s : State) :
    Relation.ReflTransGen g.Opens (.goal (.rule id), s)
      (.loop a s.offset, (s.emit (.enter (g.nameOf id) s.offset)).track false) := by
  refine .head (Starts.tree hid).opens ?_
  exact .head Starts.node.opens (.single Starts.star.opens)

/-- The end of the input or a blank. -/
def blank : Expr := .alt .endOfInput (.char ' ')

/-- `padding <- (EOI / ' ')*`, which finds the end of the input over and over. -/
def padding : Grammar where
  rules := [⟨"padding", .tree (.star blank)⟩]
  root := some 0

/-- Having read the only blank, the repetition breaks off behind it. -/
theorem breaks_padding : padding.Breaks (.rule 0) (.ofReader { input := #[' '] }) 1 := by
  have hloop := opens_loop (rfl : padding.body? 0 = _) (.ofReader { input := #[' '] })
  obtain ⟨t, u, hread, ht, hstill, hu⟩ : ∃ t u,
      padding.attempt 2 (.expr blank)
        (((State.ofReader { input := #[' '] }).emit (.enter "padding" 0)).track false) =
          (some true, t) ∧ t.offset = 1 ∧
      padding.attempt 2 (.expr blank) t = (some true, u) ∧ u.offset = 1 :=
    ⟨_, _, rfl, rfl, rfl, rfl⟩
  have hmore : padding.Starts (.loop blank 0) _ (.loop blank t.offset) t :=
    .loop_more (runs_of_attempt hread) (by omega)
  rw [ht] at hmore
  exact ⟨blank, t, u, hloop.tail hmore.opens, runs_of_attempt hstill, hu⟩

theorem nullable_predicts_padding :
    padding.AllTrees ∧ Draft.build { rules := padding.rules } = .ok padding ∧
      (Expr.star blank).nullable padding.nullable = true ∧
      padding.Breaks (.rule 0) (.ofReader { input := #[' '] }) 1 ∧ #[' '].size ≤ 1 := by
  have htrees : padding.AllTrees := by simp [AllTrees, padding, Body.tree?]
  have hbuild : Draft.build { rules := padding.rules } = .ok padding := rfl
  obtain ⟨t, heval, ht⟩ : ∃ t, padding.evaluate (.expr (.star blank))
      (.ofReader { input := #['x'] }) = some (true, t) ∧ t.offset = 0 := ⟨_, rfl, rfl⟩
  obtain ⟨hstill, hbuilt⟩ := nullable_predicts htrees
  exact ⟨htrees, hbuild, hstill _ _ t heval (by decide) ht, breaks_padding,
    (hbuilt _ hbuild).2 0 _ 1 breaks_padding⟩

end Grammar

end Peg
