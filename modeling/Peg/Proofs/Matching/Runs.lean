import Peg.Grammar.Attempt
import Peg.Proofs.Matching.Matcher
import Peg.Proofs.Matching.State

/-!
# Finished runs

A goal that is answered is answered by a finite run, and a run can be described without depths and
bounds: `Peg.Grammar.Runs` has one rule for each way in which an attempt may go, over the whole
state of the parse. Besides goals, four kinds of things are run (`Peg.Task`): a node of an
expression, which differs from the goal of matching it by the captures that a failure drops; what is
left of a repetition; and what is left of a native rule.

The main statement is that these runs are what `Peg.Grammar.attempt` does: a goal is answered at
some depth exactly when there is a run of it (`Peg.Grammar.exists_attempt_iff_runs`). Soundness
(`Peg.Grammar.runs_of_attempt`) follows the depth, completeness (`Peg.Grammar.attempt_of_runs`)
follows the run and finds a depth from which on the answer does not change any more
(`Peg.Eventually`). So runs are deterministic (`Peg.Grammar.Runs.unique`), and an answer does not
depend on the depth.
-/

namespace Peg

/-- Something that is run. -/
inductive Task
  /-- A goal that was asked. -/
  | goal (goal : Goal)
  /-- The node at the top of an expression. -/
  | node (e : Expr)
  /-- A repetition of `e` that has come to the offset `mark`. -/
  | loop (e : Expr) (mark : Nat)
  /-- What a native rule does from here on. -/
  | script (c : Script)

/-- The expressions that test one character, or that there is none: the test and the failure. -/
def Expr.single? : Expr → Option ((Option Char → Bool) × Failure)
  | char c => some ((· == some c), .char c)
  | endOfInput => some ((·.isNone), .endOfInput)
  | range first last => some ((·.any fun c => first ≤ c && c ≤ last), .range first last)
  | any => some ((·.isSome), .any)
  | seq _ _ | alt _ _ | text _ | opt _ | star _ | plus _ | ahead _ | notAhead _ | call _
  | capture _ | empty => none

namespace Grammar

/-- **The runs of a grammar**: the task begun in the first state ends with the answer in the
second. -/
inductive Runs (g : Grammar) : Task → State → Bool → State → Prop
  /- Goals. -/
  | expr_matches {e s t} (h : g.Runs (.node e) s true t) : g.Runs (.goal (.expr e)) s true t
  | expr_fails {e s t} (h : g.Runs (.node e) s false t) :
      g.Runs (.goal (.expr e)) s false (t.dropCaptures s.captures.size)
  | rule_tree {id e s b t} (hid : g.body? id = some (.tree e))
      (h : g.Runs (.goal (.expr e)) (s.emit (.enter (g.nameOf id) s.offset)) b t) :
      g.Runs (.goal (.rule id)) s b (t.emit (.exit (g.nameOf id) t.offset b))
  | rule_native {id start s b t} (hid : g.body? id = some (.native start))
      (h : g.Runs (.script (start (s.emit (.enter (g.nameOf id) s.offset))))
        (s.emit (.enter (g.nameOf id) s.offset)) b t) :
      g.Runs (.goal (.rule id)) s b (t.emit (.exit (g.nameOf id) t.offset b))
  | rule_missing {id s} (hid : g.body? id = none) :
      g.Runs (.goal (.rule id)) s false
        ((s.emit (.enter (g.nameOf id) s.offset)).emit (.exit (g.nameOf id) s.offset false))
  | named_known {name id s b t} (hid : g.find? name = some id) (h : g.Runs (.goal (.rule id)) s b t) :
      g.Runs (.goal (.named name)) s b t
  | named_unknown {name s} (hid : g.find? name = none) : g.Runs (.goal (.named name)) s false s
  /- Nodes that ask for nothing. -/
  | text_matches {x s} (h : x.toList <+: s.reader.rest) :
      g.Runs (.node (.text x)) s true (s.moveTo (s.offset + x.length))
  | text_fails {x s} (h : ¬x.toList <+: s.reader.rest) :
      g.Runs (.node (.text x)) s false (s.record s.offset (.literal x))
  | single_matches {e s accept f} (he : e.single? = some (accept, f))
      (h : accept s.reader.current? = true) : g.Runs (.node e) s true s.advance
  | single_fails {e s accept f} (he : e.single? = some (accept, f))
      (h : accept s.reader.current? = false) :
      g.Runs (.node e) s false (s.advance.record s.offset f)
  | empty {s} : g.Runs (.node .empty) s true s
  /- Two parts. -/
  | seq_first_fails {a b s t} (h : g.Runs (.goal (.expr a)) s false t) :
      g.Runs (.node (.seq a b)) s false ((t.moveTo s.offset).record s.offset .sequence)
  | seq_second_fails {a b s t u} (ha : g.Runs (.goal (.expr a)) s true t)
      (hb : g.Runs (.goal (.expr b)) t false u) :
      g.Runs (.node (.seq a b)) s false (u.record s.offset .sequence)
  | seq_matches {a b s t u} (ha : g.Runs (.goal (.expr a)) s true t)
      (hb : g.Runs (.goal (.expr b)) t true u) : g.Runs (.node (.seq a b)) s true u
  | alt_first {a b s t} (h : g.Runs (.goal (.expr a)) s true t) : g.Runs (.node (.alt a b)) s true t
  | alt_second {a b s t u} (ha : g.Runs (.goal (.expr a)) s false t)
      (hb : g.Runs (.goal (.expr b)) (t.moveTo s.offset) true u) :
      g.Runs (.node (.alt a b)) s true (u.cutLog s.log.records.size)
  | alt_fails {a b s t u} (ha : g.Runs (.goal (.expr a)) s false t)
      (hb : g.Runs (.goal (.expr b)) (t.moveTo s.offset) false u) :
      g.Runs (.node (.alt a b)) s false (u.record s.offset .choice)
  /- Repetitions. -/
  | opt_some {a s t} (h : g.Runs (.goal (.expr a)) s true t) : g.Runs (.node (.opt a)) s true t
  | opt_none {a s t} (h : g.Runs (.goal (.expr a)) s false t) :
      g.Runs (.node (.opt a)) s true (t.moveTo s.offset)
  | star {a s t} (h : g.Runs (.loop a s.offset) (s.track false) true t) :
      g.Runs (.node (.star a)) s true (t.track s.log.tracking)
  | plus_fails {a s t} (h : g.Runs (.goal (.expr a)) s false t) :
      g.Runs (.node (.plus a)) s false ((t.moveTo s.offset).record s.offset .sequence)
  | plus_matches {a s t u} (ha : g.Runs (.goal (.expr a)) s true t)
      (hl : g.Runs (.loop a t.offset) (t.track false) true u) :
      g.Runs (.node (.plus a)) s true (u.track t.log.tracking)
  | loop_ends {a mark s t} (h : g.Runs (.goal (.expr a)) s false t) :
      g.Runs (.loop a mark) s true (t.moveTo mark)
  | loop_still {a mark s t} (h : g.Runs (.goal (.expr a)) s true t) (ht : t.offset = mark) :
      g.Runs (.loop a mark) s true t
  | loop_more {a mark s t u} (ha : g.Runs (.goal (.expr a)) s true t) (ht : t.offset ≠ mark)
      (hl : g.Runs (.loop a t.offset) t true u) : g.Runs (.loop a mark) s true u
  /- Looking ahead, calls and captures. -/
  | ahead_matches {a s t} (h : g.Runs (.goal (.expr a)) s true t) :
      g.Runs (.node (.ahead a)) s true (t.restore s.snapshot)
  | ahead_fails {a s t} (h : g.Runs (.goal (.expr a)) s false t) :
      g.Runs (.node (.ahead a)) s false ((t.restore s.snapshot).record s.offset .ahead)
  | notAhead_matches {a s t} (h : g.Runs (.goal (.expr a)) s false t) :
      g.Runs (.node (.notAhead a)) s true (t.restore s.snapshot)
  | notAhead_fails {a s t} (h : g.Runs (.goal (.expr a)) s true t) :
      g.Runs (.node (.notAhead a)) s false ((t.restore s.snapshot).record s.offset .notAhead)
  | call_matches {r id s t} (hr : r.id = some id) (h : g.Runs (.goal (.rule id)) s true t) :
      g.Runs (.node (.call r)) s true t
  | call_fails {r id s t} (hr : r.id = some id) (h : g.Runs (.goal (.rule id)) s false t) :
      g.Runs (.node (.call r)) s false (t.record s.offset (.call r.name))
  | call_unbound {r s} (hr : r.id = none) :
      g.Runs (.node (.call r)) s false (s.record s.offset (.call r.name))
  | capture_matches {a s t} (h : g.Runs (.goal (.expr a)) s true t) :
      g.Runs (.node (.capture a)) s true (t.push (Capture.ofRange s.offset t.offset))
  | capture_fails {a s t} (h : g.Runs (.goal (.expr a)) s false t) :
      g.Runs (.node (.capture a)) s false t
  /- Native rules. -/
  | done {b s t} : g.Runs (.script (.done b t)) s b t
  | ask {goal resume r s t b u c} (h : g.Runs (.goal goal) r b t)
      (hc : g.Runs (.script (resume b t)) t c u) : g.Runs (.script (.ask goal r resume)) s c u

variable {g : Grammar}

/-! ### From answers to runs -/

section Sound

variable {F : Goal → Matcher} (hF : ∀ goal s b t, F goal s = (some b, t) → g.Runs (.goal goal) s b t)
include hF

/-- What a repetition answers is a run of it. -/
theorem runs_loop_of_iterate {a : Expr} {bound mark : Nat} {s : State} {b : Bool} {t : State}
    (h : Matcher.iterate (F (.expr a)) bound mark s = (some b, t)) :
    b = true ∧ g.Runs (.loop a mark) s true t := by
  -- by induction on the rounds that are left, from any mark on
  induction bound generalizing mark s with
  | zero => simp [Matcher.iterate] at h
  | succ bound ih =>
    obtain ⟨rfl, u, ha, rfl⟩ | ⟨rfl, ha, ht⟩ | ⟨u, ha, hu, hrest⟩ :=
      Matcher.iterate_succ_eq_some.mp h
    · exact ⟨rfl, .loop_ends (hF _ _ _ _ ha)⟩
    · exact ⟨rfl, .loop_still (hF _ _ _ _ ha) ht⟩
    · obtain ⟨rfl, hloop⟩ := ih hrest
      exact ⟨rfl, .loop_more (hF _ _ _ _ ha) hu hloop⟩

/-- What a muted repetition answers, from the loop inside it. -/
theorem runs_loop_of_repeated {a : Expr} {bound : Nat} {s : State} {b : Bool} {t : State}
    (h : Matcher.repeated bound (F (.expr a)) s = (some b, t)) :
    b = true ∧ ∃ u, g.Runs (.loop a s.offset) (s.track false) true u ∧
      t = u.track s.log.tracking := by
  obtain ⟨u, hl, rfl⟩ := Matcher.repeated_eq_some.mp h
  obtain ⟨rfl, hloop⟩ := runs_loop_of_iterate hF hl
  exact ⟨rfl, u, hloop, rfl⟩

/-- What a script answers is a run of it. -/
theorem runs_of_script {c : Script} {s : State} {b : Bool} {t : State}
    (h : c.run F = (some b, t)) : g.Runs (.script c) s b t := by
  induction c generalizing s with
  | done b' s' =>
    obtain ⟨rfl, rfl⟩ : b' = b ∧ s' = t := by simpa [Script.run] using h
    exact .done
  | ask goal r resume ih =>
    obtain ⟨c, u, ha, hrest⟩ := Script.run_ask_eq_some.mp h
    exact .ask (hF _ _ _ _ ha) (ih c u hrest)

/-- What one step of matching an expression answers is a run of the node. -/
theorem runs_node_of_step {e : Expr} {bound : Nat} {s : State} {b : Bool} {t : State}
    (h : e.step F bound s = (some b, t)) : g.Runs (.node e) s b t := by
  have single {accept f} (he : e.single? = some (accept, f))
      (hs : Matcher.single accept f s = (some b, t)) : g.Runs (.node e) s b t := by
    obtain ⟨rfl, hc, rfl⟩ | ⟨rfl, hc, rfl⟩ := Matcher.single_eq_some.mp hs
    · exact .single_matches he hc
    · exact .single_fails he hc
  cases e with
  | seq a b' =>
    obtain ⟨rfl, u, ha, rfl⟩ | ⟨rfl, u, v, ha, hb, rfl⟩ | ⟨rfl, u, ha, hb⟩ :=
      Matcher.sequence_eq_some.mp h
    · exact .seq_first_fails (hF _ _ _ _ ha)
    · exact .seq_second_fails (hF _ _ _ _ ha) (hF _ _ _ _ hb)
    · exact .seq_matches (hF _ _ _ _ ha) (hF _ _ _ _ hb)
  | alt a b' =>
    obtain ⟨rfl, ha⟩ | ⟨rfl, u, v, ha, hb, rfl⟩ | ⟨rfl, u, v, ha, hb, rfl⟩ :=
      Matcher.choice_eq_some.mp h
    · exact .alt_first (hF _ _ _ _ ha)
    · exact .alt_second (hF _ _ _ _ ha) (hF _ _ _ _ hb)
    · exact .alt_fails (hF _ _ _ _ ha) (hF _ _ _ _ hb)
  | text x =>
    obtain ⟨rfl, hx, rfl⟩ | ⟨rfl, hx, rfl⟩ := Matcher.literal_eq_some.mp h
    · exact .text_matches (Reader.startsWith_iff.mp hx)
    · exact .text_fails fun hp => by simp [Reader.startsWith_iff.mpr hp] at hx
  | char c => exact single rfl h
  | endOfInput => exact single rfl h
  | range first last => exact single rfl h
  | any => exact single rfl h
  | opt a =>
    obtain ⟨rfl, ha | ⟨u, ha, rfl⟩⟩ := Matcher.optional_eq_some.mp h
    · exact .opt_some (hF _ _ _ _ ha)
    · exact .opt_none (hF _ _ _ _ ha)
  | star a =>
    obtain ⟨rfl, u, hl, rfl⟩ := runs_loop_of_repeated hF h
    exact .star hl
  | plus a =>
    obtain ⟨rfl, u, ha, rfl⟩ | ⟨rfl, u, v, ha, hb, rfl⟩ | ⟨rfl, u, ha, hb⟩ :=
      Matcher.sequence_eq_some.mp h
    · exact .plus_fails (hF _ _ _ _ ha)
    · -- a repetition does not fail
      obtain ⟨hfalse, -⟩ := runs_loop_of_repeated hF hb
      exact absurd hfalse (by decide)
    · obtain ⟨-, v, hl, rfl⟩ := runs_loop_of_repeated hF hb
      exact .plus_matches (hF _ _ _ _ ha) hl
  | ahead a =>
    obtain ⟨rfl, u, ha, rfl⟩ | ⟨rfl, u, ha, rfl⟩ := Matcher.ahead_eq_some.mp h
    · exact .ahead_matches (hF _ _ _ _ ha)
    · exact .ahead_fails (hF _ _ _ _ ha)
  | notAhead a =>
    obtain ⟨rfl, u, ha, rfl⟩ | ⟨rfl, u, ha, rfl⟩ := Matcher.notAhead_eq_some.mp h
    · exact .notAhead_matches (hF _ _ _ _ ha)
    · exact .notAhead_fails (hF _ _ _ _ ha)
  | call r =>
    rcases hr : r.id with _ | id <;> simp only [Expr.step, hr] at h
    · obtain ⟨-, h'⟩ | ⟨rfl, u, hu, rfl⟩ := Matcher.recording_eq_some.mp h
      · simp [Matcher.fail] at h'
      · obtain rfl : s = u := by simpa [Matcher.fail] using hu
        exact .call_unbound hr
    · obtain ⟨rfl, ha⟩ | ⟨rfl, u, ha, rfl⟩ := Matcher.recording_eq_some.mp h
      · exact .call_matches hr (hF _ _ _ _ ha)
      · exact .call_fails hr (hF _ _ _ _ ha)
  | capture a =>
    obtain ⟨rfl, u, ha, rfl⟩ | ⟨rfl, ha⟩ := Matcher.captured_eq_some.mp h
    · exact .capture_matches (hF _ _ _ _ ha)
    · exact .capture_fails (hF _ _ _ _ ha)
  | empty =>
    obtain ⟨rfl, rfl⟩ : true = b ∧ s = t := by simpa [Expr.step, Matcher.pass] using h
    exact .empty

end Sound

/-- **Every answer is the answer of a run.** -/
theorem runs_of_attempt {depth : Nat} {goal : Goal} {s : State} {b : Bool} {t : State}
    (h : g.attempt depth goal s = (some b, t)) : g.Runs (.goal goal) s b t := by
  induction depth generalizing goal s b t with
  | zero => simp [attempt] at h
  | succ depth ih =>
    have hF : ∀ goal s b t, g.attempt depth goal s = (some b, t) → g.Runs (.goal goal) s b t :=
      fun _ _ _ _ => ih
    cases goal with
    | expr e =>
      obtain ⟨rfl, he⟩ | ⟨rfl, u, he, rfl⟩ := Matcher.rollback_eq_some.mp h
      · exact .expr_matches (runs_node_of_step hF he)
      · exact .expr_fails (runs_node_of_step hF he)
    | rule id =>
      obtain ⟨u, hu, rfl⟩ := Matcher.traced_eq_some.mp h
      rcases hid : g.body? id with _ | ⟨e | start⟩ <;> rw [hid] at hu
      · obtain ⟨rfl, rfl⟩ : false = b ∧ s.emit (.enter (g.nameOf id) s.offset) = u := by
          simpa [Matcher.fail] using hu
        exact .rule_missing hid
      · exact .rule_tree hid (ih hu)
      · exact .rule_native hid (runs_of_script hF hu)
    | named name =>
      rw [attempt] at h
      rcases hid : g.find? name with _ | id <;> rw [hid] at h
      · obtain ⟨rfl, rfl⟩ : false = b ∧ s = t := by simpa [Matcher.fail] using h
        exact .named_unknown hid
      · exact .named_known hid (ih h)

end Grammar

/-! ### From runs to answers -/

/-- What becomes of a task, where `attempt` says what becomes of the goals and `bound` limits each
repetition. -/
def Task.matcher (attempt : Goal → Matcher) (bound : Nat) : Task → Matcher
  | .goal asked => attempt asked
  | .node e => e.step attempt bound
  | .loop e mark => Matcher.iterate (attempt (.expr e)) bound mark
  | .script c => fun _ => c.run attempt

theorem Expr.step_of_single {e : Expr} {accept : Option Char → Bool} {f : Failure}
    (he : e.single? = some (accept, f)) (attempt : Goal → Matcher) (bound : Nat) :
    e.step attempt bound = Matcher.single accept f := by
  cases e <;> simp only [Expr.single?, Option.some.injEq, Prod.mk.injEq, reduceCtorEq] at he <;>
    obtain ⟨rfl, rfl⟩ := he <;> rfl

/-- It is so for all depths and bounds that are high enough. -/
def Eventually (P : Nat → Nat → Prop) : Prop := ∃ d, ∀ depth ≥ d, ∀ bound ≥ d, P depth bound

namespace Eventually

variable {P Q : Nat → Nat → Prop}

theorem of_forall (h : ∀ depth bound, P depth bound) : Eventually P := ⟨0, fun _ _ _ _ => h _ _⟩

theorem mono (h : Eventually P) (hPQ : ∀ depth bound, P depth bound → Q depth bound) :
    Eventually Q := by
  obtain ⟨d, hd⟩ := h
  exact ⟨d, fun depth hdepth bound hbound => hPQ _ _ (hd depth hdepth bound hbound)⟩

theorem and (h : Eventually P) (h' : Eventually Q) :
    Eventually fun depth bound => P depth bound ∧ Q depth bound := by
  obtain ⟨d, hd⟩ := h
  obtain ⟨d', hd'⟩ := h'
  exact ⟨max d d', fun depth _ bound _ =>
    ⟨hd depth (by omega) bound (by omega), hd' depth (by omega) bound (by omega)⟩⟩

theorem somewhere (h : Eventually P) : ∃ depth bound, P depth bound := by
  obtain ⟨d, hd⟩ := h
  exact ⟨d, d, hd d (Nat.le_refl d) d (Nat.le_refl d)⟩

/-- What is asked one level further down is asked with the depth there as the bound. -/
theorem deeper (h : Eventually P) (hPQ : ∀ depth bound, P depth depth → Q (depth + 1) bound) :
    Eventually Q := by
  obtain ⟨d, hd⟩ := h
  refine ⟨d + 1, fun depth hdepth bound _ => ?_⟩
  obtain ⟨k, rfl⟩ : ∃ k, depth = k + 1 := ⟨depth - 1, by omega⟩
  exact hPQ k bound (hd k (by omega) k (by omega))

/-- A round of a repetition uses up one of its bound. -/
theorem longer (h : Eventually P) (hPQ : ∀ depth bound, P depth bound → Q depth (bound + 1)) :
    Eventually Q := by
  obtain ⟨d, hd⟩ := h
  refine ⟨d + 1, fun depth _ bound hbound => ?_⟩
  obtain ⟨k, rfl⟩ : ∃ k, bound = k + 1 := ⟨bound - 1, by omega⟩
  exact hPQ depth k (hd depth (by omega) k (by omega))

end Eventually

namespace Grammar

variable {g : Grammar}

/-- **Every run is answered**, at any depth and bound that are high enough. -/
theorem matcher_of_runs {τ : Task} {s : State} {b : Bool} {t : State} (h : g.Runs τ s b t) :
    Eventually fun depth bound => τ.matcher (g.attempt depth) bound s = (some b, t) := by
  -- a goal is answered one level deeper than what it asks for, a node at the level of its parts
  induction h with
  | expr_matches _ ih =>
    exact ih.deeper fun _ _ ha => Matcher.rollback_eq_some.mpr (.inl ⟨rfl, ha⟩)
  | expr_fails _ ih =>
    exact ih.deeper fun _ _ ha => Matcher.rollback_eq_some.mpr (.inr ⟨rfl, _, ha, rfl⟩)
  | rule_tree hid _ ih =>
    refine ih.deeper fun _ _ ha => Matcher.traced_eq_some.mpr ⟨_, ?_, rfl⟩
    rw [hid]
    exact ha
  | rule_native hid _ ih =>
    refine ih.deeper fun _ _ ha => Matcher.traced_eq_some.mpr ⟨_, ?_, rfl⟩
    rw [hid]
    exact ha
  | rule_missing hid =>
    have hasked : Eventually fun _ _ => True := .of_forall fun _ _ => trivial
    refine hasked.deeper fun _ _ _ => Matcher.traced_eq_some.mpr ⟨_, ?_, rfl⟩
    rw [hid]
    rfl
  | named_known hid _ ih =>
    refine ih.deeper fun _ _ ha => ?_
    rw [Task.matcher, attempt, hid]
    exact ha
  | named_unknown hid =>
    have hasked : Eventually fun _ _ => True := .of_forall fun _ _ => trivial
    refine hasked.deeper fun _ _ _ => ?_
    rw [Task.matcher, attempt, hid]
    rfl
  | text_matches h =>
    exact .of_forall fun _ _ =>
      Matcher.literal_eq_some.mpr (.inl ⟨rfl, Reader.startsWith_iff.mpr h, rfl⟩)
  | text_fails h =>
    have hfalse := Bool.eq_false_iff.mpr fun hx => h (Reader.startsWith_iff.mp hx)
    exact .of_forall fun _ _ => Matcher.literal_eq_some.mpr (.inr ⟨rfl, hfalse, rfl⟩)
  | single_matches he h =>
    refine .of_forall fun _ _ => ?_
    rw [Task.matcher, Expr.step_of_single he]
    exact Matcher.single_eq_some.mpr (.inl ⟨rfl, h, rfl⟩)
  | single_fails he h =>
    refine .of_forall fun _ _ => ?_
    rw [Task.matcher, Expr.step_of_single he]
    exact Matcher.single_eq_some.mpr (.inr ⟨rfl, h, rfl⟩)
  | empty => exact .of_forall fun _ _ => rfl
  | seq_first_fails _ ih =>
    exact ih.mono fun _ _ ha => Matcher.sequence_eq_some.mpr (.inl ⟨rfl, _, ha, rfl⟩)
  | seq_second_fails _ _ iha ihb =>
    exact (iha.and ihb).mono fun _ _ h =>
      Matcher.sequence_eq_some.mpr (.inr (.inl ⟨rfl, _, _, h.1, h.2, rfl⟩))
  | seq_matches _ _ iha ihb =>
    exact (iha.and ihb).mono fun _ _ h =>
      Matcher.sequence_eq_some.mpr (.inr (.inr ⟨rfl, _, h.1, h.2⟩))
  | alt_first _ ih =>
    exact ih.mono fun _ _ ha => Matcher.choice_eq_some.mpr (.inl ⟨rfl, ha⟩)
  | alt_second _ _ iha ihb =>
    exact (iha.and ihb).mono fun _ _ h =>
      Matcher.choice_eq_some.mpr (.inr (.inl ⟨rfl, _, _, h.1, h.2, rfl⟩))
  | alt_fails _ _ iha ihb =>
    exact (iha.and ihb).mono fun _ _ h =>
      Matcher.choice_eq_some.mpr (.inr (.inr ⟨rfl, _, _, h.1, h.2, rfl⟩))
  | opt_some _ ih =>
    exact ih.mono fun _ _ ha => Matcher.optional_eq_some.mpr ⟨rfl, .inl ha⟩
  | opt_none _ ih =>
    exact ih.mono fun _ _ ha => Matcher.optional_eq_some.mpr ⟨rfl, .inr ⟨_, ha, rfl⟩⟩
  | star _ ih =>
    exact ih.mono fun _ _ hloop => Matcher.repeated_eq_some.mpr ⟨_, hloop, rfl⟩
  | plus_fails _ ih =>
    exact ih.mono fun _ _ ha => Matcher.sequence_eq_some.mpr (.inl ⟨rfl, _, ha, rfl⟩)
  | plus_matches _ _ iha ihl =>
    refine (iha.and ihl).mono ?_
    rintro depth bound ⟨ha, hloop⟩
    have hrest := Matcher.repeated_eq_some.mpr ⟨_, hloop, rfl⟩
    exact Matcher.sequence_eq_some.mpr (.inr (.inr ⟨rfl, _, ha, hrest⟩))
  | loop_ends _ ih =>
    exact ih.longer fun _ _ ha => Matcher.iterate_succ_eq_some.mpr (.inl ⟨rfl, _, ha, rfl⟩)
  | loop_still _ ht ih =>
    exact ih.longer fun _ _ ha => Matcher.iterate_succ_eq_some.mpr (.inr (.inl ⟨rfl, ha, ht⟩))
  | loop_more _ ht _ iha ihl =>
    exact (iha.and ihl).longer fun _ _ h =>
      Matcher.iterate_succ_eq_some.mpr (.inr (.inr ⟨_, h.1, ht, h.2⟩))
  | ahead_matches _ ih =>
    exact ih.mono fun _ _ ha => Matcher.ahead_eq_some.mpr (.inl ⟨rfl, _, ha, rfl⟩)
  | ahead_fails _ ih =>
    exact ih.mono fun _ _ ha => Matcher.ahead_eq_some.mpr (.inr ⟨rfl, _, ha, rfl⟩)
  | notAhead_matches _ ih =>
    exact ih.mono fun _ _ ha => Matcher.notAhead_eq_some.mpr (.inl ⟨rfl, _, ha, rfl⟩)
  | notAhead_fails _ ih =>
    exact ih.mono fun _ _ ha => Matcher.notAhead_eq_some.mpr (.inr ⟨rfl, _, ha, rfl⟩)
  | call_matches hr _ ih =>
    refine ih.mono fun _ _ ha => ?_
    simp only [Task.matcher, Expr.step, hr] at ha ⊢
    exact Matcher.recording_eq_some.mpr (.inl ⟨rfl, ha⟩)
  | call_fails hr _ ih =>
    refine ih.mono fun _ _ ha => ?_
    simp only [Task.matcher, Expr.step, hr] at ha ⊢
    exact Matcher.recording_eq_some.mpr (.inr ⟨rfl, _, ha, rfl⟩)
  | call_unbound hr =>
    refine .of_forall fun _ _ => ?_
    simp only [Task.matcher, Expr.step, hr]
    exact Matcher.recording_eq_some.mpr (.inr ⟨rfl, _, rfl, rfl⟩)
  | capture_matches _ ih =>
    exact ih.mono fun _ _ ha => Matcher.captured_eq_some.mpr (.inl ⟨rfl, _, ha, rfl⟩)
  | capture_fails _ ih =>
    exact ih.mono fun _ _ ha => Matcher.captured_eq_some.mpr (.inr ⟨rfl, ha⟩)
  | done => exact .of_forall fun _ _ => rfl
  | ask _ _ ih ihc =>
    exact (ih.and ihc).mono fun _ _ h => Script.run_ask_eq_some.mpr ⟨_, _, h.1, h.2⟩

theorem attempt_of_runs {goal : Goal} {s : State} {b : Bool} {t : State}
    (h : g.Runs (.goal goal) s b t) :
    Eventually fun depth _ => g.attempt depth goal s = (some b, t) :=
  matcher_of_runs h

/-- **A goal is answered exactly when there is a run of it.** -/
theorem exists_attempt_iff_runs {goal : Goal} {s : State} {b : Bool} {t : State} :
    (∃ depth, g.attempt depth goal s = (some b, t)) ↔ g.Runs (.goal goal) s b t := by
  constructor
  · rintro ⟨depth, h⟩
    exact runs_of_attempt h
  · intro h
    obtain ⟨depth, -, ha⟩ := (attempt_of_runs h).somewhere
    exact ⟨depth, ha⟩

/-- **Runs are deterministic.** -/
theorem Runs.unique {τ : Task} {s : State} {b b' : Bool} {t t' : State} (h : g.Runs τ s b t)
    (h' : g.Runs τ s b' t') : b = b' ∧ t = t' := by
  -- at some depth and bound both are what becomes of the task
  obtain ⟨depth, bound, ha, ha'⟩ := ((matcher_of_runs h).and (matcher_of_runs h')).somewhere
  rw [ha] at ha'
  simpa using ha'

end Grammar

end Peg
