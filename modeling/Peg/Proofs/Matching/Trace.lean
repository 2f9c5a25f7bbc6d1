import Peg.Proofs.Matching.Entries

/-!
# The events tell the way

Every entry into a rule that an attempt reports is that of a rule which was come to on a chain of
tasks, each started by the one before, and the events before the entry are those of the state in which
it was come to (`Peg.Grammar.reports_attempt`). This holds of all that is reported, also by an attempt
that remains without an answer. Conversely, whatever is come to on such a chain is reported by an
attempt that goes deep enough (`Peg.Grammar.produces_of_opens`).

So the events of a parse show a re-entry, at some depth, exactly when there is one
(`Peg.Grammar.exists_reentry_iff`).
-/

namespace Peg

/-! ### The events of the combinators -/

namespace Matcher

variable (m first second : Matcher) (s : State)

@[simp]
theorem trace_rollback : (rollback m s).2.trace = (m s).2.trace := by
  rw [rollback]
  rcases m s with ⟨_ | _ | _, t⟩ <;> rfl

@[simp]
theorem trace_recording (f : Failure) : (recording f m s).2.trace = (m s).2.trace := by
  rw [recording]
  rcases m s with ⟨_ | _ | _, t⟩ <;> rfl

@[simp]
theorem trace_returning : (returning m s).2.trace = (m s).2.trace := by
  rw [returning]
  rcases m s with ⟨_ | _ | _, t⟩ <;> rfl

@[simp]
theorem trace_optional : (optional m s).2.trace = (m s).2.trace := by
  rw [← trace_returning m s]
  simp only [optional]
  rcases returning m s with ⟨_ | _, t⟩ <;> rfl

@[simp]
theorem trace_peeking : (peeking m s).2.trace = (m s).2.trace := by
  rw [peeking]
  rcases m s with ⟨_ | _, t⟩ <;> rfl

@[simp]
theorem trace_negated : (negated m s).2.trace = (m s).2.trace := by
  rw [negated]
  rcases m s with ⟨_ | _, t⟩ <;> rfl

@[simp]
theorem trace_captured : (captured m s).2.trace = (m s).2.trace := by
  rw [captured]
  rcases m s with ⟨_ | _ | _, t⟩ <;> rfl

@[simp]
theorem trace_repeated (bound : Nat) :
    (repeated bound m s).2.trace = (iterate m bound s.offset (s.track false)).2.trace := by
  rw [repeated]
  rcases iterate m bound s.offset (s.track false) with ⟨_ | _, t⟩ <;> rfl

@[simp]
theorem trace_literal (x : String) : (literal x s).2.trace = s.trace := by
  rw [literal, trace_recording]
  split <;> rfl

@[simp]
theorem trace_single (accept : Option Char → Bool) (f : Failure) :
    (single accept f s).2.trace = s.trace := by
  rw [single, trace_recording]
  rfl

@[simp]
theorem trace_sequence :
    (sequence first second s).2.trace = (andThen (returning first) second s).2.trace := by
  rw [sequence, trace_recording]

theorem trace_andThen_of_true {t : State} (h : first s = (some true, t)) :
    (andThen (returning first) second s).2.trace = (second t).2.trace := by
  simp only [andThen, returning, h]

theorem trace_choice_of_false {t : State} (h : first s = (some false, t)) :
    (choice first second s).2.trace = (second (t.moveTo s.offset)).2.trace := by
  simp only [choice, h]
  rcases second (t.moveTo s.offset) with ⟨_ | _ | _, u⟩ <;> rfl

@[simp]
theorem trace_ahead : (ahead m s).2.trace = (m s).2.trace := by
  rw [ahead, trace_recording, trace_peeking]

@[simp]
theorem trace_notAhead : (notAhead m s).2.trace = (m s).2.trace := by
  rw [notAhead, trace_recording, trace_negated, trace_peeking]

end Matcher

/-! ### From the events to the way -/

/-- **From the first state to the second, entries are reported where they are made**: each of them is
that of a rule that is come to from the task `x`, in a state with the events before. -/
structure Grammar.Reports (g : Grammar) (x : Task × State) (s t : State) : Prop where
  /-- Events are only ever added. -/
  grows : s.trace.toList <+: t.trace.toList
  /-- The entries among those added. -/
  entry : ∀ before rule offset, s.trace.toList <+: before →
    before ++ [.enter rule offset] <+: t.trace.toList →
    ∃ id u, Relation.ReflTransGen g.Opens x (.goal (.rule id), u) ∧
      u.trace.toList = before ∧ g.nameOf id = rule ∧ u.offset = offset

namespace Grammar.Reports

variable {g : Grammar} {x : Task × State} {s s' t t' u : State}

theorem of_trace_eq (h : t.trace = s.trace) : g.Reports x s t where
  grows := h ▸ List.prefix_rfl
  entry before rule offset hb he := by
    -- there is no room for an entry
    have hlen := (he.trans (h ▸ List.prefix_rfl) : _ <+: s.trace.toList).length_le.trans hb.length_le
    simp at hlen

/-- Only the events count. -/
theorem congr (h : g.Reports x s t) (hs : s'.trace = s.trace) (ht : t'.trace = t.trace) :
    g.Reports x s' t' :=
  ⟨by rw [hs, ht]; exact h.grows, by rw [hs, ht]; exact h.entry⟩

theorem trans (h : g.Reports x s t) (h' : g.Reports x t u) : g.Reports x s u where
  grows := h.grows.trans h'.grows
  entry before rule offset hb he := by
    -- the entry was made on the way to `t` or after it
    rcases List.prefix_or_prefix_of_prefix he h'.grows with hle | hle
    · exact h.entry before rule offset hb hle
    · rcases List.prefix_concat_iff.mp hle with heq | hle
      · exact h.entry before rule offset hb (heq ▸ List.prefix_rfl)
      · exact h'.entry before rule offset hle he

theorem enter {id : RuleId} (hx : Relation.ReflTransGen g.Opens x (.goal (.rule id), s)) :
    g.Reports x s (s.emit (.enter (g.nameOf id) s.offset)) where
  grows := by simp
  entry before rule offset hb he := by
    simp only [State.trace_emit, Array.toList_push] at he
    rcases List.prefix_concat_iff.mp he with heq | hle
    · -- the entry is the event that was added
      obtain ⟨rfl, hlast⟩ := List.append_inj' heq rfl
      obtain ⟨rfl, rfl⟩ : rule = g.nameOf id ∧ offset = s.offset := by simpa using hlast
      exact ⟨id, s, hx, rfl, rfl, rfl⟩
    · have hlen := hle.length_le.trans hb.length_le
      simp at hlen

theorem exit (h : g.Reports x s t) (rule : String) (offset : Nat) (b : Bool) :
    g.Reports x s (t.emit (.exit rule offset b)) where
  grows := h.grows.trans (by simp)
  entry before rule' offset' hb he := by
    simp only [State.trace_emit, Array.toList_push] at he
    rcases List.prefix_concat_iff.mp he with heq | hle
    · obtain ⟨-, hlast⟩ := List.append_inj' heq rfl
      simp at hlast
    · exact h.entry before rule' offset' hb hle

variable {first second : Matcher}

theorem sequence (h : g.Reports x s (first s).2)
    (h' : ∀ t, first s = (some true, t) → g.Reports x t (second t).2) :
    g.Reports x s (Matcher.sequence first second s).2 := by
  refine Reports.congr ?_ rfl (Matcher.trace_sequence _ _ _)
  rcases hf : first s with ⟨_ | _ | _, t⟩ <;> rw [hf] at h
  · simpa only [Matcher.andThen, Matcher.returning, hf] using h
  · simp only [Matcher.andThen, Matcher.returning, hf]
    exact h.congr rfl rfl
  · exact h.trans ((h' t hf).congr rfl (Matcher.trace_andThen_of_true _ _ _ hf))

theorem choice (h : g.Reports x s (first s).2)
    (h' : ∀ t, first s = (some false, t) →
      g.Reports x (t.moveTo s.offset) (second (t.moveTo s.offset)).2) :
    g.Reports x s (Matcher.choice first second s).2 := by
  rcases hf : first s with ⟨_ | _ | _, t⟩ <;> rw [hf] at h
  · simpa only [Matcher.choice, hf] using h
  · exact h.trans ((h' t hf).congr rfl (Matcher.trace_choice_of_false _ _ _ hf))
  · simpa only [Matcher.choice, hf] using h

theorem traced {id : RuleId} {m : Matcher}
    (hx : Relation.ReflTransGen g.Opens x (.goal (.rule id), s))
    (h : g.Reports x (s.emit (.enter (g.nameOf id) s.offset))
      (m (s.emit (.enter (g.nameOf id) s.offset))).2) :
    g.Reports x s (Matcher.traced (g.nameOf id) m s).2 := by
  have hall := (Reports.enter hx).trans h
  rw [Matcher.traced]
  rcases hm : m (s.emit (.enter (g.nameOf id) s.offset)) with ⟨_ | b, t⟩ <;> rw [hm] at hall
  · exact hall
  · exact hall.exit _ _ _

end Grammar.Reports

namespace Grammar

variable {g : Grammar} {depth bound : Nat} {x : Task × State} {s s' t : State} {τ τ' : Task}

section Step

variable (hF : ∀ goal s, Relation.ReflTransGen g.Opens x (.goal goal, s) →
  g.Reports x s (g.attempt depth goal s).2)
include hF

theorem reports_iterate {a : Expr} {mark : Nat}
    (hx : Relation.ReflTransGen g.Opens x (.loop a mark, s)) :
    g.Reports x s (Matcher.iterate (g.attempt depth (.expr a)) bound mark s).2 := by
  induction bound generalizing mark s with
  | zero => exact .of_trace_eq rfl
  | succ bound ih =>
    have hround := hF _ _ (hx.tail Starts.loop_first)
    rw [Matcher.iterate]
    rcases ha : g.attempt depth (.expr a) s with ⟨_ | _ | _, t⟩ <;> rw [ha] at hround
    · exact hround
    · exact hround.congr rfl rfl
    · by_cases ht : t.offset = mark
      · simpa only [if_pos ht] using hround
      · simpa only [if_neg ht] using
          hround.trans (ih (hx.tail (Starts.loop_more (runs_of_attempt ha) ht)))

theorem reports_step {e : Expr} (hx : Relation.ReflTransGen g.Opens x (.node e, s)) :
    g.Reports x s (e.step (g.attempt depth) bound s).2 := by
  cases e with
  | seq a b =>
    exact .sequence (hF _ _ (hx.tail Starts.seq_first))
      fun t ht => hF _ _ (hx.tail (Starts.seq_second (runs_of_attempt ht)))
  | alt a b =>
    exact .choice (hF _ _ (hx.tail Starts.alt_first))
      fun t ht => hF _ _ (hx.tail (Starts.alt_second (runs_of_attempt ht)))
  | opt a => exact (hF _ _ (hx.tail Starts.opt)).congr rfl (Matcher.trace_optional _ _)
  | star a =>
    exact (reports_iterate hF (hx.tail Starts.star)).congr rfl (Matcher.trace_repeated _ _ _)
  | plus a =>
    refine .sequence (hF _ _ (hx.tail Starts.plus_first)) fun t ht => ?_
    exact (reports_iterate hF (hx.tail (Starts.plus_rest (runs_of_attempt ht)))).congr rfl
      (Matcher.trace_repeated _ _ _)
  | ahead a => exact (hF _ _ (hx.tail Starts.ahead)).congr rfl (Matcher.trace_ahead _ _)
  | notAhead a => exact (hF _ _ (hx.tail Starts.notAhead)).congr rfl (Matcher.trace_notAhead _ _)
  | call r =>
    rcases hr : r.id with _ | id <;> simp only [Expr.step, hr]
    · exact .of_trace_eq (Matcher.trace_recording _ _ _)
    · exact (hF _ _ (hx.tail (Starts.call hr))).congr rfl (Matcher.trace_recording _ _ _)
  | capture a => exact (hF _ _ (hx.tail Starts.capture)).congr rfl (Matcher.trace_captured _ _)
  | text x => exact .of_trace_eq (Matcher.trace_literal _ _)
  | char c => exact .of_trace_eq (Matcher.trace_single _ _ _)
  | endOfInput => exact .of_trace_eq (Matcher.trace_single _ _ _)
  | range first last => exact .of_trace_eq (Matcher.trace_single _ _ _)
  | any => exact .of_trace_eq (Matcher.trace_single _ _ _)
  | empty => exact .of_trace_eq rfl

end Step

/-- **Whatever an attempt reports, it reports where it happens.** -/
theorem reports_attempt (hg : g.AllTrees) {goal : Goal}
    (hx : Relation.ReflTransGen g.Opens x (.goal goal, s)) :
    g.Reports x s (g.attempt depth goal s).2 := by
  induction depth generalizing goal s with
  | zero => exact .of_trace_eq rfl
  | succ depth ih =>
    cases goal with
    | expr e =>
      exact (reports_step (fun _ _ => ih) (hx.tail Starts.node)).congr rfl
        (Matcher.trace_rollback _ _)
    | rule id =>
      refine .traced hx ?_
      rcases hid : g.body? id with _ | ⟨e | start⟩
      · exact .of_trace_eq rfl
      · exact ih (hx.tail (Starts.tree hid))
      · exact absurd hid hg.body_ne_native
    | named name =>
      rw [attempt]
      rcases hid : g.find? name with _ | id
      · exact .of_trace_eq rfl
      · exact ih (hx.tail (Starts.named hid))

/-! ### From the way to the events -/

theorem grows_attempt (hg : g.AllTrees) (depth : Nat) (goal : Goal) (s : State) :
    s.trace.toList <+: (g.attempt depth goal s).2.trace.toList :=
  (reports_attempt hg .refl).grows

theorem grows_iterate (hg : g.AllTrees) (depth bound mark : Nat) (a : Expr) (s : State) :
    s.trace.toList <+: (Matcher.iterate (g.attempt depth (.expr a)) bound mark s).2.trace.toList :=
  (reports_iterate (x := (.loop a mark, s)) (fun _ _ => reports_attempt hg) .refl).grows

/-- From some depth and bound on, an attempt at the task reports these events first. -/
def Produces (g : Grammar) (τ : Task) (s : State) (events : List Event) : Prop :=
  ∃ d, ∀ depth ≥ d, ∀ bound ≥ d,
    events <+: (τ.matcher (g.attempt depth) bound s).2.trace.toList

/-- A sequence reports what its first part reports. -/
theorem prefix_andThen {first second : Matcher}
    (h : ∀ t, t.trace.toList <+: (second t).2.trace.toList) (s : State) :
    (first s).2.trace.toList <+:
      (Matcher.andThen (.returning first) second s).2.trace.toList := by
  rw [← Matcher.trace_returning, Matcher.andThen]
  rcases Matcher.returning first s with ⟨_ | _ | _, t⟩
  · exact List.prefix_rfl
  · exact List.prefix_rfl
  · exact h t

/-- So does a choice. -/
theorem prefix_choice {first second : Matcher}
    (h : ∀ t, t.trace.toList <+: (second t).2.trace.toList) (s : State) :
    (first s).2.trace.toList <+: (Matcher.choice first second s).2.trace.toList := by
  rcases hf : first s with ⟨_ | _ | _, t⟩
  · simp only [Matcher.choice, hf]
    exact List.prefix_rfl
  · rw [Matcher.trace_choice_of_false _ _ _ hf]
    exact h (t.moveTo s.offset)
  · simp only [Matcher.choice, hf]
    exact List.prefix_rfl

/-- What happens inside a rule is reported. -/
theorem prefix_traced (rule : String) (m : Matcher) (s : State) :
    (m (s.emit (.enter rule s.offset))).2.trace.toList <+:
      (Matcher.traced rule m s).2.trace.toList := by
  rw [Matcher.traced]
  rcases m (s.emit (.enter rule s.offset)) with ⟨_ | b, t⟩
  · exact List.prefix_rfl
  · simp

/-- A repetition reports what its first round reports. -/
theorem prefix_iterate (hg : g.AllTrees) (depth bound mark : Nat) (a : Expr) (s : State) :
    (g.attempt depth (.expr a) s).2.trace.toList <+:
      (Matcher.iterate (g.attempt depth (.expr a)) (bound + 1) mark s).2.trace.toList := by
  rw [Matcher.iterate]
  rcases g.attempt depth (.expr a) s with ⟨_ | _ | _, t⟩
  · exact List.prefix_rfl
  · exact List.prefix_rfl
  · by_cases ht : t.offset = mark
    · simp only [if_pos ht]
      exact List.prefix_rfl
    · simp only [if_neg ht]
      exact grows_iterate hg depth bound t.offset a t

/-- **What is produced by something that a task starts is produced by the task.** -/
theorem Starts.produces (hg : g.AllTrees) (h : g.Starts τ s τ' s') (hf : τ.Fits s)
    {events : List Event} (hp : g.Produces τ' s' events) : g.Produces τ s events := by
  have hp : Eventually fun depth bound =>
    events <+: (τ'.matcher (g.attempt depth) bound s').2.trace.toList := hp
  change Eventually fun depth bound =>
    events <+: (τ.matcher (g.attempt depth) bound s).2.trace.toList
  cases h with
  | node =>
    refine hp.deeper fun _ _ he => ?_
    rwa [Task.matcher, attempt, Matcher.trace_rollback]
  | @tree id e _ hid =>
    refine hp.deeper fun _ _ he => he.trans ?_
    rw [Task.matcher, Task.matcher, attempt, hid]
    exact prefix_traced _ _ _
  | native hid => exact absurd hid hg.body_ne_native
  | named hid =>
    refine hp.deeper fun _ _ he => ?_
    simp only [Task.matcher, attempt, hid]
    exact he
  | seq_first =>
    refine hp.mono fun depth _ he => ?_
    simp only [Task.matcher, Expr.step, Matcher.trace_sequence]
    exact he.trans (prefix_andThen (grows_attempt hg depth _) s)
  | seq_second hrun =>
    -- at these depths the first part is answered as it was run
    refine (hp.and (attempt_of_runs hrun)).mono ?_
    rintro depth bound ⟨he, ha⟩
    simp only [Task.matcher, Expr.step, Matcher.trace_sequence]
    rwa [Matcher.trace_andThen_of_true _ _ _ ha]
  | alt_first =>
    refine hp.mono fun depth _ he => ?_
    simp only [Task.matcher, Expr.step]
    exact he.trans (prefix_choice (grows_attempt hg depth _) s)
  | alt_second hrun =>
    refine (hp.and (attempt_of_runs hrun)).mono ?_
    rintro depth bound ⟨he, ha⟩
    simp only [Task.matcher, Expr.step]
    rwa [Matcher.trace_choice_of_false _ _ _ ha]
  | opt => simpa only [Task.matcher, Expr.step, Matcher.trace_optional] using hp
  | star => simpa only [Task.matcher, Expr.step, Matcher.trace_repeated] using hp
  | plus_first =>
    refine hp.mono fun depth bound he => ?_
    simp only [Task.matcher, Expr.step, Matcher.trace_sequence]
    refine he.trans (prefix_andThen (fun t => ?_) s)
    rw [Matcher.trace_repeated]
    exact grows_iterate hg depth bound t.offset _ (t.track false)
  | plus_rest hrun =>
    refine (hp.and (attempt_of_runs hrun)).mono ?_
    rintro depth bound ⟨he, ha⟩
    simp only [Task.matcher, Expr.step, Matcher.trace_sequence]
    rwa [Matcher.trace_andThen_of_true _ _ _ ha, Matcher.trace_repeated]
  | ahead => simpa only [Task.matcher, Expr.step, Matcher.trace_ahead] using hp
  | notAhead => simpa only [Task.matcher, Expr.step, Matcher.trace_notAhead] using hp
  | call hr => simpa only [Task.matcher, Expr.step, hr, Matcher.trace_recording] using hp
  | capture => simpa only [Task.matcher, Expr.step, Matcher.trace_captured] using hp
  | @loop_first a mark =>
    exact hp.longer fun depth bound he => he.trans (prefix_iterate hg depth bound mark a s)
  | loop_more hrun ht =>
    refine (hp.and (attempt_of_runs hrun)).longer ?_
    rintro depth bound ⟨he, ha⟩
    simp only [Task.matcher, Matcher.iterate, ha, if_neg ht]
    exact he
  | ask => exact absurd hf Task.not_fits_ask
  | resume => exact absurd hf Task.not_fits_ask

/-- A rule that is come to is reported. -/
theorem produces_of_opens (hg : g.AllTrees) (hf : τ.Fits s) {id : RuleId}
    (h : Relation.ReflTransGen g.Opens (τ, s) (.goal (.rule id), t)) :
    g.Produces τ s (t.trace.toList ++ [.enter (g.nameOf id) t.offset]) := by
  suffices ∀ y : Task × State, Relation.ReflTransGen g.Opens y (.goal (.rule id), t) →
      y.1.Fits y.2 → g.Produces y.1 y.2 (t.trace.toList ++ [.enter (g.nameOf id) t.offset]) from
    this _ h hf
  intro y hy
  induction hy using Relation.ReflTransGen.head_induction_on with
  | refl =>
    -- the entry is the first thing that the rule does
    refine fun _ => ⟨1, fun depth h _ _ => ?_⟩
    obtain ⟨k, rfl⟩ : ∃ k, depth = k + 1 := ⟨depth - 1, by omega⟩
    refine List.IsPrefix.trans ?_ (prefix_traced (g.nameOf id) _ t)
    rw [← Array.toList_push, ← State.trace_emit]
    rcases hid : g.body? id with _ | ⟨e | start⟩
    · exact List.prefix_rfl
    · exact grows_attempt hg k _ _
    · exact absurd hid hg.body_ne_native
  | head hstep _ ih =>
    intro hfy
    exact Starts.produces hg hstep hfy (ih (Starts.fits hg.nativesRead hstep hfy).1)

end Grammar

end Peg
