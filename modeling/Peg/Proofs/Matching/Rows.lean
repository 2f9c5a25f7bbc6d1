import Peg.Proofs.Matching.Effects

/-!
# Rows and choices of any length

A sequence or a choice of several expressions is nested to the right
(`Peg.Expr.sequenceOf`, `Peg.Expr.choiceOf`), so one and the same list of expressions is tried by nodes
that lie in each other. What comes of the whole list can nevertheless be said in one go, from what comes
of its members.

A row matches if its members do, one after another (`Peg.Grammar.InTurn`). If a member fails, every node
around it puts a failure on record, from the inside out, each at the offset where its own part of the row
began. The node that has the failing member on its left puts the input back there; the last member of a
row is on no node's left, so what it fails with stays where it is (`Peg.Effect.brokenOff`).

A choice is what its first matching alternative is. The log is cut back behind it, unless that was the
first alternative of all (`Peg.Effect.insteadOf`). If there is none, every node puts a failure on record
at the offset where the choice began (`Peg.Effect.exhausted`).
-/

namespace Peg

namespace Expr

theorem sequenceOf_singleton (e : Expr) : sequenceOf [e] = e := rfl

theorem sequenceOf_cons_cons (a b : Expr) (es : List Expr) :
    sequenceOf (a :: b :: es) = seq a (sequenceOf (b :: es)) := rfl

theorem choiceOf_singleton (e : Expr) : choiceOf [e] = e := rfl

theorem choiceOf_cons_cons (a b : Expr) (es : List Expr) :
    choiceOf (a :: b :: es) = alt a (choiceOf (b :: es)) := rfl

end Expr

/-- A member of a list is its head, or a member of what comes behind. -/
theorem exists_member_cons {α : Type} {a : α} {as : List α} {P : List α → α → List α → Prop} :
    (∃ before e after, a :: as = before ++ e :: after ∧ P before e after) ↔
      P [] a as ∨ ∃ before e after, as = before ++ e :: after ∧ P (a :: before) e after := by
  constructor
  · rintro ⟨_ | ⟨b, before⟩, e, after, has, h⟩
    · obtain ⟨rfl, rfl⟩ : a = e ∧ as = after := by simpa using has
      exact .inl h
    · obtain ⟨rfl, hrest⟩ : a = b ∧ as = before ++ e :: after := by simpa using has
      exact .inr ⟨before, e, after, hrest, h⟩
  · rintro (h | ⟨before, e, after, rfl, h⟩)
    · exact ⟨[], a, as, rfl, h⟩
    · exact ⟨a :: before, e, after, rfl, h⟩

/-! ### Effects of lists of expressions -/

namespace Effect

/-- One effect after another, from the offset `p` on. -/
def inRow (p : Nat) (xs : List Effect) : Effect where
  stop := (xs.getLast?.map (·.stop)).getD p
  records := xs.flatMap (·.records)
  captures := xs.flatMap (·.captures)
  events := xs.flatMap (·.events)

/-- The offset `p` where a row begins and those where its members with the effects `xs` end. The last
one is where the next member begins. -/
def marks (p : Nat) (xs : List Effect) : List Nat := p :: xs.map (·.stop)

/-- **What comes of a row that fails**: it begins at the offset `p`, the members with the effects `xs`
match, and the next one fails with the effect `x`; the members `after` are not tried. -/
def brokenOff (l : Log) (p : Nat) (xs : List Effect) (x : Effect) (after : List Expr) : Effect where
  stop := if after = [] then x.stop else (inRow p xs).stop
  records := xs.flatMap (·.records) ++ x.records ++
    l.notes .sequence (if after = [] then (marks p xs).dropLast else marks p xs).reverse
  events := xs.flatMap (·.events) ++ x.events

/-- **What comes of a choice that matches**: the alternatives with the effects `xs` fail, and the next
one matches with the effect `x`. -/
def insteadOf (xs : List Effect) (x : Effect) : Effect where
  stop := x.stop
  records := if xs = [] then x.records else []
  captures := x.captures
  events := xs.flatMap (·.events) ++ x.events

/-- **What comes of a choice that fails**: it begins at the offset `p`, and all its alternatives fail,
with the effects `xs`. -/
def exhausted (l : Log) (p : Nat) (xs : List Effect) : Effect where
  stop := (inRow p xs).stop
  records := xs.flatMap (·.records) ++ l.notes .choice (List.replicate (xs.length - 1) p)
  events := xs.flatMap (·.events)

variable {p : Nat} {x : Effect} {xs : List Effect} {after : List Expr}

@[simp]
theorem inRow_nil (p : Nat) : inRow p [] = { stop := p } := rfl

@[simp]
theorem stop_inRow_cons (p : Nat) (x : Effect) (xs : List Effect) :
    (inRow p (x :: xs)).stop = (inRow x.stop xs).stop := by
  rcases h : xs.getLast? with _ | y <;> simp [inRow, List.getLast?_cons, h]

theorem inRow_cons (p : Nat) (x : Effect) (xs : List Effect) :
    inRow p (x :: xs) = x.andThen (inRow x.stop xs) := by
  have hstop := stop_inRow_cons p x xs
  simpa [inRow, andThen] using hstop

theorem inRow_singleton (p : Nat) (x : Effect) : inRow p [x] = x := by
  simp [inRow]

/-- Where the first member fails the input is put back. -/
theorem brokenOff_nil (l : Log) (p : Nat) (x : Effect) (h : after ≠ []) :
    brokenOff l p [] x after =
      { stop := p, records := x.records ++ l.notes .sequence [p], events := x.events } := by
  simp [brokenOff, marks, h]

/-- Where there is one member only, what it fails with stays as it is. -/
theorem brokenOff_nil_nil (l : Log) (p : Nat) (hx : x.captures = []) :
    brokenOff l p [] x [] = x := by
  simp [brokenOff, marks, Log.notes, ← hx]

/-- A member that matches comes first, and the failure around it is the last on record. -/
theorem brokenOff_cons (l : Log) (p : Nat) (x : Effect) (xs : List Effect) (y : Effect)
    (after : List Expr) :
    brokenOff l p (x :: xs) y after =
      { stop := (brokenOff l x.stop xs y after).stop
        records := x.records ++ (brokenOff l x.stop xs y after).records ++ l.notes .sequence [p]
        events := x.events ++ (brokenOff l x.stop xs y after).events } := by
  by_cases h : after = [] <;> simp [brokenOff, marks, h, ← Log.notes_append]

@[simp]
theorem insteadOf_nil (x : Effect) : insteadOf [] x = x := rfl

/-- Whatever the alternatives before it are, behind one that fails the log is cut back. -/
theorem insteadOf_cons (x : Effect) (xs : List Effect) (y : Effect) :
    insteadOf (x :: xs) y =
      { stop := (insteadOf xs y).stop
        captures := (insteadOf xs y).captures
        events := x.events ++ (insteadOf xs y).events } := by
  simp [insteadOf]

theorem exhausted_singleton (l : Log) (p : Nat) (hx : x.captures = []) : exhausted l p [x] = x := by
  simp [exhausted, inRow, Log.notes, ← hx]

theorem exhausted_cons_cons (l : Log) (p : Nat) (x y : Effect) (xs : List Effect) :
    exhausted l p (x :: y :: xs) =
      { stop := (exhausted l p (y :: xs)).stop
        records := x.records ++ (exhausted l p (y :: xs)).records ++ l.notes .choice [p]
        events := x.events ++ (exhausted l p (y :: xs)).events } := by
  simp [exhausted, ← Log.notes_append, ← List.replicate_succ']

end Effect

theorem State.followedBy_inRow_cons (s : State) (x : Effect) (xs : List Effect) :
    s.followedBy (.inRow s.offset (x :: xs)) =
      (s.followedBy x).followedBy (.inRow (s.followedBy x).offset xs) := by
  rw [followedBy_followedBy, offset_followedBy, Effect.inRow_cons]

namespace Grammar

/-- **The expressions match one after another** from the state on, with the effects. -/
inductive InTurn (g : Grammar) : List Expr → State → List Effect → Prop
  | nil {s} : g.InTurn [] s []
  | cons {e es s x xs} (h : g.Does e s true x) (hes : g.InTurn es (s.followedBy x) xs) :
      g.InTurn (e :: es) s (x :: xs)

variable {g : Grammar} {a b e : Expr} {es : List Expr} {s t : State} {y : Effect} {ys : List Effect}

@[simp]
theorem inTurn_nil : g.InTurn [] s ys ↔ ys = [] := by
  constructor
  · rintro ⟨⟩
    rfl
  · rintro rfl
    exact .nil

theorem inTurn_cons : g.InTurn (e :: es) s ys ↔
    ∃ x xs, g.Does e s true x ∧ g.InTurn es (s.followedBy x) xs ∧ ys = x :: xs := by
  constructor
  · rintro (_ | ⟨h, hes⟩)
    exact ⟨_, _, h, hes, rfl⟩
  · rintro ⟨x, xs, h, hes, rfl⟩
    exact .cons h hes

/-! ### Two expressions -/

theorem runs_seq_true_iff : g.Runs (.goal (.expr (.seq a b))) s true t ↔
    ∃ u, g.Runs (.goal (.expr a)) s true u ∧ g.Runs (.goal (.expr b)) u true t := by
  constructor
  · intro h
    cases h with
    | expr_matches hn =>
      cases hn with
      | single_matches he => cases he
      | seq_matches ha hb => exact ⟨_, ha, hb⟩
  · rintro ⟨u, ha, hb⟩
    exact .expr_matches (.seq_matches ha hb)

theorem runs_seq_false_iff : g.Runs (.goal (.expr (.seq a b))) s false t ↔
    (∃ u, g.Runs (.goal (.expr a)) s false u ∧
        t = ((u.moveTo s.offset).record s.offset .sequence).dropCaptures s.captures.size) ∨
      ∃ u v, g.Runs (.goal (.expr a)) s true u ∧ g.Runs (.goal (.expr b)) u false v ∧
        t = (v.record s.offset .sequence).dropCaptures s.captures.size := by
  constructor
  · intro h
    cases h with
    | expr_fails hn =>
      cases hn with
      | single_fails he => cases he
      | seq_first_fails ha => exact .inl ⟨_, ha, rfl⟩
      | seq_second_fails ha hb => exact .inr ⟨_, _, ha, hb, rfl⟩
  · rintro (⟨u, ha, rfl⟩ | ⟨u, v, ha, hb, rfl⟩)
    · exact .expr_fails (.seq_first_fails ha)
    · exact .expr_fails (.seq_second_fails ha hb)

theorem runs_alt_true_iff : g.Runs (.goal (.expr (.alt a b))) s true t ↔
    g.Runs (.goal (.expr a)) s true t ∨
      ∃ u v, g.Runs (.goal (.expr a)) s false u ∧
        g.Runs (.goal (.expr b)) (u.moveTo s.offset) true v ∧ t = v.cutLog s.log.records.size := by
  constructor
  · intro h
    cases h with
    | expr_matches hn =>
      cases hn with
      | single_matches he => cases he
      | alt_first ha => exact .inl ha
      | alt_second ha hb => exact .inr ⟨_, _, ha, hb, rfl⟩
  · rintro (ha | ⟨u, v, ha, hb, rfl⟩)
    · exact .expr_matches (.alt_first ha)
    · exact .expr_matches (.alt_second ha hb)

theorem runs_alt_false_iff : g.Runs (.goal (.expr (.alt a b))) s false t ↔
    ∃ u v, g.Runs (.goal (.expr a)) s false u ∧
      g.Runs (.goal (.expr b)) (u.moveTo s.offset) false v ∧
        t = (v.record s.offset .choice).dropCaptures s.captures.size := by
  constructor
  · intro h
    cases h with
    | expr_fails hn =>
      cases hn with
      | single_fails he => cases he
      | alt_fails ha hb => exact ⟨_, _, ha, hb, rfl⟩
  · rintro ⟨u, v, ha, hb, rfl⟩
    exact .expr_fails (.alt_fails ha hb)

namespace AllTrees

/-- Two expressions match one after the other. -/
theorem does_seq_true_iff (hg : g.AllTrees) : g.Does (.seq a b) s true y ↔
    ∃ x z, g.Does a s true x ∧ g.Does b (s.followedBy x) true z ∧ y = x.andThen z := by
  rw [Does, hg.evaluate_iff_runs, runs_seq_true_iff]
  simp only [hg.runs_iff_does]
  constructor
  · rintro ⟨_, ⟨x, hx, rfl⟩, z, hz, h⟩
    exact ⟨x, z, hx, hz, by simpa [State.followedBy_inj] using h⟩
  · rintro ⟨x, z, hx, hz, rfl⟩
    exact ⟨_, ⟨x, hx, rfl⟩, z, hz, by simp⟩

/-- Of two expressions in a row the first fails, and the input is put back, or the second does. -/
theorem does_seq_false_iff (hg : g.AllTrees) : g.Does (.seq a b) s false y ↔
    (∃ x, g.Does a s false x ∧
        y = { stop := s.offset
              records := x.records ++ s.log.notes .sequence [s.offset]
              events := x.events }) ∨
      ∃ x z, g.Does a s true x ∧ g.Does b (s.followedBy x) false z ∧
        y = { stop := z.stop
              records := x.records ++ z.records ++ s.log.notes .sequence [s.offset]
              events := x.events ++ z.events } := by
  rw [Does, hg.evaluate_iff_runs, runs_seq_false_iff]
  simp only [hg.runs_iff_does]
  constructor
  · rintro (⟨_, ⟨x, hx, rfl⟩, h⟩ | ⟨_, _, ⟨x, hx, rfl⟩, ⟨z, hz, rfl⟩, h⟩)
    · exact .inl ⟨x, hx, by simpa [State.followedBy_inj] using h⟩
    · exact .inr ⟨x, z, hx, hz, by simpa [State.followedBy_inj, Effect.andThen] using h⟩
  · rintro (⟨x, hx, rfl⟩ | ⟨x, z, hx, hz, rfl⟩)
    · exact .inl ⟨_, ⟨x, hx, rfl⟩, by simp⟩
    · exact .inr ⟨_, _, ⟨x, hx, rfl⟩, ⟨z, hz, rfl⟩, by simp [Effect.andThen]⟩

/-- The first of two alternatives matches, or the second does and the log is cut back. -/
theorem does_alt_true_iff (hg : g.AllTrees) : g.Does (.alt a b) s true y ↔
    g.Does a s true y ∨
      ∃ x z, g.Does a s false x ∧ g.Does b s true z ∧
        y = { stop := z.stop, captures := z.captures, events := x.events ++ z.events } := by
  rw [Does, Does, hg.evaluate_iff_runs, hg.evaluate_iff_runs, runs_alt_true_iff]
  refine or_congr_right ?_
  simp only [hg.runs_iff_does]
  constructor
  · rintro ⟨_, _, ⟨x, hx, rfl⟩, ⟨z, hz, rfl⟩, h⟩
    refine ⟨x, z, hx, (hg.does_again x).mp hz, ?_⟩
    simpa [State.followedBy_inj, Effect.andThen, hg.captures_eq_nil hx] using h
  · rintro ⟨x, z, hx, hz, rfl⟩
    refine ⟨_, _, ⟨x, hx, rfl⟩, ⟨z, (hg.does_again x).mpr hz, rfl⟩, ?_⟩
    simp [Effect.andThen, hg.captures_eq_nil hx]

/-- Both alternatives fail. -/
theorem does_alt_false_iff (hg : g.AllTrees) : g.Does (.alt a b) s false y ↔
    ∃ x z, g.Does a s false x ∧ g.Does b s false z ∧
      y = { stop := z.stop
            records := x.records ++ z.records ++ s.log.notes .choice [s.offset]
            events := x.events ++ z.events } := by
  rw [Does, hg.evaluate_iff_runs, runs_alt_false_iff]
  simp only [hg.runs_iff_does]
  constructor
  · rintro ⟨_, _, ⟨x, hx, rfl⟩, ⟨z, hz, rfl⟩, h⟩
    refine ⟨x, z, hx, (hg.does_again x).mp hz, ?_⟩
    simpa [State.followedBy_inj, Effect.andThen] using h
  · rintro ⟨x, z, hx, hz, rfl⟩
    refine ⟨_, _, ⟨x, hx, rfl⟩, ⟨z, (hg.does_again x).mpr hz, rfl⟩, ?_⟩
    simp [Effect.andThen]

/-! ### Rows -/

theorem evaluate_empty (hg : g.AllTrees) (s : State) :
    g.evaluate (.expr .empty) s = some (true, s) :=
  hg.evaluate_iff_runs.mpr (.expr_matches .empty)

/-- A row matches if its members match one after another. -/
theorem does_sequenceOf_true_iff (hg : g.AllTrees) :
    g.Does (.sequenceOf es) s true y ↔ ∃ xs, g.InTurn es s xs ∧ y = .inRow s.offset xs := by
  -- along the nesting, each node with the rest of the row on its right
  induction es generalizing s y with
  | nil =>
    rw [Does, Expr.sequenceOf, hg.evaluate_empty]
    simp [State.eq_followedBy_iff]
  | cons e es ih =>
    obtain _ | ⟨e', es⟩ := es
    · simp [Expr.sequenceOf_singleton, inTurn_cons, Effect.inRow_singleton]
    · rw [Expr.sequenceOf_cons_cons, hg.does_seq_true_iff]
      simp only [ih, inTurn_cons (e := e)]
      constructor
      · rintro ⟨x, _, hx, ⟨xs, hxs, rfl⟩, rfl⟩
        exact ⟨x :: xs, ⟨x, xs, hx, hxs, rfl⟩, (Effect.inRow_cons _ _ _).symm⟩
      · rintro ⟨_, ⟨x, xs, hx, hxs, rfl⟩, rfl⟩
        exact ⟨x, _, hx, ⟨xs, hxs, rfl⟩, Effect.inRow_cons _ _ _⟩

/-- A row fails if one of its members does and those before it match. -/
theorem does_sequenceOf_false_iff (hg : g.AllTrees) : g.Does (.sequenceOf es) s false y ↔
    ∃ before e after, es = before ++ e :: after ∧ ∃ xs x, g.InTurn before s xs ∧
      g.Does e (s.followedBy (.inRow s.offset xs)) false x ∧
        y = .brokenOff s.log s.offset xs x after := by
  induction es generalizing s y with
  | nil => simp [Does, Expr.sequenceOf, hg.evaluate_empty]
  | cons a es ih =>
    rw [exists_member_cons]
    obtain _ | ⟨b, es⟩ := es
    · -- the only member is the last one
      rw [Expr.sequenceOf_singleton]
      constructor
      · intro hy
        exact .inl ⟨[], y, .nil, by simpa using hy,
          (Effect.brokenOff_nil_nil _ _ (hg.captures_eq_nil hy)).symm⟩
      · rintro (⟨xs, x, hxs, hx, rfl⟩ | ⟨before, e, after, hes, -⟩)
        · obtain rfl := inTurn_nil.mp hxs
          rw [Effect.inRow_nil, State.followedBy_stop_offset] at hx
          rwa [Effect.brokenOff_nil_nil _ _ (hg.captures_eq_nil hx)]
        · simp at hes
    · rw [Expr.sequenceOf_cons_cons, hg.does_seq_false_iff]
      refine or_congr ?_ ?_
      · simp [Effect.brokenOff_nil]
      · simp only [ih, inTurn_cons (e := a)]
        constructor
        · rintro ⟨x, _, hx, ⟨before, e, after, hes, xs, z, hxs, hz, rfl⟩, rfl⟩
          refine ⟨before, e, after, hes, x :: xs, z, ⟨x, xs, hx, hxs, rfl⟩, ?_,
            (Effect.brokenOff_cons _ _ _ _ _ _).symm⟩
          rwa [State.followedBy_inRow_cons]
        · rintro ⟨before, e, after, hes, _, z, ⟨x, xs, hx, hxs, rfl⟩, hz, rfl⟩
          rw [State.followedBy_inRow_cons] at hz
          exact ⟨x, _, hx, ⟨before, e, after, hes, xs, z, hxs, hz, rfl⟩,
            Effect.brokenOff_cons _ _ _ _ _ _⟩

/-! ### Choices -/

/-- A choice matches if one of its alternatives does and those before it fail. -/
theorem does_choiceOf_true_iff (hg : g.AllTrees) (hne : es ≠ []) :
    g.Does (.choiceOf es) s true y ↔
      ∃ before e after, es = before ++ e :: after ∧ ∃ xs x,
        List.Forall₂ (fun a z => g.Does a s false z) before xs ∧ g.Does e s true x ∧
          y = .insteadOf xs x := by
  induction es generalizing y with
  | nil => exact absurd rfl hne
  | cons a es ih =>
    rw [exists_member_cons]
    obtain _ | ⟨b, es⟩ := es
    · simp [Expr.choiceOf_singleton]
    · rw [Expr.choiceOf_cons_cons, hg.does_alt_true_iff]
      refine or_congr ?_ ?_
      · simp
      · simp only [ih (List.cons_ne_nil _ _), List.forall₂_cons_left_iff]
        constructor
        · rintro ⟨x, _, hx, ⟨before, e, after, hes, xs, z, hxs, hz, rfl⟩, rfl⟩
          exact ⟨before, e, after, hes, x :: xs, z, ⟨x, xs, hx, hxs, rfl⟩, hz,
            (Effect.insteadOf_cons _ _ _).symm⟩
        · rintro ⟨before, e, after, hes, _, z, ⟨x, xs, hx, hxs, rfl⟩, hz, rfl⟩
          exact ⟨x, _, hx, ⟨before, e, after, hes, xs, z, hxs, hz, rfl⟩,
            Effect.insteadOf_cons _ _ _⟩

/-- A choice fails if all its alternatives do. -/
theorem does_choiceOf_false_iff (hg : g.AllTrees) (hne : es ≠ []) :
    g.Does (.choiceOf es) s false y ↔
      ∃ xs, List.Forall₂ (fun a z => g.Does a s false z) es xs ∧
        y = .exhausted s.log s.offset xs := by
  induction es generalizing y with
  | nil => exact absurd rfl hne
  | cons a es ih =>
    obtain _ | ⟨b, es⟩ := es
    · rw [Expr.choiceOf_singleton]
      simp only [List.forall₂_cons_left_iff, List.forall₂_nil_left_iff]
      constructor
      · intro hy
        exact ⟨_, ⟨y, [], hy, rfl, rfl⟩, (Effect.exhausted_singleton _ _ (hg.captures_eq_nil hy)).symm⟩
      · rintro ⟨_, ⟨x, _, hx, rfl, rfl⟩, rfl⟩
        rwa [Effect.exhausted_singleton _ _ (hg.captures_eq_nil hx)]
    · rw [Expr.choiceOf_cons_cons, hg.does_alt_false_iff]
      simp only [ih (List.cons_ne_nil _ _), List.forall₂_cons_left_iff]
      constructor
      · rintro ⟨x, _, hx, ⟨_, ⟨z, zs, hz, hzs, rfl⟩, rfl⟩, rfl⟩
        exact ⟨_, ⟨x, _, hx, ⟨z, zs, hz, hzs, rfl⟩, rfl⟩, (Effect.exhausted_cons_cons _ _ _ _ _).symm⟩
      · rintro ⟨_, ⟨x, _, hx, ⟨z, zs, hz, hzs, rfl⟩, rfl⟩, rfl⟩
        exact ⟨x, _, hx, ⟨_, ⟨z, zs, hz, hzs, rfl⟩, rfl⟩, Effect.exhausted_cons_cons _ _ _ _ _⟩

end AllTrees

/-! ### What comes of a list -/

/-- **What comes of a row of any length**, to the last bit of the state. The empty row matches and does
nothing, and a row of one is that one. A row matches exactly if its members match one after another, and
then it does what they do. It fails exactly if one of its members fails behind some that match. Nothing
is captured then, and on record is what the members tried have put there, and behind it one failure for
each node around the one that failed: at the offset where that one began, if it was not the last, and at
those of the members before it, in reverse. The input is left where the failing member began, or, if it
was the last, where it left the input. -/
theorem sequenceOf_exact (hg : g.AllTrees) (s : State) :
    g.evaluate (.expr (.sequenceOf [])) s = some (true, s) ∧ (∀ e, Expr.sequenceOf [e] = e) ∧
    (∀ es t, g.evaluate (.expr (.sequenceOf es)) s = some (true, t) ↔
      ∃ xs, g.InTurn es s xs ∧ t = s.followedBy (.inRow s.offset xs)) ∧
    ∀ es t, g.evaluate (.expr (.sequenceOf es)) s = some (false, t) ↔
      ∃ before e after, es = before ++ e :: after ∧ ∃ xs x, g.InTurn before s xs ∧
        g.Does e (s.followedBy (.inRow s.offset xs)) false x ∧
          t = s.followedBy (.brokenOff s.log s.offset xs x after) := by
  refine ⟨hg.evaluate_empty s, Expr.sequenceOf_singleton, fun es t => ?_, fun es t => ?_⟩
  · rw [hg.evaluate_iff_does]
    simp only [hg.does_sequenceOf_true_iff]
    constructor
    · rintro ⟨_, ⟨xs, hxs, rfl⟩, rfl⟩
      exact ⟨xs, hxs, rfl⟩
    · rintro ⟨xs, hxs, rfl⟩
      exact ⟨_, ⟨xs, hxs, rfl⟩, rfl⟩
  · rw [hg.evaluate_iff_does]
    simp only [hg.does_sequenceOf_false_iff]
    constructor
    · rintro ⟨_, ⟨before, e, after, hes, xs, x, hxs, hx, rfl⟩, rfl⟩
      exact ⟨before, e, after, hes, xs, x, hxs, hx, rfl⟩
    · rintro ⟨before, e, after, hes, xs, x, hxs, hx, rfl⟩
      exact ⟨_, ⟨before, e, after, hes, xs, x, hxs, hx, rfl⟩, rfl⟩

/-- `a <- <'a'>`. -/
def lettered : Grammar where
  rules := [⟨"a", .tree (.capture (.char 'a'))⟩]
  root := some 0

theorem lettered_allTrees : lettered.AllTrees := by
  simp [AllTrees, lettered, Body.tree?]

/-- Behind an `x` that was captured, with a failure on record. -/
def behindX : State where
  reader := { input := #['x', 'a', 'b', 'y'], offset := 1 }
  log := { records := #[⟨0, .any⟩] }
  captures := #[Capture.ofRange 0 1]

def callA : Expr := .call { name := "a", id := some 0 }

/-- What calling `a` does behind the `x`. -/
def callsA : Effect where
  stop := 2
  captures := [Capture.ofRange 1 2]
  events := [.enter "a" 1, .exit "a" 2 true]

theorem does_callA : lettered.Does callA behindX true callsA := rfl

/-- A row fails at its last member, which stays where it stopped, or before it. -/
theorem sequenceOf_exact_lettered :
    lettered.AllTrees ∧
      (∃ t, lettered.evaluate (.expr (.sequenceOf [callA, .char 'b', .char 'c'])) behindX =
          some (false, t) ∧ t.offset = 4 ∧ t.captures = behindX.captures ∧
        t.log.records = #[⟨0, .any⟩, ⟨3, .char 'c'⟩, ⟨2, .sequence⟩, ⟨1, .sequence⟩]) ∧
      ∃ t, lettered.evaluate (.expr (.sequenceOf [callA, .char 'c', .char 'b'])) behindX =
          some (false, t) ∧ t.offset = 2 ∧ t.captures = behindX.captures ∧
        t.log.records = #[⟨0, .any⟩, ⟨2, .char 'c'⟩, ⟨2, .sequence⟩, ⟨1, .sequence⟩] := by
  have hb : lettered.Does (.char 'b') (behindX.followedBy callsA) true { stop := 3 } := rfl
  have hrow := (sequenceOf_exact lettered_allTrees behindX).2.2.2
  refine ⟨lettered_allTrees,
    ⟨_, (hrow _ _).mpr ⟨[callA, .char 'b'], .char 'c', [], rfl, [callsA, { stop := 3 }],
      { stop := 4, records := [⟨3, .char 'c'⟩] }, .cons does_callA (.cons hb .nil), rfl, rfl⟩, ?_⟩,
    ⟨_, (hrow _ _).mpr ⟨[callA], .char 'c', [.char 'b'], rfl, [callsA],
      { stop := 3, records := [⟨2, .char 'c'⟩] }, .cons does_callA .nil, rfl, rfl⟩, ?_⟩⟩
  all_goals exact ⟨rfl, rfl, rfl⟩

/-- **What comes of a choice of any length**, to the last bit of the state. The empty choice fails, and a
choice of one is that one. Any other matches exactly if one of its alternatives does where those before
it fail, each from where the choice began; and then it stops where that one does and captures what that
one captures, and the log is as it was before, or as the first alternative has left it. It fails exactly
if all of them fail. Then nothing is captured, the input is left where the last one left it, and on
record is what they have put there, and behind it one failure less than there are alternatives, at the
offset where the choice began. -/
theorem choiceOf_exact (hg : g.AllTrees) (s : State) :
    (∃ t, g.evaluate (.expr (.choiceOf [])) s = some (false, t)) ∧
    (∀ e, Expr.choiceOf [e] = e) ∧
    ∀ es, es ≠ [] →
      (∀ t, g.evaluate (.expr (.choiceOf es)) s = some (true, t) ↔
        ∃ before e after, es = before ++ e :: after ∧ ∃ xs x,
          List.Forall₂ (fun a z => g.Does a s false z) before xs ∧ g.Does e s true x ∧
            t = s.followedBy (.insteadOf xs x)) ∧
      ∀ t, g.evaluate (.expr (.choiceOf es)) s = some (false, t) ↔
        ∃ xs, List.Forall₂ (fun a z => g.Does a s false z) es xs ∧
          t = s.followedBy (.exhausted s.log s.offset xs) := by
  refine ⟨⟨_, hg.evaluate_iff_runs.mpr (.expr_fails (.notAhead_fails (.expr_matches .empty)))⟩,
    Expr.choiceOf_singleton, fun es hne => ⟨fun t => ?_, fun t => ?_⟩⟩
  · rw [hg.evaluate_iff_does]
    simp only [hg.does_choiceOf_true_iff hne]
    constructor
    · rintro ⟨_, ⟨before, e, after, hes, xs, x, hxs, hx, rfl⟩, rfl⟩
      exact ⟨before, e, after, hes, xs, x, hxs, hx, rfl⟩
    · rintro ⟨before, e, after, hes, xs, x, hxs, hx, rfl⟩
      exact ⟨_, ⟨before, e, after, hes, xs, x, hxs, hx, rfl⟩, rfl⟩
  · rw [hg.evaluate_iff_does]
    simp only [hg.does_choiceOf_false_iff hne]
    constructor
    · rintro ⟨_, ⟨xs, hxs, rfl⟩, rfl⟩
      exact ⟨xs, hxs, rfl⟩
    · rintro ⟨xs, hxs, rfl⟩
      exact ⟨_, ⟨xs, hxs, rfl⟩, rfl⟩

/-- Behind two alternatives that fail the log is as it was before the choice, and three that fail put two
more failures on record. -/
theorem choiceOf_exact_lettered :
    lettered.AllTrees ∧
      (∃ t, lettered.evaluate (.expr (.choiceOf [.char 'b', .char 'c', callA])) behindX =
          some (true, t) ∧ t.offset = 2 ∧
        t.captures = #[Capture.ofRange 0 1, Capture.ofRange 1 2] ∧ t.log = behindX.log) ∧
      ∃ t, lettered.evaluate (.expr (.choiceOf [.char 'b', .char 'c', .char 'd'])) behindX =
          some (false, t) ∧ t.offset = 2 ∧ t.captures = behindX.captures ∧
        t.log.records = #[⟨0, .any⟩, ⟨1, .char 'b'⟩, ⟨1, .char 'c'⟩, ⟨1, .char 'd'⟩,
          ⟨1, .choice⟩, ⟨1, .choice⟩] := by
  have hb : lettered.Does (.char 'b') behindX false { stop := 2, records := [⟨1, .char 'b'⟩] } := rfl
  have hc : lettered.Does (.char 'c') behindX false { stop := 2, records := [⟨1, .char 'c'⟩] } := rfl
  have hd : lettered.Does (.char 'd') behindX false { stop := 2, records := [⟨1, .char 'd'⟩] } := rfl
  have hchoice := (choiceOf_exact lettered_allTrees behindX).2.2
  refine ⟨lettered_allTrees,
    ⟨_, ((hchoice _ (List.cons_ne_nil _ _)).1 _).mpr ⟨[.char 'b', .char 'c'], callA, [], rfl, _, callsA,
      .cons hb (.cons hc .nil), does_callA, rfl⟩, ?_⟩,
    ⟨_, ((hchoice _ (List.cons_ne_nil _ _)).2 _).mpr ⟨_, .cons hb (.cons hc (.cons hd .nil)), rfl⟩, ?_⟩⟩
  all_goals exact ⟨rfl, rfl, rfl⟩

end Grammar

end Peg
