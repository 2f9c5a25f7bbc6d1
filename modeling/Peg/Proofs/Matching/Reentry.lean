import Mathlib.Algebra.BigOperators.Fin
import Mathlib.Algebra.Order.BigOperators.Group.Finset
import Mathlib.Logic.Relation
import Peg.Proofs.Matching.Progress

/-!
# Without re-entry there is an answer

Where native rules ask for nothing and only read on (`Peg.Grammar.NativesRead`), the only way for a
parse not to come to an end is to come back to a rule at the offset where the rule was entered, while
it is still open (`Peg.Grammar.Reenters`). Everything else is paid for: the rules that are open at one
offset are different ones, whatever is read of the input is read once on the way down, and between two
calls there is no more to do than the tree of a rule is large.

`Peg.Grammar.measure` is the account of this. Of a task it counts what is left of its own tree, the
weights of all rules that it may still come to at the offset where it stands, and a fixed sum for
each character that is left. A rule that is called pays its tree from its own weight, which is then
spent, since the rule is not come to again. The depth that `Peg.Grammar.evaluate` sets is greater
than the measure of any goal, and so the evaluation of a goal without re-entry has a result
(`Peg.Grammar.evaluate_of_not_reenters`).
-/

namespace Peg

namespace Grammar

/-- One task starts another, with the states in which they begin. -/
def Opens (g : Grammar) (x y : Task × State) : Prop := g.Starts x.1 x.2 y.1 y.2

/-- The task comes to a rule that comes to itself at the offset where it was entered. -/
def Reenters (g : Grammar) (τ : Task) (s : State) : Prop :=
  ∃ id s₁ s₂, Relation.ReflTransGen g.Opens (τ, s) (.goal (.rule id), s₁) ∧
    Relation.TransGen g.Opens (.goal (.rule id), s₁) (.goal (.rule id), s₂) ∧
    s₂.offset = s₁.offset

variable {g : Grammar} {τ τ' : Task} {s s' t : State}

theorem Starts.opens (h : g.Starts τ s τ' s') : g.Opens (τ, s) (τ', s') := h

/-- **What passes on to what is started holds of all that is come to.** -/
theorem invariant_of_opens {Inv : Task → State → Prop}
    (hkeeps : ∀ {τ s τ' s'}, Inv τ s → g.Starts τ s τ' s' → Inv τ' s')
    (h : Relation.ReflTransGen g.Opens (τ, s) (τ', s')) (hs : Inv τ s) : Inv τ' s' := by
  suffices ∀ y, Relation.ReflTransGen g.Opens (τ, s) y → Inv y.1 y.2 from this _ h
  intro y hy
  induction hy with
  | refl => exact hs
  | tail _ hstep ih => exact hkeeps ih hstep

/-- What is come to lies ahead. -/
theorem reaches_of_opens (hn : g.NativesRead) (h : Relation.ReflTransGen g.Opens (τ, s) (τ', s'))
    (hf : τ.Fits s) : τ'.Fits s' ∧ s.Reaches s' := by
  have hkeeps {τ₁ s₁ τ₂ s₂} (h₁ : τ₁.Fits s₁ ∧ s.Reaches s₁) (hst : g.Starts τ₁ s₁ τ₂ s₂) :
      τ₂.Fits s₂ ∧ s.Reaches s₂ := by
    obtain ⟨hfit, hreach⟩ := hst.fits hn h₁.1
    exact ⟨hfit, h₁.2.trans hreach⟩
  exact invariant_of_opens hkeeps h ⟨hf, .refl s⟩

theorem not_reenters_of_starts (h : g.Starts τ s τ' s') (hr : ¬g.Reenters τ s) :
    ¬g.Reenters τ' s' := by
  rintro ⟨id, s₁, s₂, hchain, hloop, ho⟩
  exact hr ⟨id, s₁, s₂, .head h.opens hchain, hloop, ho⟩

/-! ### The measure -/

/-- The weight of a rule, none if there is no such rule. -/
def weight (g : Grammar) (id : RuleId) : Nat := ((g.body? id).map Body.weight).getD 0

theorem sum_weight (g : Grammar) : ∑ id ∈ Finset.range g.size, g.weight id = g.total := by
  have hmap : g.total = (g.rules.map (·.body.weight)).sum := by
    rw [total, List.sum_eq_foldr, List.foldr_map]
  rw [hmap, size, Finset.sum_range, ← List.sum_ofFn]
  congr 1
  refine List.ext_getElem (by simp) fun id _ _ => ?_
  simp [weight, body?]

open Classical in
/-- The rules that the task may come to before anything more is read. -/
noncomputable def soon (g : Grammar) (τ : Task) (s : State) : Finset RuleId :=
  (Finset.range g.size).filter fun id =>
    ∃ s', s'.offset = s.offset ∧ Relation.ReflTransGen g.Opens (τ, s) (.goal (.rule id), s')

theorem mem_soon {id : RuleId} :
    id ∈ g.soon τ s ↔ id < g.size ∧
      ∃ s', s'.offset = s.offset ∧ Relation.ReflTransGen g.Opens (τ, s) (.goal (.rule id), s') := by
  simp [soon]

/-- The weights of the rules that the task may come to before anything more is read, and enough for
all rules at each character that is left. -/
noncomputable def level (g : Grammar) (τ : Task) (s : State) : Nat :=
  ∑ id ∈ g.soon τ s, g.weight id + (s.input.size - s.offset) * (g.total + 1)

theorem sum_soon_le (τ : Task) (s : State) : ∑ id ∈ g.soon τ s, g.weight id ≤ g.total := by
  rw [← sum_weight]
  exact Finset.sum_le_sum_of_subset fun _ h => Finset.mem_range.mpr (mem_soon.mp h).1

theorem level_le_total (τ : Task) (s : State) :
    g.level τ s ≤ g.total + s.input.size * (g.total + 1) := by
  have hsum := g.sum_soon_le τ s
  have hmul : (s.input.size - s.offset) * (g.total + 1) ≤ s.input.size * (g.total + 1) :=
    Nat.mul_le_mul_right _ (Nat.sub_le _ _)
  exact Nat.add_le_add hsum hmul

/-- With every character that is read the level sinks. -/
theorem level_lt (h : s.Reaches s') (hlt : s.offset < s'.offset) : g.level τ' s' < g.level τ s := by
  have hsum := g.sum_soon_le τ' s'
  have hsize := h.lt_size hlt
  have hleft : s'.input.size - s'.offset + 1 ≤ s.input.size - s.offset := by
    rw [h.input]
    omega
  have hmul := Nat.mul_le_mul_right (g.total + 1) hleft
  rw [Nat.add_mul] at hmul
  unfold level
  omega

/-- What is started comes to no other rules than the task that starts it. -/
theorem soon_subset (h : g.Starts τ s τ' s') (ho : s'.offset = s.offset) :
    g.soon τ' s' ⊆ g.soon τ s := by
  intro id hid
  obtain ⟨hlt, u, hu, hchain⟩ := mem_soon.mp hid
  exact mem_soon.mpr ⟨hlt, u, hu.trans ho, .head h.opens hchain⟩

theorem level_le (h : g.Starts τ s τ' s') (hr : s.Reaches s') : g.level τ' s' ≤ g.level τ s := by
  rcases Nat.lt_or_eq_of_le hr.le with hlt | heq
  · exact Nat.le_of_lt (level_lt hr hlt)
  · unfold level
    rw [hr.input, ← heq]
    exact Nat.add_le_add_right (Finset.sum_le_sum_of_subset (soon_subset h heq.symm)) _

/-- A rule that does not come to itself pays for its tree. -/
theorem level_body {id : RuleId} {e : Expr} (hid : g.body? id = some (.tree e))
    (hr : ¬g.Reenters (.goal (.rule id)) s) :
    g.level (.goal (.expr e)) (s.emit (.enter (g.nameOf id) s.offset)) + (e.size + 1) ≤
      g.level (.goal (.rule id)) s := by
  have hst : g.Starts (.goal (.rule id)) s (.goal (.expr e)) _ := .tree hid
  -- the tree does not come to the rule again, so the weight of the rule is free
  have hnot : id ∉ g.soon (.goal (.expr e)) (s.emit (.enter (g.nameOf id) s.offset)) := by
    intro hmem
    obtain ⟨-, u, hu, hchain⟩ := mem_soon.mp hmem
    exact hr ⟨id, s, u, .refl, .head' hst.opens hchain, hu⟩
  have hsub : insert id (g.soon (.goal (.expr e)) (s.emit (.enter (g.nameOf id) s.offset))) ⊆
      g.soon (.goal (.rule id)) s :=
    Finset.insert_subset (mem_soon.mpr ⟨lt_size_of_body hid, s, rfl, .refl⟩) (soon_subset hst rfl)
  have hsum := Finset.sum_le_sum_of_subset (f := g.weight) hsub
  rw [Finset.sum_insert hnot] at hsum
  have hweight : g.weight id = e.size + 1 := by simp [weight, hid, Body.weight]
  unfold level
  rw [State.input_emit, State.offset_emit]
  omega

end Grammar

/-- What is left of a task's own tree, and one for its entry. -/
def Task.own : Task → Nat
  | .goal (.expr e) => e.size + 1
  | .goal (.rule _) => 1
  | .goal (.named _) => 2
  | .node e => e.size
  | .loop a _ => a.size + 1
  | .script _ => 0

namespace Grammar

variable {g : Grammar} {τ τ' : Task} {s s' t : State} {b : Bool}

/-- What is left to do before the task is answered, at most. -/
noncomputable def measure (g : Grammar) (τ : Task) (s : State) : Nat := τ.own + g.level τ s

/-- **Tasks without re-entry pay for what they start.** -/
theorem bounds_measure (hn : g.NativesRead) :
    g.Bounds (fun τ s => τ.Fits s ∧ ¬g.Reenters τ s) g.measure where
  keeps h hst := ⟨(hst.fits hn h.1).1, not_reenters_of_starts hst h.2⟩
  pays {τ s τ' s'} h hst := by
    have hr := (hst.fits hn h.1).2
    have hle := level_le hst hr
    unfold measure
    cases hst with
    | tree hid =>
      have hbody := level_body hid h.2
      simp only [Task.own, Task.cost]
      omega
    | @loop_more a mark _ _ _ ht =>
      -- the round has read something, which pays for the next one
      have hmark : s.offset = mark := h.1
      have hlt : s.offset < s'.offset := by
        have := hr.le
        omega
      have hsinks : g.level (.loop a s'.offset) s' < g.level (.loop a mark) s := level_lt hr hlt
      simp only [Task.own, Task.cost]
      omega
    | ask => exact absurd h.1 Task.not_fits_ask
    | resume => exact absurd h.1 Task.not_fits_ask
    | _ =>
      simp [Task.own, Task.cost, Expr.size, Expr.nodes] at hle ⊢
      omega

/-- The depth that an evaluation allows itself is greater than the measure. -/
theorem measure_lt_depthFor (goal : Goal) (s : State) :
    g.measure (.goal goal) s < g.depthFor goal s.reader.size := by
  have hlevel := g.level_le_total (.goal goal) s
  have hown (own : Nat) :
      own + 2 + (g.total + s.input.size * (g.total + 1)) <
        (s.input.size + 2) * (2 * g.total + own + 2) := by
    have hmul : s.input.size * (g.total + 1) ≤ s.input.size * (2 * g.total + own + 2) :=
      Nat.mul_le_mul_left _ (by omega)
    rw [Nat.add_mul]
    omega
  have hsize : s.reader.size = s.input.size := rfl
  unfold measure depthFor
  rw [hsize]
  cases goal with
  | expr e =>
    have := hown e.size
    simp only [Task.own]
    omega
  | _ =>
    have := hown 0
    simp only [Task.own]
    omega

/-- **A goal without re-entry is answered**, at the depth of an evaluation and any greater one. -/
theorem attempt_of_not_reenters (hn : g.NativesRead) {goal : Goal}
    (h : ¬g.Reenters (.goal goal) s) {depth : Nat}
    (hd : g.depthFor goal s.reader.size ≤ depth) : ∃ b t, g.attempt depth goal s = (some b, t) :=
  (bounds_measure hn).attempt ⟨trivial, h⟩ (Nat.lt_of_lt_of_le (measure_lt_depthFor goal s) hd)

/-- What an evaluation results in is what its depth gives. -/
theorem evaluate_eq_some {goal : Goal} :
    g.evaluate goal s = some (b, t) ↔
      g.attempt (g.depthFor goal s.reader.size) goal s = (some b, t) := by
  rw [evaluate]
  rcases g.attempt (g.depthFor goal s.reader.size) goal s with ⟨_ | b', t'⟩ <;> simp

theorem evaluate_of_not_reenters (hn : g.NativesRead) {goal : Goal}
    (h : ¬g.Reenters (.goal goal) s) : ∃ b t, g.evaluate goal s = some (b, t) := by
  obtain ⟨b, t, ha⟩ := attempt_of_not_reenters hn h (Nat.le_refl _)
  exact ⟨b, t, evaluate_eq_some.mpr ha⟩

end Grammar

end Peg
