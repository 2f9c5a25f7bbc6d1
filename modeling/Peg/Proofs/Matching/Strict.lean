import Peg.Proofs.Grammar.Binding
import Peg.Proofs.Matching.Logging

/-!
# Matches that leave nothing on record

There are two ways for an expression to match because something in it does *not*: an option that is not
there, and what must not come next and does not (`Peg.Expr.isLenient`). What failed there stays on
record. Anything else that is tried and given up on the way to a match is forgotten. A choice that goes
on to its second alternative cuts the log back once that has matched, and a repetition, which always ends
with a failure, is muted.

So an expression that comes to nothing lenient, neither in its own tree nor in those of the rules it
leads to (`Peg.Grammar.Strict`), leaves the log as it was whenever it matches
(`Peg.Grammar.Runs.log_eq`).
-/

namespace Peg

namespace Expr

/-- The node at the top may match because something below it fails. -/
def isLenient : Expr → Bool
  | opt _ | notAhead _ => true
  | seq _ _ | alt _ _ | text _ | char _ | endOfInput | range _ _ | any | star _ | plus _ | ahead _
  | call _ | capture _ | empty => false

/-- No node of the tree is lenient. -/
def Strict (e : Expr) : Prop := ∀ a ∈ e.nodes, a.isLenient = false

instance (e : Expr) : Decidable e.Strict :=
  inferInstanceAs (Decidable (∀ a ∈ e.nodes, a.isLenient = false))

variable {e a : Expr}

theorem nodes_subset (ha : a ∈ e.children) : a.nodes ⊆ e.nodes := fun _ hn =>
  mem_nodes_iff.mpr (.head ha (mem_nodes_iff.mp hn))

theorem references_subset (ha : a ∈ e.children) : a.references ⊆ e.references :=
  List.filterMap_subset _ (nodes_subset ha)

end Expr

namespace Grammar

/-- A call in the first tree leads to a rule of which the second is the tree. -/
def Calls (g : Grammar) (e e' : Expr) : Prop :=
  ∃ r ∈ e.references, ∃ id, r.id = some id ∧ g.body? id = some (.tree e')

/-- **Nothing lenient is come to**, in the tree or in the trees of the rules to which calls lead from
there on. -/
def Strict (g : Grammar) (e : Expr) : Prop := ∀ e', Relation.ReflTransGen g.Calls e e' → e'.Strict

namespace Strict

variable {g : Grammar} {e e' a : Expr}

theorem isLenient_eq_false (h : g.Strict e) : e.isLenient = false := h e .refl e e.mem_nodes_self

/-- What stands in a strict tree is strict. -/
theorem child (h : g.Strict e) (ha : a ∈ e.children) : g.Strict a := by
  intro e' he'
  rcases he'.cases_head with rfl | ⟨c, ⟨r, hr, hc⟩, hce'⟩
  · exact fun n hn => h e .refl n (Expr.nodes_subset ha hn)
  · exact h e' (.head ⟨r, Expr.references_subset ha hr, hc⟩ hce')

/-- The rules that a strict tree calls are strict. -/
theorem called (h : g.Strict e) (hc : g.Calls e e') : g.Strict e' := fun a ha => h a (.head hc ha)

end Strict

end Grammar

/-- What the task is about is strict. Of what is not about one expression nothing is said. -/
def Task.Strict (g : Grammar) : Task → Prop
  | .goal (.expr e) | .node e => g.Strict e
  | .goal (.rule id) => ∀ e, g.body? id = some (.tree e) → g.Strict e
  | .goal (.named _) | .loop _ _ | .script _ => False

namespace Grammar

variable {g : Grammar} {τ : Task} {s t : State} {b : Bool}

/-- **A match of something strict leaves the log as it was.** -/
theorem Runs.log_eq (hg : g.AllTrees) (h : g.Runs τ s b t) (hb : b = true) (hτ : τ.Strict g) :
    t.log = s.log := by
  induction h with
  | expr_matches _ ih => exact ih hb hτ
  | rule_tree hid _ ih => exact ih hb (hτ _ hid)
  | rule_native hid => exact absurd hid hg.body_ne_native
  | named_known => exact hτ.elim
  | text_matches | single_matches | empty => rfl
  | seq_matches _ _ iha ihb =>
    exact (ihb rfl (Strict.child hτ (by simp [Expr.children]))).trans
      (iha rfl (Strict.child hτ (by simp [Expr.children])))
  | alt_first _ ih => exact ih rfl (Strict.child hτ (by simp [Expr.children]))
  | @alt_second a b s t u ha _ _ ihb =>
    -- the second alternative has left the log as the first one did, and that is cut back
    have hu : u.log = t.log := ihb rfl (Strict.child hτ (by simp [Expr.children]))
    rw [State.log_cutLog, hu]
    exact (ha.goal_logs hg).cutTo_eq
  | opt_some | opt_none | notAhead_matches =>
    exact absurd (Strict.isLenient_eq_false hτ) (by simp [Expr.isLenient])
  | star h => exact (h.loop_logs hg rfl).listen_eq
  | plus_matches _ hl iha _ =>
    exact (hl.loop_logs hg rfl).listen_eq.trans (iha rfl (Strict.child hτ (by simp [Expr.children])))
  | loop_ends | loop_still | loop_more => exact hτ.elim
  | ahead_matches _ ih => exact ih rfl (Strict.child hτ (by simp [Expr.children]))
  | call_matches hr _ ih =>
    exact ih rfl fun e hid => Strict.called hτ ⟨_, List.mem_singleton_self _, _, hr, hid⟩
  | capture_matches _ ih => exact ih rfl (Strict.child hτ (by simp [Expr.children]))
  | done | ask => exact hτ.elim
  | _ => cases hb

end Grammar

end Peg
