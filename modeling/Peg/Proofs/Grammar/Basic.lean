import Peg.Grammar.Basic

/-!
# Grammars of trees and resolved grammars

A grammar is resolved when every call in one of its trees leads to one of its rules, and the same is
said of an expression that is matched in it (`Peg.Grammar.Binds`). Where there are no native rules
(`Peg.Grammar.AllTrees`), everything that can be asked of the grammar is an expression.
-/

namespace Peg.Grammar

/-- Every rule of the grammar is an expression. -/
def AllTrees (g : Grammar) : Prop := ∀ d ∈ g.rules, d.body.tree?.isSome

/-- Every call in the expression leads to a rule of the grammar. -/
def Binds (g : Grammar) (e : Expr) : Prop := ∀ r ∈ e.references, ∃ id, r.id = some id ∧ id < g.size

/-- Every call in a rule of the grammar leads to a rule of the grammar. -/
def Resolved (g : Grammar) : Prop := ∀ d ∈ g.rules, ∀ e, d.body = .tree e → g.Binds e

/-- A number that stands for a body is that of a rule. -/
theorem lt_size_of_body {g : Grammar} {id : RuleId} {body : Body} (h : g.body? id = some body) :
    id < g.size := by
  obtain ⟨d, hd, -⟩ := Option.map_eq_some_iff.mp h
  exact (List.getElem?_eq_some_iff.mp hd).1

theorem Resolved.binds_of_body {g : Grammar} (h : g.Resolved) {id : RuleId} {e : Expr}
    (hid : g.body? id = some (.tree e)) : g.Binds e := by
  obtain ⟨d, hd, hbody⟩ := Option.map_eq_some_iff.mp hid
  exact h d (List.mem_of_getElem? hd) e hbody

theorem AllTrees.body_ne_native {g : Grammar} (h : g.AllTrees) {id : RuleId}
    {start : State → Script} : g.body? id ≠ some (.native start) := by
  intro hid
  obtain ⟨d, hd, hbody⟩ := Option.map_eq_some_iff.mp hid
  have htree := h d (List.mem_of_getElem? hd)
  simp [hbody, Body.tree?] at htree

section Binds

variable {g : Grammar} {a b : Expr} {r : Reference}

@[simp]
theorem binds_seq : g.Binds (.seq a b) ↔ g.Binds a ∧ g.Binds b := by
  have h : (Expr.seq a b).references = a.references ++ b.references := List.filterMap_append
  rw [Binds, h, List.forall_mem_append]
  rfl

@[simp]
theorem binds_alt : g.Binds (.alt a b) ↔ g.Binds a ∧ g.Binds b := by
  have h : (Expr.alt a b).references = a.references ++ b.references := List.filterMap_append
  rw [Binds, h, List.forall_mem_append]
  rfl

@[simp]
theorem binds_opt : g.Binds (.opt a) ↔ g.Binds a := Iff.rfl

@[simp]
theorem binds_star : g.Binds (.star a) ↔ g.Binds a := Iff.rfl

@[simp]
theorem binds_plus : g.Binds (.plus a) ↔ g.Binds a := Iff.rfl

@[simp]
theorem binds_ahead : g.Binds (.ahead a) ↔ g.Binds a := Iff.rfl

@[simp]
theorem binds_notAhead : g.Binds (.notAhead a) ↔ g.Binds a := Iff.rfl

@[simp]
theorem binds_capture : g.Binds (.capture a) ↔ g.Binds a := Iff.rfl

@[simp]
theorem binds_call : g.Binds (.call r) ↔ ∃ id, r.id = some id ∧ id < g.size := by
  have h : (Expr.call r).references = [r] := rfl
  rw [Binds, h, List.forall_mem_singleton]

end Binds

end Peg.Grammar
