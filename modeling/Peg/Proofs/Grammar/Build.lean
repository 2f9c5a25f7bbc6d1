import Mathlib.Data.List.Nodup
import Peg.Grammar.Build
import Peg.Proofs.Grammar.Basic

/-!
# What a grammar that was built has passed

Whoever got a grammar from `Peg.Draft.build` knows that its rules have different names, that every
call in it leads to a rule, and that neither of the two analyses found anything
(`Peg.Draft.checked_of_build`).
-/

namespace Peg

namespace Expr

variable (find : String → Option RuleId)

theorem nodes_bind (e : Expr) : (e.bind find).nodes = e.nodes.map (·.bind find) := by
  induction e <;> simp [bind, nodes, *]

/-- Binding leaves the references where they are and leads each to the rule of its name. -/
theorem references_bind (e : Expr) :
    (e.bind find).references = e.references.map fun r => { r with id := find r.name } := by
  rw [references, references, nodes_bind, List.filterMap_map, List.map_filterMap]
  refine List.filterMap_congr fun a _ => ?_
  cases a <;> rfl

end Expr

/-- Where no name stands twice, they are all different. -/
theorem nodup_of_firstRepeated? {names : List String} (h : firstRepeated? names = none) :
    names.Nodup := by
  -- what follows is also different from the names seen before
  suffices ∀ seen, firstRepeated?.go seen names = none →
      names.Nodup ∧ ∀ name ∈ names, name ∉ seen from (this [] h).1
  clear h
  intro seen h
  induction names generalizing seen with
  | nil => simp
  | cons name names ih =>
    rw [firstRepeated?.go] at h
    split at h
    · simp at h
    · rename_i hnew
      obtain ⟨hnodup, hseen⟩ := ih (name :: seen) h
      refine ⟨List.nodup_cons.mpr ⟨fun hmem => ?_, hnodup⟩, ?_⟩
      · exact hseen name hmem List.mem_cons_self
      · refine List.forall_mem_cons.mpr ⟨hnew, fun n hn hs => ?_⟩
        exact hseen n hn (List.mem_cons_of_mem _ hs)

/-- **What the checks establish.** -/
structure Grammar.Checked (g : Grammar) : Prop where
  /-- The rules have different names. -/
  names : (g.rules.map (·.name)).Nodup
  /-- Every call leads to a rule. -/
  resolved : g.Resolved
  /-- Nothing that may read nothing is repeated. -/
  repetitions : g.nullableRepetition? = none
  /-- The search found no left recursion. -/
  leftCalls : g.leftRecursion? = none

namespace Grammar

variable {g : Grammar}

theorem Checked.nameOf_inj (h : g.Checked) {i j : RuleId} (hi : i < g.size) (hj : j < g.size)
    (heq : g.nameOf i = g.nameOf j) : i = j := by
  have hi' : i < (g.rules.map (·.name)).length := by rwa [List.length_map]
  have hj' : j < (g.rules.map (·.name)).length := by rwa [List.length_map]
  have hlti : i < g.rules.length := hi
  have hltj : j < g.rules.length := hj
  have hnames : (g.rules.map (·.name))[i] = (g.rules.map (·.name))[j] := by
    simpa [nameOf, name?, hlti, hltj] using heq
  exact (List.Nodup.getElem_inj_iff h.names).mp hnames

/-- The checks of both analyses let the grammar through unchanged. -/
theorem check_eq_ok {g' : Grammar} (h : g.check = .ok g') :
    g' = g ∧ g.nullableRepetition? = none ∧ g.leftRecursion? = none := by
  rw [check] at h
  rcases hn : g.nullableRepetition? with _ | d <;> rw [hn] at h
  · rcases hl : g.leftRecursion? with _ | cycle <;> rw [hl] at h
    · exact ⟨(Except.ok.inj h).symm, rfl, rfl⟩
    · simp at h
  · simp at h

end Grammar

namespace Draft

variable {d : Draft}

theorem lt_of_find? {name : String} {id : RuleId} (h : d.find? name = some id) :
    id < d.rules.length :=
  (List.findIdx?_eq_some_iff_getElem.mp h).1

/-- Where no reference is to a rule that is not there, binding leads each to a rule. -/
theorem resolved_bound (h : d.firstUndefined? = none) (root : Option RuleId) :
    Grammar.Resolved { rules := d.bound, root } := by
  intro rule hrule e hbody r hr
  obtain ⟨rule', hrule', rfl⟩ := List.mem_map.mp hrule
  rcases hb : rule'.body with e' | start <;> simp only [hb, Body.bind] at hbody
  · obtain rfl : e'.bind d.find? = e := by simpa using hbody
    rw [Expr.references_bind] at hr
    obtain ⟨r', hr', rfl⟩ := List.mem_map.mp hr
    -- its name was not reported, so there is a rule of this name
    have hnone := List.findSome?_eq_none_iff.mp h rule' hrule'
    rw [Option.map_eq_none_iff, List.find?_eq_none] at hnone
    have hfound := hnone r' (by rw [hb]; exact hr')
    obtain ⟨id, hid⟩ : ∃ id, d.find? r'.name = some id := by
      simpa [Option.isNone_iff_eq_none, Option.ne_none_iff_exists'] using hfound
    exact ⟨id, hid, by simpa [Grammar.size, bound] using lt_of_find? hid⟩
  · simp at hbody

/-- The steps of building, one after the other. -/
theorem build_eq (d : Draft) :
    d.build =
      if d.rules.isEmpty then .error .noRules
      else match firstRepeated? (d.rules.map (·.name)) with
        | some name => .error (.duplicate name)
        | none =>
          match d.firstUndefined? with
          | some (name, caller) => .error (.undefined name caller)
          | none => d.rootId.bind fun root => Grammar.check { rules := d.bound, root := some root } := by
  unfold build
  by_cases hempty : d.rules.isEmpty
  · rw [if_pos hempty, if_pos hempty]
    rfl
  · rw [if_neg hempty, if_neg hempty]
    rcases hrep : firstRepeated? (d.rules.map (·.name)) with _ | name
    · rcases hund : d.firstUndefined? with _ | ⟨name, caller⟩ <;> simp only [hrep] <;> rfl
    · simp only [hrep]
      rfl

/-- **A grammar that was built has passed the checks.** -/
theorem checked_of_build {g : Grammar} (h : d.build = .ok g) : g.Checked := by
  rw [build_eq] at h
  split at h
  · simp at h
  · split at h
    · simp at h
    · rename_i hrep
      split at h
      · simp at h
      · rename_i hund
        rcases hroot : d.rootId with defect | root <;> rw [hroot] at h
        · simp [Except.bind] at h
        · obtain ⟨rfl, hnull, hleft⟩ := Grammar.check_eq_ok h
          refine ⟨?_, resolved_bound hund _, hnull, hleft⟩
          simpa [bound, Function.comp_def] using nodup_of_firstRepeated? hrep

end Draft

end Peg
