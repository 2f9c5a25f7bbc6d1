import Mathlib.Data.List.MinMax
import Peg.Diagnostic

/-!
# The deepest diagnostic

The diagnostic that `Peg.deepest` picks is the one furthest into the input, and the first of those if
there are several (`Peg.deepest_eq_some_iff`); only of no diagnostics at all there is none
(`Peg.deepest_eq_none_iff`).
-/

namespace Peg

variable {ds : List Diagnostic} {d : Diagnostic}

/-- What is picked while walking along the list is what maximises the position. -/
theorem deepest_eq_argmax (ds : List Diagnostic) : deepest ds = ds.argmax Diagnostic.position := by
  have hfurther :
      deepest.further = List.argAux fun d best : Diagnostic => best.position < d.position := by
    funext best d
    cases best with
    | none => rfl
    | some best =>
      by_cases h : best.position < d.position
      · simp [deepest.further, List.argAux, h, Nat.not_le.mpr h]
      · simp [deepest.further, List.argAux, h, Nat.le_of_not_lt h]
  rw [deepest, hfurther, List.argmax]

@[simp]
theorem deepest_eq_none_iff : deepest ds = none ↔ ds = [] := by
  rw [deepest_eq_argmax, List.argmax_eq_none]

/-- **The deepest diagnostic is the first one of greatest position**: those before it lie strictly less
deep, and none behind it lies deeper. -/
theorem deepest_eq_some_iff : deepest ds = some d ↔
    ∃ before after, ds = before ++ d :: after ∧ (∀ x ∈ before, x.position < d.position) ∧
      ∀ x ∈ after, x.position ≤ d.position := by
  rw [deepest_eq_argmax, List.argmax_eq_some_iff]
  constructor
  · rintro ⟨hd, hle, hfirst⟩
    obtain ⟨before, after, rfl, hnot⟩ := List.eq_append_cons_of_mem hd
    refine ⟨before, after, rfl, fun x hx => ?_, fun x hx => hle x (by simp [hx])⟩
    -- a diagnostic in front of it that is as deep would have been picked instead
    by_contra hge
    have hindex := hfirst x (by simp [hx]) (Nat.le_of_not_lt hge)
    rw [List.idxOf_append_of_notMem hnot, List.idxOf_append_of_mem hx] at hindex
    have hlt := List.idxOf_lt_length_of_mem hx
    omega
  · rintro ⟨before, after, rfl, hbefore, hafter⟩
    have hnot {x : Diagnostic} (hx : d.position ≤ x.position) : x ∉ before :=
      fun hmem => absurd (hbefore x hmem) (Nat.not_lt.mpr hx)
    refine ⟨by simp, fun x hx => ?_, fun x _ hle => ?_⟩
    · rcases List.mem_append.mp hx with hx | hx
      · exact Nat.le_of_lt (hbefore x hx)
      · rcases List.mem_cons.mp hx with rfl | hx
        · exact Nat.le_refl _
        · exact hafter x hx
    · rw [List.idxOf_append_of_notMem (hnot (Nat.le_refl _)), List.idxOf_append_of_notMem (hnot hle),
        List.idxOf_cons_self]
      exact Nat.add_le_add_left (Nat.zero_le _) _

/-- Nothing lies deeper than the deepest diagnostic. -/
theorem exists_deepest (h : d ∈ ds) : ∃ best, deepest ds = some best ∧ d.position ≤ best.position := by
  rcases hbest : deepest ds with _ | best
  · obtain rfl := deepest_eq_none_iff.mp hbest
    cases h
  · rw [deepest_eq_argmax] at hbest
    exact ⟨best, rfl, List.le_of_mem_argmax h hbest⟩

end Peg
