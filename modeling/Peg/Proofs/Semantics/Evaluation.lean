import Peg.Proofs.Capture
import Peg.Proofs.Matching.Endless
import Peg.Proofs.Semantics.Adequacy

/-!
# Evaluation is derivation

For a resolved grammar of trees, the evaluation of an expression and its derivations come to the same
(`Peg.Grammar.evaluate_iff_derives`): there is a result exactly if there is a derivation, and the
result is what the verdict says, whatever the log, the captures and the events were before. The
captures that are added are those of the derivation. Their ranges lie between the offset where the
expression began and the one where it ended (`Peg.Derives.ranges`), and so each capture says which
range it is as long as the input is not too long for captures at all.
-/

namespace Peg

/-- The offset `q` is reached from `p` by reading on, and the ranges lie in between. -/
def Within (size p q : Nat) (cs : List (Nat × Nat)) : Prop :=
  (p ≤ q ∧ q ≤ max size p) ∧ ∀ r ∈ cs, p ≤ r.1 ∧ r.1 ≤ r.2 ∧ r.2 ≤ q

theorem Within.append {size p q r : Nat} {cs ds : List (Nat × Nat)} (h : Within size p q cs)
    (h' : Within size q r ds) : Within size p r (cs ++ ds) := by
  obtain ⟨hpq, hcs⟩ := h
  obtain ⟨hqr, hds⟩ := h'
  refine ⟨by omega, fun c hc => ?_⟩
  rcases List.mem_append.mp hc with hc | hc
  · have := hcs c hc
    omega
  · have := hds c hc
    omega

/-- **What a match captures lies within it**, and the match goes forwards and not past the end of
the input, if there is nothing but trees. -/
theorem Derives.ranges {rules : RuleId → Option Meaning} {input : Array Char} {e : Expr}
    {p q : Nat} {cs : List (Nat × Nat)} (hr : ∀ id f, rules id ≠ some (.primitive f))
    (h : Derives rules input e p (.matches q cs)) : Within input.size p q cs := by
  generalize hv : Verdict.matches q cs = v at h
  induction h generalizing q cs with
  | empty => cases hv; simp [Within]
  | @text_matches x p h =>
    cases hv
    have hle : x.toList.length ≤ input.size - p := by simpa using h.length_le
    rw [String.length_toList] at hle
    exact ⟨by omega, by simp⟩
  | char_matches h =>
    cases hv
    have := (Array.getElem?_eq_some_iff.mp h).1
    exact ⟨by omega, by simp⟩
  | range_matches h =>
    cases hv
    have := (Array.getElem?_eq_some_iff.mp h).1
    exact ⟨by omega, by simp⟩
  | any_matches h =>
    cases hv
    exact ⟨by omega, by simp⟩
  | end_matches h => cases hv; simp [Within]
  | seq_matches _ _ iha ihb =>
    cases hv
    exact (iha rfl).append (ihb rfl)
  | alt_first _ ih => exact ih hv
  | alt_second _ _ _ ih => exact ih hv
  | opt_some _ ih => exact ih hv
  | opt_none => cases hv; simp [Within]
  | star_ends => cases hv; simp [Within]
  | star_still _ ih => exact ih hv
  | star_more _ _ _ iha ihb =>
    cases hv
    exact (iha rfl).append (ihb rfl)
  | plus_matches _ _ iha ihb =>
    cases hv
    exact (iha rfl).append (ihb rfl)
  | ahead_matches => cases hv; simp [Within]
  | notAhead_matches => cases hv; simp [Within]
  | call_tree _ _ _ ih => exact ih hv
  | call_primitive _ hid => exact absurd hid (hr _ _)
  | capture_matches _ ih =>
    cases hv
    obtain ⟨hpq, hcs⟩ := ih rfl
    refine ⟨hpq, fun r hr => ?_⟩
    rcases List.mem_append.mp hr with hr | hr
    · exact hcs r hr
    · obtain rfl := List.mem_singleton.mp hr
      exact ⟨Nat.le_refl _, hpq.1, Nat.le_refl _⟩
  | _ => cases hv

namespace Grammar

variable {g : Grammar}

theorem trees_ne_primitive (g : Grammar) (id : RuleId) (f : Array Char → Nat → Verdict) :
    g.trees id ≠ some (.primitive f) := by
  rcases hid : g.body? id with _ | ⟨e | start⟩ <;> simp [trees, hid, Body.tree?]

/-- A rule in the table of trees is a tree. -/
theorem body_of_trees {id : RuleId} {e : Expr} (h : g.trees id = some (.tree e)) :
    g.body? id = some (.tree e) := by
  rcases hid : g.body? id with _ | ⟨a | start⟩
  · simp [trees, hid] at h
  · obtain rfl : a = e := by simpa [trees, hid, Body.tree?] using h
    rfl
  · simp [trees, hid, Body.tree?] at h

/-- The trees of a grammar of trees are what its rules mean. -/
theorem AllTrees.means (h : g.AllTrees) : g.Means g.trees where
  tree hid := by simp [trees, hid, Body.tree?]
  native hid := absurd hid h.body_ne_native
  missing hid := by simp [trees, hid]

/-- **Evaluation is derivation.** In a resolved grammar of trees, an expression without loose ends is
evaluated with a result exactly if a verdict can be derived, from whatever state on; every verdict
that can be derived describes the result; and as long as offsets fit into captures, the captures
added are those of the ranges in the verdict. -/
theorem evaluate_iff_derives (hg : g.AllTrees) (hr : g.Resolved) {e : Expr} (he : g.Binds e)
    (s : State) :
    ((∃ b t, g.evaluate (.expr e) s = some (b, t)) ↔ ∃ v, Derives g.trees s.input e s.offset v) ∧
      ∀ v, Derives g.trees s.input e s.offset v →
        ∃ b t, g.evaluate (.expr e) s = some (b, t) ∧ v.Describes s b t ∧
          (s.offset ≤ s.input.size → s.input.size ≤ Capture.maxOffset →
            ∀ stop ranges, v = .matches stop ranges →
              ranges.map (fun r => (Capture.ofRange r.1 r.2).range?) = ranges.map some) := by
  have hderive (v : Verdict) (hv : Derives g.trees s.input e s.offset v) :
      ∃ b t, g.evaluate (.expr e) s = some (b, t) ∧ v.Describes s b t := by
    obtain ⟨b, t, hrun, hd⟩ := runs_of_derives hg.means hv
    exact ⟨b, t, hg.evaluate_iff_runs.mpr hrun, hd⟩
  refine ⟨⟨?_, ?_⟩, fun v hv => ?_⟩
  · rintro ⟨b, t, h⟩
    obtain ⟨v, hv, -⟩ := derives_of_runs hg.means hr he (hg.evaluate_iff_runs.mp h)
    exact ⟨v, hv⟩
  · rintro ⟨v, hv⟩
    obtain ⟨b, t, h, -⟩ := hderive v hv
    exact ⟨b, t, h⟩
  · obtain ⟨b, t, h, hd⟩ := hderive v hv
    refine ⟨b, t, h, hd, ?_⟩
    rintro ho hs stop ranges rfl
    -- the ranges lie within the input, so their offsets fit
    obtain ⟨⟨hle, hmax⟩, hall⟩ := Derives.ranges g.trees_ne_primitive hv
    refine List.map_congr_left fun r hr => Capture.range?_ofRange ?_ ?_
    · have := hall r hr
      omega
    · have := hall r hr
      omega

/-- `run <- 'a' run / ε`. -/
def letters : Grammar where
  rules := [⟨"run", .tree (.alt (.seq (.char 'a') (.call { name := "run", id := some 0 })) .empty)⟩]
  root := some 0

theorem derives_letters :
    Derives letters.trees #['a', 'b'] (.capture (.call { name := "run", id := some 0 })) 0
      (.matches 1 [(0, 1)]) :=
  .capture_matches (.call_tree rfl rfl (.alt_first (.seq_matches (.char_matches rfl)
    (.call_tree rfl rfl (.alt_second (.seq_first_fails (.char_fails (by decide))) .empty)))))

theorem evaluate_iff_derives_letters :
    letters.AllTrees ∧ letters.Resolved ∧
      letters.Binds (.capture (.call { name := "run", id := some 0 })) ∧
      ∃ b t, letters.evaluate (.expr (.capture (.call { name := "run", id := some 0 })))
          { reader := { input := #['a', 'b'] }, captures := #[Capture.ofRange 0 2] } =
            some (b, t) ∧
        (Verdict.matches 1 [(0, 1)]).Describes
          { reader := { input := #['a', 'b'] }, captures := #[Capture.ofRange 0 2] } b t := by
  have hg : letters.AllTrees := by simp [AllTrees, letters, Body.tree?]
  have hr : letters.Resolved := by simp [Resolved, letters, size, Binds, Expr.references, Expr.nodes]
  have he : letters.Binds (.capture (.call { name := "run", id := some 0 })) := by
    simp [letters, size]
  obtain ⟨b, t, heval, hd, -⟩ :=
    (evaluate_iff_derives hg hr he
      { reader := { input := #['a', 'b'] }, captures := #[Capture.ofRange 0 2] }).2 _ derives_letters
  exact ⟨hg, hr, he, b, t, heval, hd⟩

end Grammar

end Peg
