import Peg.Grammar.Nullable
import Peg.Proofs.Grammar.Basic

/-!
# The verdicts of the nullable analysis

A sweep judges the rules one after the other and reads verdicts that it has changed itself. What it
does is nevertheless easy to compare with judging all rules at once (`Peg.Grammar.revise`), since more
nullable rules make more rules nullable: no rule becomes nullable that its body does not make so, none
that is not so by all verdicts of which a revision makes no more, and a sweep that changes nothing has
confirmed every verdict (`Peg.Sweep.Advances`, `Peg.Grammar.below_revise_of_sweep`).

Every sweep that changes something makes another rule nullable. So the sweeps that
`Peg.Grammar.nullable` allows itself are enough, and the verdicts it ends with are the least that
confirm themselves (`Peg.Grammar.nullable_least_fixpoint`).
-/

namespace Peg

/-- Whatever is nullable by the verdicts `v` is so by the verdicts `w`. -/
def Below (v w : List Bool) : Prop := ∀ i, v.getD i false = true → w.getD i false = true

namespace Below

variable {u v w : List Bool}

theorem trans (h : Below u v) (h' : Below v w) : Below u w := fun i hi => h' i (h i hi)

/-- The verdicts that take no rule to be nullable are below all others. -/
theorem replicate_false (n : Nat) (w : List Bool) : Below (List.replicate n false) w := by
  intro i hi
  rw [List.getD_eq_getElem?_getD, List.getElem?_replicate] at hi
  split at hi <;> simp at hi

theorem cons_iff {a b : Bool} : Below (a :: v) (b :: w) ↔ (a = true → b = true) ∧ Below v w := by
  constructor
  · intro h
    exact ⟨h 0, fun i => h (i + 1)⟩
  · rintro ⟨hab, hvw⟩ (_ | i)
    · exact hab
    · exact hvw i

/-- Of two lists of verdicts of which one is below the other, the greater one has more nullable
rules. -/
theorem count_le (hl : v.length = w.length) (h : Below v w) : v.count true ≤ w.count true := by
  induction v generalizing w with
  | nil => simp
  | cons a v ih =>
    obtain _ | ⟨b, w⟩ := w
    · simp at hl
    · obtain ⟨hab, hvw⟩ := cons_iff.mp h
      have hle := ih (by simpa using hl) hvw
      cases a with
      | false =>
        rw [List.count_cons_of_ne (by decide)]
        exact Nat.le_trans hle List.count_le_count_cons
      | true => simpa [hab rfl] using hle

theorem count_lt (hl : v.length = w.length) (h : Below v w) (hne : w ≠ v) :
    v.count true < w.count true := by
  induction v generalizing w with
  | nil => exact absurd (List.length_eq_zero_iff.mp hl.symm) hne
  | cons a v ih =>
    obtain _ | ⟨b, w⟩ := w
    · simp at hl
    · obtain ⟨hab, hvw⟩ := cons_iff.mp h
      have hl' : v.length = w.length := by simpa using hl
      cases a with
      | false =>
        cases b with
        | false => simpa using ih hl' hvw (by simpa using hne)
        | true => simpa using Nat.lt_succ_of_le (count_le hl' hvw)
      | true =>
        obtain rfl := hab rfl
        simpa using ih hl' hvw (by simpa using hne)

end Below

/-- **More nullable rules make more expressions nullable.** -/
theorem Expr.nullable_mono {v w : List Bool} (h : Below v w) (ends : Bool) (e : Expr) :
    e.nullable v ends = true → e.nullable w ends = true := by
  induction e with
  | seq a b iha ihb =>
    simp only [nullable, Bool.and_eq_true]
    exact And.imp iha ihb
  | alt a b iha ihb =>
    simp only [nullable, Bool.or_eq_true]
    exact Or.imp iha ihb
  | plus a ih => exact ih
  | capture a ih => exact ih
  | call r =>
    simp only [nullable, Option.any_eq_true]
    exact fun ⟨id, hid, hv⟩ => ⟨id, hid, h id hv⟩
  | _ => exact fun h => h

theorem Body.nullable_mono {v w : List Bool} (h : Below v w) (ends : Bool) (b : Body) :
    b.nullable v ends = true → b.nullable w ends = true := by
  cases b with
  | tree e => exact e.nullable_mono h ends
  | native start => exact fun h => h

namespace Grammar

variable (g : Grammar) (ends : Bool)

/-- The verdicts on all bodies at once, by the given verdicts on the rules. -/
def revise (g : Grammar) (verdicts : List Bool) (ends : Bool := false) : List Bool :=
  g.rules.map (·.body.nullable verdicts ends)

@[simp]
theorem length_revise (v : List Bool) : (g.revise v ends).length = g.size := by
  simp [revise, size]

theorem getD_revise (v : List Bool) {id : RuleId} {b : Body} (h : g.body? id = some b) :
    (g.revise v ends).getD id false = b.nullable v ends := by
  obtain ⟨d, hd, rfl⟩ := Option.map_eq_some_iff.mp h
  simp [revise, hd]

theorem getD_revise_eq_true_iff {v : List Bool} {id : RuleId} :
    (g.revise v ends).getD id false = true ↔
      ∃ b, g.body? id = some b ∧ b.nullable v ends = true := by
  rcases hb : g.body? id with _ | b
  · have hd : g.rules[id]? = none := by simpa [body?] using hb
    simp [revise, hd]
  · rw [g.getD_revise ends v hb]
    simp

theorem revise_mono {v w : List Bool} (h : Below v w) :
    Below (g.revise v ends) (g.revise w ends) := by
  intro id hid
  obtain ⟨b, hb, hnull⟩ := (g.getD_revise_eq_true_iff ends).mp hid
  exact (g.getD_revise_eq_true_iff ends).mpr ⟨b, hb, b.nullable_mono h ends hnull⟩

end Grammar

/-! ### Sweeps -/

namespace Sweep

/-- **What judging rules does to the verdicts**: it takes no verdict back, and the rules that become
nullable are made so by their bodies and are nullable by all verdicts of which a revision makes no
more. If something has changed, there are more nullable rules than before. -/
structure Advances (g : Grammar) (ends : Bool) (s s' : Sweep) : Prop where
  length : s'.verdicts.length = s.verdicts.length
  grows : Below s.verdicts s'.verdicts
  justified : Below s.verdicts (g.revise s.verdicts ends) →
    Below s'.verdicts (g.revise s'.verdicts ends)
  least : ∀ w, Below (g.revise w ends) w → Below s.verdicts w → Below s'.verdicts w
  counts : s'.changed = true → s.changed = true ∨ s.verdicts.count true < s'.verdicts.count true

variable {g : Grammar} {ends : Bool} {s s' s'' : Sweep}

namespace Advances

theorem refl (s : Sweep) : Advances g ends s s := ⟨rfl, fun _ h => h, id, fun _ _ h => h, .inl⟩

theorem trans (h : Advances g ends s s') (h' : Advances g ends s' s'') : Advances g ends s s'' where
  length := h'.length.trans h.length
  grows := h.grows.trans h'.grows
  justified hs := h'.justified (h.justified hs)
  least w hw hs := h'.least w hw (h.least w hw hs)
  counts hc := by
    have hle := Below.count_le h.length.symm h.grows
    have hle' := Below.count_le h'.length.symm h'.grows
    rcases h'.counts hc with hc' | hlt
    · exact (h.counts hc').imp_right fun hlt => Nat.lt_of_lt_of_le hlt hle'
    · exact .inr (Nat.lt_of_le_of_lt hle hlt)

end Advances

/-- A verdict that was not given before is so afterwards if it is the one that is set. -/
theorem getD_set_eq_true_iff {v : List Bool} {id i : RuleId} (hid : id < v.length) :
    (v.set id true).getD i false = true ↔ i = id ∨ v.getD i false = true := by
  rw [List.getD_eq_getElem?_getD, List.getD_eq_getElem?_getD, List.getElem?_set]
  by_cases hi : id = i
  · subst hi
    simp [hid]
  · simp [hi, Ne.symm hi]

theorem advances_judge {id : RuleId} {b : Body} (hb : g.body? id = some b)
    (hid : id < s.verdicts.length) : Advances g ends s (s.judge id b ends) := by
  rw [judge]
  split
  · exact .refl s
  · rename_i hnew
    split
    · rename_i hnull
      have hset (i : RuleId) : (s.verdicts.set id true).getD i false = true ↔
          i = id ∨ s.verdicts.getD i false = true := getD_set_eq_true_iff hid
      have hgrows : Below s.verdicts (s.verdicts.set id true) := fun i hi => (hset i).mpr (.inr hi)
      refine ⟨List.length_set, hgrows, fun hs i hi => ?_, fun w hw hs i hi => ?_, fun _ => ?_⟩
      · -- the body makes the rule nullable, and does so by more verdicts too
        rcases (hset i).mp hi with rfl | hi
        · rw [g.getD_revise ends _ hb]
          exact b.nullable_mono hgrows ends hnull
        · exact g.revise_mono ends hgrows i (hs i hi)
      · rcases (hset i).mp hi with rfl | hi
        · refine hw i ?_
          rw [g.getD_revise ends _ hb]
          exact b.nullable_mono hs ends hnull
        · exact hs i hi
      · refine .inr (hgrows.count_lt List.length_set.symm fun heq => hnew ?_)
        rw [← heq]
        exact (hset id).mpr (.inl rfl)
    · exact .refl s

/-- If nothing has changed, the rules are as nullable as their bodies are. -/
theorem judge_of_not_changed {id : RuleId} {b : Body} (h : (s.judge id b ends).changed = false) :
    s.judge id b ends = s ∧
      (b.nullable s.verdicts ends = true → s.verdicts.getD id false = true) := by
  rw [judge] at h ⊢
  by_cases hold : s.verdicts.getD id false = true
  · rw [if_pos hold]
    exact ⟨rfl, fun _ => hold⟩
  · rw [if_neg hold] at h ⊢
    by_cases hnull : b.nullable s.verdicts ends = true
    · simp [hnull] at h
    · rw [if_neg hnull]
      exact ⟨rfl, fun h => absurd h hnull⟩

/-- The rules that are judged one after the other. -/
abbrev judgeAll (ends : Bool) (rules : List (Definition × RuleId)) (s : Sweep) : Sweep :=
  rules.foldl (fun s r => s.judge r.2 r.1.body ends) s

theorem advances_judgeAll {rules : List (Definition × RuleId)}
    (h : ∀ r ∈ rules, g.body? r.2 = some r.1.body) (hl : s.verdicts.length = g.size) :
    Advances g ends s (judgeAll ends rules s) := by
  induction rules generalizing s with
  | nil => exact .refl s
  | cons r rules ih =>
    obtain ⟨hr, hrules⟩ := List.forall_mem_cons.mp h
    have hfirst : Advances g ends s (s.judge r.2 r.1.body ends) :=
      advances_judge hr (hl ▸ Grammar.lt_size_of_body hr)
    exact hfirst.trans (ih hrules (hfirst.length.trans hl))

theorem judgeAll_of_not_changed {rules : List (Definition × RuleId)}
    (h : (judgeAll ends rules s).changed = false) :
    judgeAll ends rules s = s ∧ ∀ r ∈ rules,
      r.1.body.nullable s.verdicts ends = true → s.verdicts.getD r.2 false = true := by
  induction rules generalizing s with
  | nil => exact ⟨rfl, by simp⟩
  | cons r rules ih =>
    rw [judgeAll, List.foldl_cons] at h ⊢
    obtain ⟨hrest, hall⟩ := ih h
    -- the rest has changed nothing, so neither has the first rule
    have hfirst : (s.judge r.2 r.1.body ends).changed = false := by rw [← hrest]; exact h
    obtain ⟨heq, hjudge⟩ := judge_of_not_changed hfirst
    rw [heq] at hrest hall
    rw [heq]
    exact ⟨hrest, List.forall_mem_cons.mpr ⟨hjudge, hall⟩⟩

end Sweep

namespace Grammar

variable (g : Grammar) (ends : Bool)

theorem mem_zipIdx_rules {r : Definition × RuleId} :
    r ∈ g.rules.zipIdx ↔ g.rules[r.2]? = some r.1 := List.mem_zipIdx_iff_getElem?

theorem advances_sweep {v : List Bool} (hl : v.length = g.size) :
    Sweep.Advances g ends { verdicts := v } (g.sweep v ends) := by
  refine Sweep.advances_judgeAll (fun r hr => ?_) hl
  rw [body?, g.mem_zipIdx_rules.mp hr]
  rfl

/-- **A sweep that changes nothing has confirmed every verdict.** -/
theorem below_revise_of_sweep {v : List Bool} (h : (g.sweep v ends).changed = false) :
    (g.sweep v ends).verdicts = v ∧ Below (g.revise v ends) v := by
  obtain ⟨heq, hall⟩ := Sweep.judgeAll_of_not_changed h
  refine ⟨congrArg Sweep.verdicts heq, fun id hid => ?_⟩
  obtain ⟨b, hb, hnull⟩ := (g.getD_revise_eq_true_iff ends).mp hid
  obtain ⟨d, hd, rfl⟩ := Option.map_eq_some_iff.mp hb
  exact hall (d, id) (g.mem_zipIdx_rules.mpr hd) hnull

/-- Verdicts that are each below the other are the same. -/
theorem eq_of_below {v w : List Bool} (hl : v.length = w.length) (h : Below v w) (h' : Below w v) :
    v = w := by
  refine List.ext_getElem hl fun i hi hi' => ?_
  have hv := h i
  have hw := h' i
  simp only [List.getD_eq_getElem?_getD, List.getElem?_eq_getElem hi,
    List.getElem?_eq_getElem hi', Option.getD_some] at hv hw
  exact Bool.eq_iff_iff.mpr ⟨hv, hw⟩

/-- **Sweeps settle**, on verdicts that confirm themselves, provided the first ones are justified and
there is a sweep for every rule that is not nullable yet, and one more. -/
theorem exists_settle? {v : List Bool} {rounds : Nat} (hl : v.length = g.size)
    (hv : Below v (g.revise v ends)) (hr : g.size < rounds + v.count true) :
    ∃ w, g.settle? rounds v ends = some w ∧ g.revise w ends = w ∧
      ∀ u, Below (g.revise u ends) u → Below v u → Below w u := by
  induction rounds generalizing v with
  | zero =>
    have hle : v.count true ≤ v.length := List.count_le_length
    omega
  | succ rounds ih =>
    have hadv := g.advances_sweep ends hl
    rw [settle?]
    cases hc : (g.sweep v ends).changed with
    | false =>
      obtain ⟨heq, hrev⟩ := g.below_revise_of_sweep ends hc
      refine ⟨v, by simp [heq], ?_, fun u _ hu => hu⟩
      exact eq_of_below (by rw [length_revise, hl]) hrev hv
    | true =>
      -- the sweep has made another rule nullable
      have hlt : v.count true < (g.sweep v ends).verdicts.count true :=
        (hadv.counts hc).resolve_left (by simp)
      obtain ⟨w, hw, hfix, hleast⟩ := ih (hadv.length.trans hl) (hadv.justified hv) (by omega)
      exact ⟨w, by simpa using hw, hfix, fun u hu hvu => hleast u hu (hadv.least u hu hvu)⟩

theorem settle?_nullable :
    g.settle? (g.size + 1) (List.replicate g.size false) ends = some (g.nullable ends) ∧
      g.revise (g.nullable ends) ends = g.nullable ends ∧
      ∀ u, Below (g.revise u ends) u → Below (g.nullable ends) u := by
  obtain ⟨w, hw, hfix, hleast⟩ : ∃ w,
      g.settle? (g.size + 1) (List.replicate g.size false) ends = some w ∧ g.revise w ends = w ∧
        ∀ u, Below (g.revise u ends) u → Below (List.replicate g.size false) u → Below w u :=
    g.exists_settle? ends List.length_replicate (Below.replicate_false _ _) (by omega)
  have hnull : g.nullable ends = w := by rw [nullable, hw, Option.getD_some]
  rw [hnull]
  exact ⟨hw, hfix, fun u hu => hleast u hu (Below.replicate_false _ _)⟩

/-- **The verdicts on the rules confirm themselves.** -/
theorem revise_nullable : g.revise (g.nullable ends) ends = g.nullable ends :=
  (g.settle?_nullable ends).2.1

@[simp]
theorem length_nullable : (g.nullable ends).length = g.size := by
  rw [← g.revise_nullable ends, length_revise]

/-- The verdict on a rule is that on its body. -/
theorem getD_nullable {id : RuleId} {b : Body} (h : g.body? id = some b) :
    (g.nullable ends).getD id false = b.nullable (g.nullable ends) ends := by
  have hrevise := g.getD_revise ends (g.nullable ends) h
  rwa [g.revise_nullable ends] at hrevise

/-- **The verdicts on the rules are the least**: they are below all verdicts of which a revision makes
no more. -/
theorem nullable_below {w : List Bool} (hw : Below (g.revise w ends) w) :
    Below (g.nullable ends) w :=
  (g.settle?_nullable ends).2.2 w hw

/-- A list of verdicts says that a rule is nullable. -/
theorem getElem?_eq_some_true_iff {v : List Bool} {id : RuleId} :
    v[id]? = some true ↔ v.getD id false = true := by
  rw [List.getD_eq_getElem?_getD]
  rcases v[id]? with _ | b <;> simp

/-- There is a verdict on each rule, and it is that on its body. -/
theorem getElem?_nullable {id : RuleId} {b : Body} (h : g.body? id = some b) :
    (g.nullable ends)[id]? = some (b.nullable (g.nullable ends) ends) := by
  have hlt : id < (g.nullable ends).length := (g.length_nullable ends).symm ▸ lt_size_of_body h
  rw [← g.getD_nullable ends h, List.getElem?_eq_getElem hlt, List.getD_eq_getElem?_getD,
    List.getElem?_eq_getElem hlt, Option.getD_some]

/-- **The analysis finds the least verdicts that confirm themselves**, whichever way the end of the
input counts. From no rule being nullable the sweeps end, after no more of them than there are rules
and one. Then a rule that is an expression is nullable exactly if the expression is so by these
verdicts, a native rule never is, and every list of verdicts that has all the rules in it that their
expressions make nullable has these. -/
theorem nullable_least_fixpoint :
    g.settle? (g.size + 1) (List.replicate g.size false) ends = some (g.nullable ends) ∧
      (∀ id e, g.body? id = some (.tree e) →
        (g.nullable ends)[id]? = some (e.nullable (g.nullable ends) ends)) ∧
      (∀ id start, g.body? id = some (.native start) → (g.nullable ends)[id]? = some false) ∧
      ∀ w : List Bool,
        (∀ id e, g.body? id = some (.tree e) → e.nullable w ends = true → w[id]? = some true) →
          ∀ id : RuleId, (g.nullable ends)[id]? = some true → w[id]? = some true := by
  refine ⟨(g.settle?_nullable ends).1, fun id e h => g.getElem?_nullable ends h,
    fun id start h => g.getElem?_nullable ends h, fun w hw id hid => ?_⟩
  have hclosed : Below (g.revise w ends) w := by
    intro i hi
    obtain ⟨e | start, hb, hnull⟩ := (g.getD_revise_eq_true_iff ends).mp hi
    · exact getElem?_eq_some_true_iff.mp (hw i e hb hnull)
    · exact absurd hnull (by simp [Body.nullable])
  exact getElem?_eq_some_true_iff.mpr
    (g.nullable_below ends hclosed id (getElem?_eq_some_true_iff.mp hid))

/-- `a <- b c`, `b <- 'x'?`, `c <- 'y' / b` and `d <- c 'z'`: the first rule is judged before those it
calls, and is found to be nullable by the second sweep. -/
example :
    nullable { rules := [
      ⟨"a", .tree (.seq (.call ⟨"b", some 1⟩) (.call ⟨"c", some 2⟩))⟩,
      ⟨"b", .tree (.opt (.char 'x'))⟩,
      ⟨"c", .tree (.alt (.char 'y') (.call ⟨"b", some 1⟩))⟩,
      ⟨"d", .tree (.seq (.call ⟨"c", some 2⟩) (.char 'z'))⟩] } = [true, true, true, false] := by
  decide

end Grammar

end Peg
