import Peg.Proofs.Semantics.Derivation

/-!
# Spellings

A parsing expression as a description of texts rather than as a procedure: `Peg.Spells` says which
words an expression may read, given what comes after them. The order of alternatives is forgotten,
and so is that repetitions take as much as there is: whatever could be read in some order of trying
counts. What remains of looking ahead is the next character, which is all that the classes of
characters behind a `Peg.Expr.notAhead` are about (`Peg.Expr.accepts`).

Every match is a spelling (`Peg.Derives.spells`). The converse needs more, since an alternative that
is tried first may take what a later one would have read.
-/

namespace Peg

/-- The characters each of which the expression reads, whatever comes after. -/
def Expr.accepts : Expr → Char → Bool
  | .char c => fun d => d == c
  | .range first last => fun d => first ≤ d && d ≤ last
  | .any => fun _ => true
  | .alt a b => fun d => a.accepts d || b.accepts d
  | .seq _ _ | .text _ | .endOfInput | .opt _ | .star _ | .plus _ | .ahead _ | .notAhead _
  | .call _ | .capture _ | .empty => fun _ => false

/-- The verdict of a rule that reads one character of a class. -/
def Verdict.one (accepts : Char → Bool) (input : Array Char) (p : Nat) : Verdict :=
  if input[p]?.any accepts then .matches (p + 1) [] else .fails

/-- **The words that an expression spells** in front of a given rest. -/
inductive Spells (rules : RuleId → Option Meaning) : Expr → List Char → List Char → Prop
  | empty {r} : Spells rules .empty [] r
  | text {x r} : Spells rules (.text x) x.toList r
  | char {c r} : Spells rules (.char c) [c] r
  | range {first last c r} (h : first ≤ c ∧ c ≤ last) : Spells rules (.range first last) [c] r
  | any {c r} : Spells rules .any [c] r
  | endOfInput : Spells rules .endOfInput [] []
  | seq {a b u v r} (ha : Spells rules a u (v ++ r)) (hb : Spells rules b v r) :
      Spells rules (.seq a b) (u ++ v) r
  | alt_left {a b w r} (h : Spells rules a w r) : Spells rules (.alt a b) w r
  | alt_right {a b w r} (h : Spells rules b w r) : Spells rules (.alt a b) w r
  | opt_nil {a r} : Spells rules (.opt a) [] r
  | opt {a w r} (h : Spells rules a w r) : Spells rules (.opt a) w r
  | star_nil {a r} : Spells rules (.star a) [] r
  | star_cons {a u v r} (hu : u ≠ []) (ha : Spells rules a u (v ++ r))
      (hs : Spells rules (.star a) v r) : Spells rules (.star a) (u ++ v) r
  | plus {a u v r} (ha : Spells rules a u (v ++ r)) (hs : Spells rules (.star a) v r) :
      Spells rules (.plus a) (u ++ v) r
  | ahead {a u r} (h : Spells rules a u r) : Spells rules (.ahead a) [] (u ++ r)
  | notAhead {a r} (h : ∀ c, r.head? = some c → a.accepts c = false) :
      Spells rules (.notAhead a) [] r
  | call_tree {r id e w rest} (hr : r.id = some id) (hid : rules id = some (.tree e))
      (h : Spells rules e w rest) : Spells rules (.call r) w rest
  | call_one {r id accepts c rest} (hr : r.id = some id)
      (hid : rules id = some (.primitive (Verdict.one accepts))) (hc : accepts c = true) :
      Spells rules (.call r) [c] rest
  | capture {a w r} (h : Spells rules a w r) : Spells rules (.capture a) w r

/-- The rules that are no expressions read one character of a class each. -/
def ReadsOne (rules : RuleId → Option Meaning) : Prop :=
  ∀ id f, rules id = some (.primitive f) → ∃ accepts, f = Verdict.one accepts

variable {rules : RuleId → Option Meaning} {input : Array Char} {e : Expr} {p q : Nat}
  {cs : List (Nat × Nat)}

theorem Verdict.one_of_accepts {accepts : Char → Bool} {c : Char} (hc : input[p]? = some c)
    (h : accepts c = true) : Verdict.one accepts input p = .matches (p + 1) [] := by
  rw [one, hc, Option.any_some, if_pos h]

theorem Verdict.one_eq_matches {accepts : Char → Bool}
    (h : Verdict.one accepts input p = .matches q cs) :
    ∃ c, input[p]? = some c ∧ accepts c = true ∧ q = p + 1 ∧ cs = [] := by
  rw [Verdict.one] at h
  rcases hc : input[p]? with _ | c
  · simp [hc] at h
  · by_cases hacc : accepts c = true
    · simp only [hc, Option.any_some, if_pos hacc, Verdict.matches.injEq] at h
      exact ⟨c, rfl, hacc, h.1.symm, h.2.symm⟩
    · simp [hc, hacc] at h

theorem Verdict.one_inj {f f' : Char → Bool} (h : Verdict.one f = Verdict.one f') : f = f' := by
  funext c
  have hc := congrFun (congrFun h #[c]) 0
  cases hf : f c <;> cases hf' : f' c <;> simp_all [Verdict.one]

/-! ### Every match is a spelling -/

theorem drop_of_getElem? {c : Char} (h : input[p]? = some c) :
    input.toList.drop p = c :: input.toList.drop (p + 1) := by
  obtain ⟨hp, rfl⟩ := Array.getElem?_eq_some_iff.mp h
  rw [List.drop_eq_getElem_cons (by simpa using hp), Array.getElem_toList]

theorem getElem?_of_drop {c : Char} {r : List Char} (h : input.toList.drop p = c :: r) :
    input[p]? = some c := by
  rw [← Array.getElem?_toList, ← List.head?_drop, h, List.head?_cons]

theorem head?_drop_toList : (input.toList.drop p).head? = input[p]? := by
  rw [List.head?_drop, Array.getElem?_toList]

theorem drop_append {u r : List Char} (h : input.toList.drop p = u ++ r) :
    input.toList.drop (p + u.length) = r := by
  rw [← List.drop_drop, h, List.drop_left]

/-- What fails does not accept the next character. -/
theorem Derives.not_accepts (h : Derives rules input e p .fails) {c : Char}
    (hc : input[p]? = some c) : e.accepts c = false := by
  generalize hv : Verdict.fails = v at h
  induction h with
  | char_fails h =>
    rw [hc] at h
    simpa [Expr.accepts] using h
  | range_fails h =>
    simpa [Expr.accepts] using h c hc
  | any_fails h =>
    obtain ⟨hp, -⟩ := Array.getElem?_eq_some_iff.mp hc
    omega
  | alt_second _ _ iha ihb => simp [Expr.accepts, iha hc rfl, ihb hc hv]
  | alt_first => cases hv
  | _ => first | rfl | cases hv

/-- What was read is what lies between the two offsets. -/
def Reads (input : Array Char) (p q : Nat) (w : List Char) : Prop :=
  q = p + w.length ∧ input.toList.drop p = w ++ input.toList.drop q

theorem Reads.nil : Reads input p p [] := ⟨rfl, rfl⟩

theorem Reads.one {c : Char} (h : input[p]? = some c) : Reads input p (p + 1) [c] :=
  ⟨rfl, drop_of_getElem? h⟩

theorem Reads.append {r : Nat} {u v : List Char} (h : Reads input p q u) (h' : Reads input q r v) :
    Reads input p r (u ++ v) := by
  obtain ⟨rfl, hu⟩ := h
  obtain ⟨rfl, hv⟩ := h'
  exact ⟨by simp [Nat.add_assoc], by rw [hu, hv, List.append_assoc]⟩

/-- **Every match is a spelling** of what was read, in front of what was not. -/
theorem Derives.spells (hrules : ReadsOne rules) (h : Derives rules input e p (.matches q cs)) :
    ∃ w, Reads input p q w ∧ Spells rules e w (input.toList.drop q) := by
  generalize hv : Verdict.matches q cs = v at h
  induction h generalizing q cs with
  | empty => cases hv; exact ⟨[], .nil, .empty⟩
  | @text_matches x p h =>
    cases hv
    obtain ⟨r, hr⟩ := h
    have hrest := drop_append hr.symm
    rw [String.length_toList] at hrest
    exact ⟨x.toList, ⟨by rw [String.length_toList], by rw [hrest, hr]⟩, .text⟩
  | char_matches h => cases hv; exact ⟨_, .one h, .char⟩
  | range_matches h hc => cases hv; exact ⟨_, .one h, .range hc⟩
  | any_matches h =>
    cases hv
    exact ⟨_, .one (Array.getElem?_eq_getElem h), .any⟩
  | end_matches h =>
    cases hv
    rw [List.drop_eq_nil_of_le (by simpa using h)]
    exact ⟨[], .nil, .endOfInput⟩
  | seq_matches _ _ iha ihb =>
    cases hv
    obtain ⟨u, hu, ha⟩ := iha rfl
    obtain ⟨v, hv, hb⟩ := ihb rfl
    exact ⟨u ++ v, hu.append hv, .seq (hv.2 ▸ ha) hb⟩
  | alt_first _ ih =>
    obtain ⟨w, hw, ha⟩ := ih hv
    exact ⟨w, hw, .alt_left ha⟩
  | alt_second _ _ _ ih =>
    obtain ⟨w, hw, hb⟩ := ih hv
    exact ⟨w, hw, .alt_right hb⟩
  | opt_some _ ih =>
    obtain ⟨w, hw, ha⟩ := ih hv
    exact ⟨w, hw, .opt ha⟩
  | opt_none => cases hv; exact ⟨[], .nil, .opt_nil⟩
  | star_ends => cases hv; exact ⟨[], .nil, .star_nil⟩
  | star_still =>
    -- a last round that reads nothing leaves no trace in the spelling
    cases hv
    exact ⟨[], .nil, .star_nil⟩
  | star_more _ hq _ iha ihs =>
    cases hv
    obtain ⟨u, hu, ha⟩ := iha rfl
    obtain ⟨v, hv, hs⟩ := ihs rfl
    refine ⟨u ++ v, hu.append hv, .star_cons ?_ (hv.2 ▸ ha) hs⟩
    rintro rfl
    exact hq hu.1
  | plus_matches _ _ iha ihs =>
    cases hv
    obtain ⟨u, hu, ha⟩ := iha rfl
    obtain ⟨v, hv, hs⟩ := ihs rfl
    exact ⟨u ++ v, hu.append hv, .plus (hv.2 ▸ ha) hs⟩
  | ahead_matches _ ih =>
    cases hv
    obtain ⟨w, hw, ha⟩ := ih rfl
    exact ⟨[], .nil, hw.2 ▸ .ahead ha⟩
  | notAhead_matches ha =>
    cases hv
    exact ⟨[], .nil, .notAhead fun c hc => ha.not_accepts (head?_drop_toList ▸ hc)⟩
  | call_tree hr hid _ ih =>
    obtain ⟨w, hw, he⟩ := ih hv
    exact ⟨w, hw, .call_tree hr hid he⟩
  | call_primitive hr hid =>
    -- a rule that is no expression reads one character
    obtain ⟨accepts, rfl⟩ := hrules _ _ hid
    obtain ⟨c, hget, hc, rfl, -⟩ := Verdict.one_eq_matches hv.symm
    exact ⟨[c], .one hget, .call_one hr hid hc⟩
  | capture_matches _ ih =>
    cases hv
    obtain ⟨w, hw, ha⟩ := ih rfl
    exact ⟨w, hw, .capture ha⟩
  | _ => cases hv

/-! ### What each kind of expression spells -/

namespace Spells

variable {a b : Expr} {w r : List Char}

@[simp]
theorem text_iff {x : String} : Spells rules (.text x) w r ↔ w = x.toList := by
  constructor
  · rintro ⟨⟩
    rfl
  · rintro rfl
    exact .text

@[simp]
theorem char_iff {c : Char} : Spells rules (.char c) w r ↔ w = [c] := by
  constructor
  · rintro ⟨⟩
    rfl
  · rintro rfl
    exact .char

@[simp]
theorem range_iff {first last : Char} :
    Spells rules (.range first last) w r ↔ ∃ c, w = [c] ∧ first ≤ c ∧ c ≤ last := by
  constructor
  · intro h
    cases h with
    | range h => exact ⟨_, rfl, h⟩
  · rintro ⟨c, rfl, h⟩
    exact .range h

@[simp]
theorem any_iff : Spells rules .any w r ↔ ∃ c, w = [c] := by
  constructor
  · rintro ⟨⟩
    exact ⟨_, rfl⟩
  · rintro ⟨c, rfl⟩
    exact .any

@[simp]
theorem endOfInput_iff : Spells rules .endOfInput w r ↔ w = [] ∧ r = [] := by
  constructor
  · rintro ⟨⟩
    exact ⟨rfl, rfl⟩
  · rintro ⟨rfl, rfl⟩
    exact .endOfInput

theorem seq_iff :
    Spells rules (.seq a b) w r ↔
      ∃ u v, w = u ++ v ∧ Spells rules a u (v ++ r) ∧ Spells rules b v r := by
  constructor
  · intro h
    cases h with
    | seq ha hb => exact ⟨_, _, rfl, ha, hb⟩
  · rintro ⟨u, v, rfl, ha, hb⟩
    exact .seq ha hb

@[simp]
theorem alt_iff :
    Spells rules (.alt a b) w r ↔ Spells rules a w r ∨ Spells rules b w r := by
  constructor
  · intro h
    cases h with
    | alt_left h => exact .inl h
    | alt_right h => exact .inr h
  · rintro (h | h)
    · exact .alt_left h
    · exact .alt_right h

@[simp]
theorem opt_iff : Spells rules (.opt a) w r ↔ w = [] ∨ Spells rules a w r := by
  constructor
  · intro h
    cases h with
    | opt_nil => exact .inl rfl
    | opt h => exact .inr h
  · rintro (rfl | h)
    · exact .opt_nil
    · exact .opt h

@[simp]
theorem capture_iff : Spells rules (.capture a) w r ↔ Spells rules a w r := by
  refine ⟨fun h => ?_, .capture⟩
  cases h with
  | capture h => exact h

/-- A character outside a class. -/
theorem except_iff :
    Spells rules (.seq (.notAhead a) .any) w r ↔ ∃ c, w = [c] ∧ a.accepts c = false := by
  rw [seq_iff]
  constructor
  · rintro ⟨_, _, rfl, h, hany⟩
    obtain ⟨c, rfl⟩ := any_iff.mp hany
    cases h with
    | notAhead h => exact ⟨c, rfl, h c rfl⟩
  · rintro ⟨c, rfl, hc⟩
    refine ⟨[], [c], rfl, .notAhead fun d hd => ?_, .any⟩
    obtain rfl : c = d := by simpa using hd
    exact hc

/-- A repetition spells what its rounds spell, none of which is empty. -/
theorem exists_of_star (h : Spells rules (.star a) w r) :
    ∃ ws : List (List Char), w = ws.flatten ∧ ∀ u ∈ ws, u ≠ [] ∧ ∃ r, Spells rules a u r := by
  generalize he : Expr.star a = e at h
  induction h with
  | star_nil => exact ⟨[], rfl, by simp⟩
  | @star_cons a' u v r hu ha _ _ ih =>
    obtain rfl : a = a' := by simpa using he
    obtain ⟨ws, rfl, hws⟩ := ih he
    exact ⟨u :: ws, rfl, List.forall_mem_cons.mpr ⟨⟨hu, _, ha⟩, hws⟩⟩
  | _ => cases he

theorem call_tree_iff {ref : Reference} {id : RuleId} (hr : ref.id = some id)
    (hid : rules id = some (.tree e)) : Spells rules (.call ref) w r ↔ Spells rules e w r := by
  refine ⟨fun h => ?_, .call_tree hr hid⟩
  cases h with
  | call_tree hr' hid' h =>
    obtain rfl := Option.some.inj (hr.symm.trans hr')
    rw [hid, Option.some.injEq, Meaning.tree.injEq] at hid'
    exact hid' ▸ h
  | call_one hr' hid' =>
    obtain rfl := Option.some.inj (hr.symm.trans hr')
    simp [hid] at hid'

theorem call_one_iff {ref : Reference} {id : RuleId} {accepts : Char → Bool} (hr : ref.id = some id)
    (hid : rules id = some (.primitive (Verdict.one accepts))) :
    Spells rules (.call ref) w r ↔ ∃ c, w = [c] ∧ accepts c = true := by
  constructor
  · intro h
    cases h with
    | call_tree hr' hid' =>
      obtain rfl := Option.some.inj (hr.symm.trans hr')
      simp [hid] at hid'
    | call_one hr' hid' hc =>
      obtain rfl := Option.some.inj (hr.symm.trans hr')
      rw [hid, Option.some.injEq, Meaning.primitive.injEq] at hid'
      exact ⟨_, rfl, Verdict.one_inj hid' ▸ hc⟩
  · rintro ⟨c, rfl, hc⟩
    exact .call_one hr hid hc

end Spells

end Peg
