import Peg.Grammar.Basic

/-!
# Derivations of parsing expressions

The meaning of parsing expressions as it is written down in textbooks, as a relation between an
expression, an offset of the input and a `Peg.Verdict`. A verdict is a failure, which carries
nothing, or a match with the offset where it ends and the ranges that were captured, in the order
in which they were completed. Nothing is said of a state that is changed and restored: what an
expression comes to does not depend on what was tried before.

A rule means a tree, or a verdict for each offset if it is not made of expressions
(`Peg.Meaning`). The end of the input is a place and not a character. A repetition goes on as long
as it gets somewhere: an iteration that matches and reads nothing is the last one.
-/

namespace Peg

/-- What an expression comes to at an offset. -/
inductive Verdict
  /-- It does not match. -/
  | fails
  /-- It matches up to the offset `stop`, and captures these ranges. -/
  | matches (stop : Nat) (ranges : List (Nat × Nat))
deriving DecidableEq, Repr

/-- What a rule means. -/
inductive Meaning
  /-- The rule is an expression. -/
  | tree (e : Expr)
  /-- The rule is known by its verdict at each offset of each input. -/
  | primitive (verdict : Array Char → Nat → Verdict)

/-- **The derivations of a table of rules** over an input: at this offset, the expression comes to
this verdict. -/
inductive Derives (rules : RuleId → Option Meaning) (input : Array Char) :
    Expr → Nat → Verdict → Prop
  | empty {p} : Derives rules input .empty p (.matches p [])
  /- Texts, characters and the end of the input. -/
  | text_matches {x p} (h : x.toList <+: input.toList.drop p) :
      Derives rules input (.text x) p (.matches (p + x.length) [])
  | text_fails {x p} (h : ¬x.toList <+: input.toList.drop p) :
      Derives rules input (.text x) p .fails
  | char_matches {c p} (h : input[p]? = some c) :
      Derives rules input (.char c) p (.matches (p + 1) [])
  | char_fails {c p} (h : input[p]? ≠ some c) : Derives rules input (.char c) p .fails
  | range_matches {first last c p} (h : input[p]? = some c) (hc : first ≤ c ∧ c ≤ last) :
      Derives rules input (.range first last) p (.matches (p + 1) [])
  | range_fails {first last p} (h : ∀ c, input[p]? = some c → ¬(first ≤ c ∧ c ≤ last)) :
      Derives rules input (.range first last) p .fails
  | any_matches {p} (h : p < input.size) : Derives rules input .any p (.matches (p + 1) [])
  | any_fails {p} (h : input.size ≤ p) : Derives rules input .any p .fails
  | end_matches {p} (h : input.size ≤ p) : Derives rules input .endOfInput p (.matches p [])
  | end_fails {p} (h : p < input.size) : Derives rules input .endOfInput p .fails
  /- One after the other, and one or else the other. -/
  | seq_matches {a b p q r cs ds} (ha : Derives rules input a p (.matches q cs))
      (hb : Derives rules input b q (.matches r ds)) :
      Derives rules input (.seq a b) p (.matches r (cs ++ ds))
  | seq_first_fails {a b p} (ha : Derives rules input a p .fails) :
      Derives rules input (.seq a b) p .fails
  | seq_second_fails {a b p q cs} (ha : Derives rules input a p (.matches q cs))
      (hb : Derives rules input b q .fails) : Derives rules input (.seq a b) p .fails
  | alt_first {a b p q cs} (ha : Derives rules input a p (.matches q cs)) :
      Derives rules input (.alt a b) p (.matches q cs)
  | alt_second {a b p v} (ha : Derives rules input a p .fails) (hb : Derives rules input b p v) :
      Derives rules input (.alt a b) p v
  /- Repetitions. -/
  | opt_some {a p q cs} (ha : Derives rules input a p (.matches q cs)) :
      Derives rules input (.opt a) p (.matches q cs)
  | opt_none {a p} (ha : Derives rules input a p .fails) :
      Derives rules input (.opt a) p (.matches p [])
  | star_ends {a p} (ha : Derives rules input a p .fails) :
      Derives rules input (.star a) p (.matches p [])
  | star_still {a p cs} (ha : Derives rules input a p (.matches p cs)) :
      Derives rules input (.star a) p (.matches p cs)
  | star_more {a p q r cs ds} (ha : Derives rules input a p (.matches q cs)) (hq : q ≠ p)
      (hs : Derives rules input (.star a) q (.matches r ds)) :
      Derives rules input (.star a) p (.matches r (cs ++ ds))
  | plus_matches {a p q r cs ds} (ha : Derives rules input a p (.matches q cs))
      (hs : Derives rules input (.star a) q (.matches r ds)) :
      Derives rules input (.plus a) p (.matches r (cs ++ ds))
  | plus_fails {a p} (ha : Derives rules input a p .fails) : Derives rules input (.plus a) p .fails
  /- Looking ahead. -/
  | ahead_matches {a p q cs} (ha : Derives rules input a p (.matches q cs)) :
      Derives rules input (.ahead a) p (.matches p [])
  | ahead_fails {a p} (ha : Derives rules input a p .fails) :
      Derives rules input (.ahead a) p .fails
  | notAhead_matches {a p} (ha : Derives rules input a p .fails) :
      Derives rules input (.notAhead a) p (.matches p [])
  | notAhead_fails {a p q cs} (ha : Derives rules input a p (.matches q cs)) :
      Derives rules input (.notAhead a) p .fails
  /- Rules and captures. -/
  | call_tree {r id e p v} (hr : r.id = some id) (hid : rules id = some (.tree e))
      (he : Derives rules input e p v) : Derives rules input (.call r) p v
  | call_primitive {r id f p} (hr : r.id = some id) (hid : rules id = some (.primitive f)) :
      Derives rules input (.call r) p (f input p)
  | capture_matches {a p q cs} (ha : Derives rules input a p (.matches q cs)) :
      Derives rules input (.capture a) p (.matches q (cs ++ [(p, q)]))
  | capture_fails {a p} (ha : Derives rules input a p .fails) :
      Derives rules input (.capture a) p .fails

namespace Grammar

/-- The table of a grammar's trees. -/
def trees (g : Grammar) (id : RuleId) : Option Meaning :=
  (g.body? id).bind fun body => body.tree?.map .tree

end Grammar

/-- The call of a rule that means a tree comes to what the tree comes to. -/
theorem Derives.tree_of_call {rules : RuleId → Option Meaning} {input : Array Char} {e : Expr}
    {r : Reference} {id : RuleId} {p : Nat} {v : Verdict} (hr : r.id = some id)
    (hid : rules id = some (.tree e)) (h : Derives rules input (.call r) p v) :
    Derives rules input e p v := by
  generalize hc : Expr.call r = c at h
  cases h with
  | call_tree hr' hid' h =>
    cases hc
    obtain rfl := Option.some.inj (hr.symm.trans hr')
    rw [hid, Option.some.injEq, Meaning.tree.injEq] at hid'
    exact hid' ▸ h
  | call_primitive hr' hid' =>
    cases hc
    obtain rfl := Option.some.inj (hr.symm.trans hr')
    simp [hid] at hid'
  | _ => cases hc

/-! ### What captures nothing -/

/-- Nothing is captured in the expression, nor in the rules it calls, if those that are `quiet`
capture nothing. -/
def Expr.silent (quiet : RuleId → Bool) : Expr → Bool
  | .seq a b | .alt a b => a.silent quiet && b.silent quiet
  | .opt a | .star a | .plus a | .ahead a | .notAhead a => a.silent quiet
  | .call r => r.id.all quiet
  | .capture _ => false
  | .text _ | .char _ | .endOfInput | .range _ _ | .any | .empty => true

/-- **Where nothing is captured, a match has no captures.** -/
theorem Derives.captures_eq_nil {rules : RuleId → Option Meaning} {input : Array Char}
    {quiet : RuleId → Bool}
    (htree : ∀ id e, quiet id = true → rules id = some (.tree e) → e.silent quiet = true)
    (hprim : ∀ id f p q cs, rules id = some (.primitive f) → f input p = .matches q cs → cs = [])
    {e : Expr} {p q : Nat} {cs : List (Nat × Nat)} (h : Derives rules input e p (.matches q cs))
    (he : e.silent quiet = true) : cs = [] := by
  generalize hv : Verdict.matches q cs = v at h
  induction h generalizing q cs with
  | seq_matches _ _ iha ihb =>
    cases hv
    obtain ⟨ha, hb⟩ := Bool.and_eq_true_iff.mp he
    rw [iha ha rfl, ihb hb rfl, List.append_nil]
  | alt_first _ ih => exact ih (Bool.and_eq_true_iff.mp he).1 hv
  | alt_second _ _ _ ih => exact ih (Bool.and_eq_true_iff.mp he).2 hv
  | opt_some _ ih => exact ih he hv
  | star_still _ ih => exact ih he hv
  | star_more _ _ _ iha ihs =>
    cases hv
    rw [iha he rfl, ihs he rfl, List.append_nil]
  | plus_matches _ _ iha ihs =>
    cases hv
    rw [iha he rfl, ihs he rfl, List.append_nil]
  | call_tree hr hid _ ih =>
    rw [Expr.silent, hr, Option.all_some] at he
    exact ih (htree _ _ he hid) hv
  | call_primitive hr hid => exact hprim _ _ _ _ _ hid hv.symm
  | capture_matches => cases he
  | _ => cases hv <;> rfl

end Peg
