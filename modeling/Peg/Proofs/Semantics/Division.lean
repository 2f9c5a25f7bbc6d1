import Peg.Proofs.Semantics.Spelling

/-!
# What is captured and what lies between

In some grammars every character is either captured or one of a class of characters that are of no
interest, such as blanks. Then the captures of a match divide what it has read: they follow one
another, and between them there are gaps, made of the characters of that class (`Peg.Divided`).
Whether an expression is like that can be seen from the way it is written (`Peg.Expr.divides`), and
a match of one that is divides what it has read (`Peg.Derives.divided`), whatever was tried on the
way and given up.

Each range between the gaps is a match of what stands in a capture, and begins where the one before
it, or a gap, has ended (`Peg.Divided.before`, `Peg.Divided.after`).
-/

namespace Peg

/-- **The ranges divide the characters between two offsets**: `token` holds of each range, and
the characters before, between and after them are of the class `gap`. -/
inductive Divided (input : Array Char) (gap : Char → Bool) (token : Nat → Nat → Prop) :
    Nat → Nat → List (Nat × Nat) → Prop
  | nil {p} : Divided input gap token p p []
  | gap {p q c cs} (hc : input[p]? = some c) (h : gap c = true)
      (hcs : Divided input gap token (p + 1) q cs) : Divided input gap token p q cs
  | token {p q r cs} (h : token p q) (hcs : Divided input gap token q r cs) :
      Divided input gap token p r ((p, q) :: cs)

namespace Expr

/-- Outside of captures only characters of the class `gap` are read, and what stands in a capture
is one of `tokens` and calls no rules. -/
def divides (gap : Char → Bool) (tokens : List Expr) : Expr → Bool
  | seq a b | alt a b => a.divides gap tokens && b.divides gap tokens
  | opt a | star a | plus a => a.divides gap tokens
  | text x => x.toList.all gap
  | char c => gap c
  | range _ _ | any => false
  | capture a => tokens.contains a && a.silent fun _ => false
  | endOfInput | ahead _ | notAhead _ | call _ | empty => true

end Expr

variable {rules : RuleId → Option Meaning} {input : Array Char} {gap : Char → Bool}
  {token : Nat → Nat → Prop} {e : Expr} {p q r : Nat} {cs ds : List (Nat × Nat)}

/-- A match of one of the expressions that captures nothing. -/
def Derives.Token (rules : RuleId → Option Meaning) (input : Array Char) (tokens : List Expr)
    (p q : Nat) : Prop :=
  ∃ e ∈ tokens, Derives rules input e p (.matches q [])

namespace Divided

theorem append (h : Divided input gap token p q cs) (h' : Divided input gap token q r ds) :
    Divided input gap token p r (cs ++ ds) := by
  induction h with
  | nil => exact h'
  | gap hc hgap _ ih => exact .gap hc hgap (ih h')
  | token ht _ ih => exact .token ht (ih h')

theorem imp {token' : Nat → Nat → Prop} (h : Divided input gap token p q cs)
    (himp : ∀ p q, token p q → token' p q) : Divided input gap token' p q cs := by
  induction h with
  | nil => exact .nil
  | gap hc hgap _ ih => exact .gap hc hgap ih
  | token ht _ ih => exact .token (himp _ _ ht) ih

/-- What was read is divided if it consists of gaps. -/
theorem of_gaps {w : List Char} (h : w <+: input.toList.drop p) (hw : w.all gap = true) :
    Divided input gap token p (p + w.length) [] := by
  induction w generalizing p with
  | nil => exact .nil
  | cons c w ih =>
    obtain ⟨rest, hrest⟩ := h
    obtain ⟨hc, hw⟩ := Bool.and_eq_true_iff.mp hw
    have hnext : input.toList.drop (p + 1) = w ++ rest := drop_append (u := [c]) hrest.symm
    rw [List.length_cons, Nat.add_comm w.length, ← Nat.add_assoc]
    exact .gap (getElem?_of_drop hrest.symm) hc (ih ⟨rest, hnext.symm⟩ hw)

section Order

variable (htoken : ∀ p q, token p q → p < q)
include htoken

theorem le (h : Divided input gap token p q cs) : p ≤ q := by
  induction h with
  | nil => exact Nat.le_refl _
  | gap _ _ _ ih => omega
  | token ht _ ih => exact Nat.le_trans (Nat.le_of_lt (htoken _ _ ht)) ih

/-- Each range lies between the two offsets and is a token. -/
theorem of_mem (h : Divided input gap token p q cs) {s t : Nat} (hst : (s, t) ∈ cs) :
    token s t ∧ p ≤ s ∧ s < t ∧ t ≤ q := by
  induction h with
  | nil => simp at hst
  | gap _ _ _ ih =>
    obtain ⟨ht, hp, hrest⟩ := ih hst
    exact ⟨ht, by omega, hrest⟩
  | token ht hcs ih =>
    have hlt := htoken _ _ ht
    rcases List.mem_cons.mp hst with heq | hst
    · obtain ⟨rfl, rfl⟩ := Prod.mk.inj heq
      exact ⟨ht, Nat.le_refl _, hlt, hcs.le htoken⟩
    · obtain ⟨ht', hp, hrest⟩ := ih hst
      exact ⟨ht', by omega, hrest⟩

/-- Each range ends before the next one begins. -/
theorem pairwise (h : Divided input gap token p q cs) : cs.Pairwise fun a b => a.2 ≤ b.1 := by
  induction h with
  | nil => exact .nil
  | gap _ _ _ ih => exact ih
  | token _ hcs ih => exact List.pairwise_cons.mpr ⟨fun b hb => (hcs.of_mem htoken hb).2.1, ih⟩

/-- Before a range there is a gap or another range. -/
theorem before (h : Divided input gap token p q cs) {s t : Nat} (hst : (s, t) ∈ cs) (hp : p < s) :
    (∃ c, input[s - 1]? = some c ∧ gap c = true) ∨ ∃ r, token r s := by
  induction h with
  | nil => simp at hst
  | @gap p q c cs hc hgap _ ih =>
    by_cases hs : p + 1 = s
    · subst hs
      exact .inl ⟨c, hc, hgap⟩
    · exact ih hst (by omega)
  | @token p q r cs ht hcs ih =>
    rcases List.mem_cons.mp hst with heq | hst
    · obtain ⟨rfl, rfl⟩ := Prod.mk.inj heq
      omega
    · rcases Nat.eq_or_lt_of_le (hcs.of_mem htoken hst).2.1 with rfl | hlt
      · exact .inr ⟨p, ht⟩
      · exact ih hst hlt

omit htoken in
/-- After a range there is a gap or another range. -/
theorem after (h : Divided input gap token p q cs) {s t : Nat} (hst : (s, t) ∈ cs) (hq : t < q) :
    (∃ c, input[t]? = some c ∧ gap c = true) ∨ ∃ r, token t r := by
  induction h with
  | nil => simp at hst
  | gap _ _ _ ih => exact ih hst hq
  | token ht hcs ih =>
    rcases List.mem_cons.mp hst with heq | hst
    · obtain ⟨rfl, rfl⟩ := Prod.mk.inj heq
      cases hcs with
      | nil => omega
      | gap hc hgap => exact .inl ⟨_, hc, hgap⟩
      | token ht => exact .inr ⟨_, ht⟩
    · exact ih hst hq

end Order

end Divided

/-- **A match divides what it has read** into its captures and gaps, if the rules are written like
that. -/
theorem Derives.divided {tokens : List Expr}
    (htree : ∀ id e, rules id = some (.tree e) → e.divides gap tokens = true)
    (hprim : ∀ id f, rules id ≠ some (.primitive f))
    (h : Derives rules input e p (.matches q cs)) (he : e.divides gap tokens = true) :
    Divided input gap (Derives.Token rules input tokens) p q cs := by
  generalize hv : Verdict.matches q cs = v at h
  induction h generalizing q cs with
  | empty => cases hv; exact .nil
  | text_matches h =>
    cases hv
    rw [← String.length_toList]
    exact .of_gaps h he
  | char_matches h => cases hv; exact .gap h he .nil
  | end_matches => cases hv; exact .nil
  | seq_matches _ _ iha ihb =>
    cases hv
    obtain ⟨ha, hb⟩ := Bool.and_eq_true_iff.mp he
    exact (iha ha rfl).append (ihb hb rfl)
  | alt_first _ ih => exact ih (Bool.and_eq_true_iff.mp he).1 hv
  | alt_second _ _ _ ih => exact ih (Bool.and_eq_true_iff.mp he).2 hv
  | opt_some _ ih => exact ih he hv
  | opt_none => cases hv; exact .nil
  | star_ends => cases hv; exact .nil
  | star_still _ ih => exact ih he hv
  | star_more _ _ _ iha ihs =>
    cases hv
    exact (iha he rfl).append (ihs he rfl)
  | plus_matches _ _ iha ihs =>
    cases hv
    exact (iha he rfl).append (ihs he rfl)
  | ahead_matches => cases hv; exact .nil
  | notAhead_matches => cases hv; exact .nil
  | call_tree _ hid _ ih => exact ih (htree _ _ hid) hv
  | call_primitive _ hid => exact absurd hid (hprim _ _)
  | @capture_matches a p q cs ha _ =>
    cases hv
    obtain ⟨hmem, hsilent⟩ := Bool.and_eq_true_iff.mp he
    -- nothing is captured inside, so there is one range
    obtain rfl : cs = [] := by
      refine ha.captures_eq_nil ?_ (fun id f _ _ _ hid => absurd hid (hprim id f)) hsilent
      nofun
    exact .token ⟨a, List.contains_iff_mem.mp hmem, ha⟩ .nil
  | range_matches | any_matches => cases he
  | _ => cases hv

/-- Where a repetition of a class has ended, the next character is not of the class. -/
theorem Derives.not_accepts_of_star (h : Derives rules input (.star e) p (.matches q cs))
    {c : Char} (hc : input[q]? = some c) (hstill : ∀ p cs, ¬Derives rules input e p (.matches p cs)) :
    e.accepts c = false := by
  generalize hv : Verdict.matches q cs = v at h
  generalize hs : Expr.star e = s at h
  induction h generalizing q cs with
  | star_ends h =>
    cases hv
    cases hs
    exact h.not_accepts hc
  | star_still h =>
    cases hs
    cases hv
    exact absurd h (hstill _ _)
  | star_more _ _ _ _ ihs =>
    cases hv
    cases hs
    exact ihs hc rfl rfl
  | _ => cases hs

end Peg
