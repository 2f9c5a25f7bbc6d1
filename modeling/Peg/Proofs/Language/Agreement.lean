import Peg.Proofs.Language.Form
import Peg.Proofs.Semantics.Spelling

/-!
# Expressions and forms with the same words

A parsing expression and a form of a context-free grammar agree when the expression spells the words
that the form yields, and does so whatever comes after them (`Peg.Agrees`). The lemmas follow the
ways in which an expression is built. A repetition needs rounds that are not empty, and a class of
characters that is looked for and not found stands for all the other characters.
-/

namespace Peg

/-- The expression spells what the form yields. -/
def Agrees {N : Type} (rules : RuleId → Option Meaning) (productions : N → Form N) (e : Expr)
    (f : Form N) : Prop :=
  ∀ w r, Spells rules e w r ↔ Yields productions f w

namespace Agrees

variable {N : Type} {rules : RuleId → Option Meaning} {productions : N → Form N} {a b : Expr}
  {f g : Form N}

theorem congr (h : Agrees rules productions a f)
    (hfg : ∀ w, Yields productions f w ↔ Yields productions g w) : Agrees rules productions a g :=
  fun w r => (h w r).trans (hfg w)

theorem char (c : Char) : Agrees rules productions (.char c) (.word [c]) :=
  fun w r => by rw [Spells.char_iff, Yields.word_iff]

theorem range (first last : Char) :
    Agrees rules productions (.range first last) (.range first last) :=
  fun w r => by simp [Form.range]

theorem seq (ha : Agrees rules productions a f) (hb : Agrees rules productions b g) :
    Agrees rules productions (.seq a b) (.seq f g) := by
  intro w r
  rw [Spells.seq_iff, Yields.seq_iff]
  simp only [ha _ _, hb _ _]

theorem alt (ha : Agrees rules productions a f) (hb : Agrees rules productions b g) :
    Agrees rules productions (.alt a b) (.alt f g) := by
  intro w r
  rw [Spells.alt_iff, Yields.alt_iff, ha, hb]

theorem opt (ha : Agrees rules productions a f) :
    Agrees rules productions (.opt a) (.opt f) := by
  intro w r
  rw [Spells.opt_iff, Yields.opt_iff, ha]

theorem star (ha : Agrees rules productions a f) (hne : ¬Yields productions f []) :
    Agrees rules productions (.star a) (.many f) := by
  intro w r
  rw [Yields.many_iff]
  constructor
  · intro h
    obtain ⟨ws, rfl, hws⟩ := h.exists_of_star
    refine ⟨ws, rfl, fun u hu => ?_⟩
    obtain ⟨-, rest, hspells⟩ := hws u hu
    exact (ha u rest).mp hspells
  · rintro ⟨ws, rfl, hws⟩
    induction ws with
    | nil => exact .star_nil
    | cons u ws ih =>
      obtain ⟨hu, hws⟩ := List.forall_mem_cons.mp hws
      refine .star_cons ?_ ((ha _ _).mpr hu) (ih hws)
      rintro rfl
      exact hne hu

theorem plus (ha : Agrees rules productions a f) (hne : ¬Yields productions f []) :
    Agrees rules productions (.plus a) (.some f) := by
  intro w r
  rw [Form.some, Yields.seq_iff]
  constructor
  · intro h
    cases h with
    | plus h hs => exact ⟨_, _, rfl, (ha _ _).mp h, (ha.star hne _ _).mp hs⟩
  · rintro ⟨u, v, rfl, hu, hv⟩
    exact .plus ((ha _ _).mpr hu) ((ha.star hne _ _).mpr hv)

/-- Any character but those of a class. -/
theorem except (a : Expr) :
    Agrees rules productions (.seq (.notAhead a) .any) (.one fun c => !a.accepts c) :=
  fun w r => by rw [Spells.except_iff]; simp

/-- One of several characters. -/
theorem oneOf (c : Char) (cs : List Char) :
    Agrees rules productions (Expr.choiceOf ((c :: cs).map .char)) (.oneOf (c :: cs)) := by
  induction cs generalizing c with
  | nil => exact fun w r => by simp [Expr.choiceOf, Form.oneOf]
  | cons d cs ih =>
    intro w r
    have hd := ih d w r
    simp only [Form.oneOf, Yields.one_iff, List.map_cons] at hd ⊢
    rw [Expr.choiceOf, Spells.alt_iff, hd, Spells.char_iff]
    · constructor
      · rintro (rfl | ⟨x, rfl, hx⟩)
        · exact ⟨c, rfl, by simp⟩
        · exact ⟨x, rfl, by simp_all⟩
      · rintro ⟨x, rfl, hx⟩
        by_cases hxc : x = c
        · exact .inl (by rw [hxc])
        · exact .inr ⟨x, rfl, by simp_all⟩
    · simp

theorem ref {n : N} (h : Agrees rules productions a (productions n)) :
    Agrees rules productions a (.ref n) :=
  fun w r => (h w r).trans Yields.ref_iff.symm

/-- The call of a rule that reads one character of a class. -/
theorem call_one {r : Reference} {id : RuleId} {accepts : Char → Bool} (hr : r.id = some id)
    (hid : rules id = some (.primitive (Verdict.one accepts))) :
    Agrees rules productions (.call r) (.one accepts) :=
  fun w rest => by rw [Spells.call_one_iff hr hid, Yields.one_iff]

/-- The call of a rule that agrees with what a symbol stands for. -/
theorem call {r : Reference} {id : RuleId} {e : Expr} {n : N} (hr : r.id = some id)
    (hid : rules id = some (.tree e)) (h : Agrees rules productions e (productions n)) :
    Agrees rules productions (.call r) (.ref n) :=
  fun w rest => by rw [Spells.call_tree_iff hr hid, Yields.ref_iff, h]

end Agrees

end Peg
