import Peg.Proofs.Language.Agreement
import Peg.Proofs.Semantics.Prediction

/-!
# Rules that are written like productions

An expression mirrors a form when the two are put together in the same way: a row of expressions for
a row of forms, a call for the symbol that the rule stands for, and so on (`Peg.Expr.Mirrors`). What
is captured makes no difference, since a form says nothing of captures. Where every rule mirrors the
production of its symbol, each expression spells what its form yields (`Peg.Expr.Mirrors.agrees`),
however the rules call each other: one induction follows the spelling and the other the words of the
grammar, and neither asks for the rules to be taken in some order.
-/

namespace Peg

/-- **The expression is written like the form**, where `symbol` says for which symbol a rule
stands, if for any. -/
inductive Expr.Mirrors {N : Type} (symbol : RuleId → Option N) : Expr → Form N → Prop
  | one {e : Expr} {accepts : Char → Bool} (he : e.isClass = true)
      (h : ∀ c, e.accepts c = accepts c) : Mirrors symbol e (.one accepts)
  | empty : Mirrors symbol .empty (.word [])
  | char {c : Char} : Mirrors symbol (.char c) (.word [c])
  | text {x : String} : Mirrors symbol (.text x) (.word x.toList)
  | seq {a b : Expr} {f g} (ha : Mirrors symbol a f) (hb : Mirrors symbol b g) :
      Mirrors symbol (.seq a b) (.seq f g)
  | alt {a b : Expr} {f g} (ha : Mirrors symbol a f) (hb : Mirrors symbol b g) :
      Mirrors symbol (.alt a b) (.alt f g)
  | opt {a : Expr} {f} (ha : Mirrors symbol a f) : Mirrors symbol (.opt a) (.opt f)
  | star {a : Expr} {f} (ha : Mirrors symbol a f) : Mirrors symbol (.star a) (.many f)
  | plus {a : Expr} {f} (ha : Mirrors symbol a f) : Mirrors symbol (.plus a) (.some f)
  | call {r : Reference} {id n} (hr : r.id = some id) (hn : symbol id = some n) :
      Mirrors symbol (.call r) (.ref n)
  | capture {a : Expr} {f} (ha : Mirrors symbol a f) : Mirrors symbol (.capture a) f

variable {N : Type} {symbol : RuleId → Option N} {rules : RuleId → Option Meaning}
  {productions : N → Form N} {e : Expr} {f : Form N} {w r : List Char}

/-- A class of characters spells its characters. -/
theorem Spells.class_iff (he : e.isClass = true) :
    Spells rules e w r ↔ ∃ c, w = [c] ∧ e.accepts c = true := by
  induction e with
  | char c => simp [Expr.accepts]
  | range first last => simp [Expr.accepts]
  | any => simp [Expr.accepts]
  | alt a b iha ihb =>
    obtain ⟨ha, hb⟩ : a.isClass = true ∧ b.isClass = true := by simpa [Expr.isClass] using he
    rw [Spells.alt_iff, iha ha, ihb hb, ← exists_or]
    simp only [Expr.accepts, Bool.or_eq_true, and_or_left]
  | _ => simp [Expr.isClass] at he

namespace Expr.Mirrors

/-- Whether an expression spells a word does not depend on what it captures. -/
theorem spells_of_core (h : e.Mirrors symbol f)
    (hcore : ∀ a, a.Mirrors symbol f → (∀ b, a ≠ .capture b) → Spells rules a w r) :
    Spells rules e w r := by
  generalize he : e = e'
  induction e' generalizing e with
  | capture a ih =>
    subst he
    cases h with
    | one hc => cases hc
    | capture ha => exact .capture (ih ha rfl)
  | _ => exact hcore _ (he ▸ h) nofun

/-- What a class of characters spells is a word of the form of these characters. -/
theorem yields_one {accepts : Char → Bool} (h : Spells rules e w r) (he : e.isClass = true)
    (haccepts : ∀ c, e.accepts c = accepts c) : Yields productions (.one accepts) w := by
  obtain ⟨c, rfl, hc⟩ := (Spells.class_iff he).mp h
  exact .one (haccepts c ▸ hc)

section Agree

variable (hrules : ∀ id n, symbol id = some n →
  ∃ e, rules id = some (.tree e) ∧ e.Mirrors symbol (productions n))
include hrules

/-- What an expression spells is a word of the form that it mirrors. -/
theorem yields (h : Spells rules e w r) (he : e.Mirrors symbol f) : Yields productions f w := by
  induction h generalizing f with
  | @char c r =>
    cases he with
    | one hc haccepts =>
      have h : Spells rules (.char c) [c] r := .char
      exact yields_one h hc haccepts
    | char => exact .word
  | @range first last c r h =>
    cases he with
    | one hc haccepts =>
      have h : Spells rules (.range first last) [c] r := .range h
      exact yields_one h hc haccepts
  | @any c r =>
    cases he with
    | one hc haccepts =>
      have h : Spells rules .any [c] r := .any
      exact yields_one h hc haccepts
  | alt_left h ih =>
    cases he with
    | one hc haccepts => exact yields_one (.alt_left h) hc haccepts
    | alt ha hb => exact .alt_left (ih ha)
  | alt_right h ih =>
    cases he with
    | one hc haccepts => exact yields_one (.alt_right h) hc haccepts
    | alt ha hb => exact .alt_right (ih hb)
  -- no other expression is a class
  | empty =>
    cases he with
    | one hc => cases hc
    | empty => exact .word
  | text =>
    cases he with
    | one hc => cases hc
    | text => exact .word
  | seq _ _ iha ihb =>
    cases he with
    | one hc => cases hc
    | seq ha hb => exact .seq (iha ha) (ihb hb)
  | opt_nil =>
    cases he with
    | one hc => cases hc
    | opt => exact .opt_nil
  | opt _ ih =>
    cases he with
    | one hc => cases hc
    | opt ha => exact .opt (ih ha)
  | star_nil =>
    cases he with
    | one hc => cases hc
    | star => exact .many_nil
  | star_cons _ _ _ iha ihs =>
    cases he with
    | one hc => cases hc
    | star ha => exact .many_cons (iha ha) (ihs (.star ha))
  | plus _ _ iha ihs =>
    cases he with
    | one hc => cases hc
    | plus ha => exact .seq (iha ha) (ihs (.star ha))
  | call_tree hr hid _ ih =>
    cases he with
    | one hc => cases hc
    | call hr' hn =>
      obtain rfl := Option.some.inj (hr.symm.trans hr')
      obtain ⟨e, hid', hm⟩ := hrules _ _ hn
      rw [hid, Option.some.injEq, Meaning.tree.injEq] at hid'
      exact .ref (ih (hid' ▸ hm))
  | call_one hr hid =>
    cases he with
    | one hc => cases hc
    | call hr' hn =>
      obtain rfl := Option.some.inj (hr.symm.trans hr')
      obtain ⟨e, hid', -⟩ := hrules _ _ hn
      simp [hid] at hid'
  | capture _ ih =>
    cases he with
    | one hc => cases hc
    | capture ha => exact ih ha
  -- and no form is mirrored by what looks ahead
  | endOfInput | ahead | notAhead =>
    cases he with
    | one hc => cases hc

/-- A word of a form is spelled by every expression that mirrors the form, whatever comes after
it. -/
theorem spells (h : Yields productions f w) (he : e.Mirrors symbol f) : Spells rules e w r := by
  induction h generalizing e r with
  | one h =>
    refine he.spells_of_core fun e he hne => ?_
    cases he with
    | one hc haccepts => exact (Spells.class_iff hc).mpr ⟨_, rfl, (haccepts _).trans h⟩
    | capture => exact absurd rfl (hne _)
  | word =>
    refine he.spells_of_core fun e he hne => ?_
    cases he with
    | empty => exact .empty
    | char => exact .char
    | text => exact .text
    | capture => exact absurd rfl (hne _)
  | ref _ ih =>
    refine he.spells_of_core fun e he hne => ?_
    cases he with
    | call hr hn =>
      obtain ⟨e, hid, hm⟩ := hrules _ _ hn
      exact .call_tree hr hid (ih hm)
    | capture => exact absurd rfl (hne _)
  | seq _ hb iha ihb =>
    refine he.spells_of_core fun e he hne => ?_
    cases he with
    | seq ha hb => exact .seq (iha ha) (ihb hb)
    | plus ha => exact .plus (iha ha) (ihb (.star ha))
    | capture => exact absurd rfl (hne _)
  | alt_left _ ih =>
    refine he.spells_of_core fun e he hne => ?_
    cases he with
    | alt ha hb => exact .alt_left (ih ha)
    | capture => exact absurd rfl (hne _)
  | alt_right _ ih =>
    refine he.spells_of_core fun e he hne => ?_
    cases he with
    | alt ha hb => exact .alt_right (ih hb)
    | capture => exact absurd rfl (hne _)
  | opt_nil =>
    refine he.spells_of_core fun e he hne => ?_
    cases he with
    | opt => exact .opt_nil
    | capture => exact absurd rfl (hne _)
  | opt _ ih =>
    refine he.spells_of_core fun e he hne => ?_
    cases he with
    | opt ha => exact .opt (ih ha)
    | capture => exact absurd rfl (hne _)
  | many_nil =>
    refine he.spells_of_core fun e he hne => ?_
    cases he with
    | star => exact .star_nil
    | capture => exact absurd rfl (hne _)
  | @many_cons a u v _ _ iha ihb =>
    refine he.spells_of_core fun e he hne => ?_
    cases he with
    | star ha =>
      -- a round that spells nothing can be left out
      by_cases hu : u = []
      · rw [hu, List.nil_append]
        exact ihb (.star ha)
      · exact .star_cons hu (iha ha) (ihb (.star ha))
    | capture => exact absurd rfl (hne _)

/-- **An expression agrees with the form that it mirrors.** -/
theorem agrees (he : e.Mirrors symbol f) : Agrees rules productions e f :=
  fun _ _ => ⟨fun h => yields hrules h he, fun h => spells hrules h he⟩

end Agree

end Expr.Mirrors

end Peg
