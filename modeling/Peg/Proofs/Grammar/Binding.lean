import Mathlib.Logic.Relation
import Peg.Grammar.Build

/-!
# Trees and where their calls lead

Two questions about a tree take all of it: which expressions stand in it, at whatever depth
(`Peg.Expr.Contains`), and which calls there are from left to right (`Peg.Expr.calls`). The nodes and
the references that a grammar is built with answer them (`Peg.Expr.mem_nodes_iff`,
`Peg.Expr.references_eq_calls`).

A tree is bound to a list of names by leading every call to the number under which its name stands
there (`Peg.Expr.Led`). If names are all different this can be done in one way at most
(`Peg.Expr.Led.eq_bind`), and `Peg.Expr.bind` does it where every call has such a number
(`Peg.Expr.led_bind`).
-/

namespace Peg

namespace Expr

/-! ### What stands in a tree -/

/-- The expressions directly below the node at the top. -/
def children : Expr → List Expr
  | seq a b | alt a b => [a, b]
  | opt a | star a | plus a | ahead a | notAhead a | capture a => [a]
  | text _ | char _ | endOfInput | range _ _ | any | call _ | empty => []

/-- The second expression stands in the first, at whatever depth. -/
def Contains : Expr → Expr → Prop :=
  Relation.ReflTransGen fun e a => a ∈ e.children

theorem nodes_eq (e : Expr) : e.nodes = e :: e.children.flatMap nodes := by
  cases e <;> simp [nodes, children]

/-- What holds of an expression if it holds of those below it holds of all. -/
theorem induction_children {P : Expr → Prop} (h : ∀ e, (∀ a ∈ e.children, P a) → P e) (e : Expr) :
    P e := by
  induction e <;> exact h _ (by simp [children, *])

/-- **The nodes of a tree are what stands in it.** -/
theorem mem_nodes_iff {e n : Expr} : n ∈ e.nodes ↔ e.Contains n := by
  induction e using induction_children with
  | h e ih =>
    rw [nodes_eq, List.mem_cons, List.mem_flatMap, Contains, Relation.ReflTransGen.cases_head_iff]
    constructor
    · rintro (rfl | ⟨a, ha, hn⟩)
      · exact .inl rfl
      · exact .inr ⟨a, ha, (ih a ha).mp hn⟩
    · rintro (rfl | ⟨a, ha, hn⟩)
      · exact .inl rfl
      · exact .inr ⟨a, ha, (ih a ha).mpr hn⟩

theorem mem_nodes_self (e : Expr) : e ∈ e.nodes := mem_nodes_iff.mpr .refl

/-- The calls in the tree, from left to right. -/
def calls : Expr → List Reference
  | seq a b | alt a b => a.calls ++ b.calls
  | opt a | star a | plus a | ahead a | notAhead a | capture a => a.calls
  | call r => [r]
  | text _ | char _ | endOfInput | range _ _ | any | empty => []

theorem references_eq_calls (e : Expr) : e.references = e.calls := by
  induction e with
  | seq a b iha ihb => simp [← iha, ← ihb, references, nodes, calls]
  | alt a b iha ihb => simp [← iha, ← ihb, references, nodes, calls]
  | opt a ih => exact ih
  | star a ih => exact ih
  | plus a ih => exact ih
  | ahead a ih => exact ih
  | notAhead a ih => exact ih
  | capture a ih => exact ih
  | _ => rfl

/-! ### Where calls lead -/

/-- **The second tree is the first with every call led to the rule of its name**, the one that has
this name by `name?`, wherever it led before; nothing else is changed. -/
inductive Led (name? : RuleId → Option String) : Expr → Expr → Prop
  | call {r : Reference} {id : RuleId} (h : name? id = some r.name) :
    Led name? (call r) (call ⟨r.name, some id⟩)
  | seq {a b a' b' : Expr} (ha : Led name? a a') (hb : Led name? b b') :
    Led name? (seq a b) (seq a' b')
  | alt {a b a' b' : Expr} (ha : Led name? a a') (hb : Led name? b b') :
    Led name? (alt a b) (alt a' b')
  | opt {a a' : Expr} (ha : Led name? a a') : Led name? (opt a) (opt a')
  | star {a a' : Expr} (ha : Led name? a a') : Led name? (star a) (star a')
  | plus {a a' : Expr} (ha : Led name? a a') : Led name? (plus a) (plus a')
  | ahead {a a' : Expr} (ha : Led name? a a') : Led name? (ahead a) (ahead a')
  | notAhead {a a' : Expr} (ha : Led name? a a') : Led name? (notAhead a) (notAhead a')
  | capture {a a' : Expr} (ha : Led name? a a') : Led name? (capture a) (capture a')
  | text (s : String) : Led name? (text s) (text s)
  | char (c : Char) : Led name? (char c) (char c)
  | endOfInput : Led name? endOfInput endOfInput
  | range (first last : Char) : Led name? (range first last) (range first last)
  | any : Led name? any any
  | empty : Led name? empty empty

variable {name? : RuleId → Option String} {find : String → Option RuleId} {e e' : Expr}

/-- A bound tree is what binding gives, if names are looked up the other way round. -/
theorem Led.eq_bind (hfind : ∀ name id, name? id = some name → find name = some id)
    (h : Led name? e e') : e' = e.bind find := by
  induction h with
  | @call r id h => rw [bind, hfind r.name id h]
  | seq _ _ iha ihb => rw [bind, iha, ihb]
  | alt _ _ iha ihb => rw [bind, iha, ihb]
  | opt _ ih => rw [bind, ih]
  | star _ ih => rw [bind, ih]
  | plus _ ih => rw [bind, ih]
  | ahead _ ih => rw [bind, ih]
  | notAhead _ ih => rw [bind, ih]
  | capture _ ih => rw [bind, ih]
  | _ => rfl

/-- Binding leads every call to the rule of its name, if it finds one for each. -/
theorem led_bind (hfind : ∀ name id, find name = some id → name? id = some name)
    (hcalls : ∀ r ∈ e.calls, (find r.name).isSome) : Led name? e (e.bind find) := by
  induction e with
  | seq a b iha ihb =>
    obtain ⟨ha, hb⟩ := List.forall_mem_append.mp hcalls
    exact .seq (iha ha) (ihb hb)
  | alt a b iha ihb =>
    obtain ⟨ha, hb⟩ := List.forall_mem_append.mp hcalls
    exact .alt (iha ha) (ihb hb)
  | opt a ih => exact .opt (ih hcalls)
  | star a ih => exact .star (ih hcalls)
  | plus a ih => exact .plus (ih hcalls)
  | ahead a ih => exact .ahead (ih hcalls)
  | notAhead a ih => exact .notAhead (ih hcalls)
  | capture a ih => exact .capture (ih hcalls)
  | call r =>
    obtain ⟨id, hid⟩ := Option.isSome_iff_exists.mp (hcalls r (List.mem_singleton_self r))
    rw [bind, hid]
    exact .call (hfind r.name id hid)
  | text s => exact .text s
  | char c => exact .char c
  | endOfInput => exact .endOfInput
  | range first last => exact .range first last
  | any => exact .any
  | empty => exact .empty

end Expr

namespace Body

/-- The calls in a tree; a procedure has none. -/
def calls : Body → List Reference
  | tree e => e.calls
  | native _ => []

theorem references_eq_calls (b : Body) : b.references = b.calls := by
  cases b with
  | tree e => exact e.references_eq_calls
  | native start => rfl

/-- A tree with its calls led to the rules of their names, or the same procedure. -/
inductive Led (name? : RuleId → Option String) : Body → Body → Prop
  | tree {e e' : Expr} (h : e.Led name? e') : Led name? (tree e) (tree e')
  | native (start : State → Script) : Led name? (native start) (native start)

variable {name? : RuleId → Option String} {find : String → Option RuleId} {b b' : Body}

theorem Led.eq_bind (hfind : ∀ name id, name? id = some name → find name = some id)
    (h : Led name? b b') : b' = b.bind find := by
  cases h with
  | tree h => rw [bind, h.eq_bind hfind]
  | native start => rfl

theorem led_bind (hfind : ∀ name id, find name = some id → name? id = some name)
    (hcalls : ∀ r ∈ b.calls, (find r.name).isSome) : Led name? b (b.bind find) := by
  cases b with
  | tree e => exact .tree (Expr.led_bind hfind hcalls)
  | native start => exact .native start

end Body

end Peg
