import Peg.Calc.Evaluate
import Peg.Proofs.Calc.Lexing

/-!
# The trees of arithmetic expressions

What an arithmetic expression means is a tree: numbers, values with the other sign, and operators
with their two operands. `Peg.Calc.Parses` says which tokens are to be read as which tree. Operators
of one level are taken from left to right, those of the higher level bind tighter than those of the
lower one, and a minus sign before a value binds tightest. The value of a tree is what its
operations make of its numbers, whatever the operations are (`Peg.Calc.Tree.value`).

A word of the grammar is a row of tokens that are to be read as a tree, behind some blanks
(`Peg.Calc.yields_program_iff`).
-/

namespace Peg

namespace Calc

/-- The levels of operators, and the operands below them. -/
inductive Level
  | sum | product | operand
deriving DecidableEq

/-- The level of what stands on the right of an operator. -/
def Level.next : Level → Level
  | sum => product
  | product | operand => operand

/-- An operator with two operands. -/
inductive Operator
  | plus | minus | times | divide
deriving DecidableEq

namespace Operator

/-- The token of the operator. -/
def token : Operator → Token
  | plus => .plus
  | minus => .minus
  | times => .times
  | divide => .divide

/-- The level of the operator. -/
def level : Operator → Level
  | plus | minus => .sum
  | times | divide => .product

/-- What the operator does. -/
def apply {α : Type} (A : Arithmetic α) : Operator → α → α → α
  | plus => A.add
  | minus => A.sub
  | times => A.mul
  | divide => A.div

end Operator

/-- What an arithmetic expression means. -/
inductive Tree
  /-- A number as it is written. -/
  | number (text : String)
  /-- A value with the other sign. -/
  | negative (t : Tree)
  /-- An operator and its operands. -/
  | binary (op : Operator) (left right : Tree)
deriving DecidableEq

/-- The value of a tree, if its numbers have values. -/
def Tree.value {α : Type} (A : Arithmetic α) : Tree → Option α
  | number text => A.ofText text
  | negative t => (t.value A).map A.neg
  | binary op left right =>
    (left.value A).bind fun v => (right.value A).map fun w => op.apply A v w

/-- **The tokens are to be read as the tree**, at the given level. -/
inductive Parses : Level → List Token → Tree → Prop
  | number {s} : Parses .operand [.number s] (.number s)
  | minus {ts t} (h : Parses .operand ts t) : Parses .operand (.minus :: ts) (.negative t)
  | parentheses {ts t} (h : Parses .sum ts t) :
      Parses .operand (.opening :: (ts ++ [.closing])) t
  | product {ts t} (h : Parses .operand ts t) : Parses .product ts t
  | sum {ts t} (h : Parses .product ts t) : Parses .sum ts t
  | binary {op ts us left right} (hleft : Parses op.level ts left)
      (hright : Parses op.level.next us right) :
      Parses op.level (ts ++ op.token :: us) (.binary op left right)

variable {b u v w : List Char} {ts us : List Token} {t : Tree} {l : Level} {op : Operator}

theorem valid_token (op : Operator) : op.token.Valid := by
  cases op <;> trivial

theorem isNumber_token (op : Operator) : op.token.isNumber = false := by
  cases op <;> rfl

/-- Where the numbers have values, a tree has one. -/
theorem Parses.exists_value {α : Type} {A : Arithmetic α} (h : Parses l ts t)
    (hts : ∀ s, .number s ∈ ts → (A.ofText s).isSome = true) : ∃ v, t.value A = some v := by
  induction h with
  | number => exact Option.isSome_iff_exists.mp (hts _ List.mem_cons_self)
  | minus _ ih =>
    obtain ⟨v, hv⟩ := ih fun s hs => hts s (List.mem_cons_of_mem _ hs)
    exact ⟨_, by rw [Tree.value, hv, Option.map_some]⟩
  | parentheses _ ih => exact ih fun s hs => hts s (by simp [hs])
  | product _ ih => exact ih hts
  | sum _ ih => exact ih hts
  | binary _ _ ihl ihr =>
    obtain ⟨v, hv⟩ := ihl fun s hs => hts s (List.mem_append_left _ hs)
    obtain ⟨w, hw⟩ := ihr fun s hs => hts s (List.mem_append_right _ (List.mem_cons_of_mem _ hs))
    exact ⟨_, by rw [Tree.value, hv, Option.bind_some, hw, Option.map_some]⟩

/-! ### Words of trees are words of the grammar -/

/-- The symbol of a level. -/
def Level.symbol : Level → Symbol
  | sum => .expr
  | product => .term
  | operand => .unary

/-- The operators of a level as they are written. -/
def Level.operators : Level → List Char
  | sum => ['+', '-']
  | product => ['*', '/']
  | operand => []

/-- The production of a level of operators. -/
theorem productions_level (op : Operator) :
    productions op.level.symbol = operandsOf op.level.next.symbol op.level.operators := by
  cases op <;> rfl

theorem exists_chars_token (op : Operator) : ∃ c ∈ op.level.operators, op.token.chars = [c] := by
  cases op <;> exact ⟨_, by decide, rfl⟩

/-- **What is to be read as a tree is a word of the grammar.** -/
theorem Parses.yields (h : Parses l ts t) (hw : Lexes w ts) :
    Yields productions (.ref l.symbol) w := by
  induction h generalizing w with
  | number =>
    obtain ⟨b, rfl, hb, ht⟩ := hw.of_singleton
    exact yields_number ht hb
  | minus _ ih =>
    obtain ⟨b, v, rfl, hb, -, hv⟩ := hw.of_cons
    have hyields : Yields productions (.ref .unary) ('-' :: (b ++ v)) := yields_minus hb (ih hv)
    exact hyields
  | parentheses _ ih =>
    obtain ⟨b, v, rfl, hb, -, hv⟩ := hw.of_cons
    obtain ⟨x, y, rfl, hx, hy⟩ := hv.of_append
    obtain ⟨b', rfl, hb', -⟩ := hy.of_singleton
    exact yields_parentheses hb (ih hx) hb'
  | product _ ih => exact yields_term (ih hw)
  | sum _ ih => exact yields_expr (ih hw)
  | @binary op ts us left right _ _ ihl ihr =>
    obtain ⟨x, y, rfl, hx, hy⟩ := hw.of_append
    obtain ⟨b, v, rfl, hb, -, hv⟩ := hy.of_cons
    obtain ⟨c, hc, hchars⟩ := exists_chars_token op
    have hleft := Yields.ref_iff.mp (ihl hx)
    rw [productions_level] at hleft
    rw [hchars, List.singleton_append, Yields.ref_iff, productions_level]
    exact yields_operands hleft hc hb (ihr hv)

/-! ### Words of the grammar are words of trees -/

/-- The word is a row of tokens that are to be read as a tree. -/
def Parsed (l : Level) (w : List Char) : Prop := ∃ ts t, Lexes w ts ∧ Parses l ts t

/-- What a word of each symbol is. -/
def Symbol.Meant : Symbol → List Char → Prop
  | .program, w => ∃ b u, w = b ++ u ∧ Blank b ∧ Parsed .sum u
  | .expr, w => Parsed .sum w
  | .term, w => Parsed .product w
  | .unary, w | .factor, w => Parsed .operand w
  | .number, w => Numeral w
  | .ws, w => Blank w

/-- One more operator with its operand is read as part of the tree. -/
theorem Parsed.append (hu : Parsed op.level u) {c : Char} (hc : op.token.chars = [c])
    (hb : Blank b) (hv : Parsed op.level.next v) : Parsed op.level (u ++ c :: (b ++ v)) := by
  obtain ⟨ts, t, hlex, ht⟩ := hu
  obtain ⟨us, t', hlex', ht'⟩ := hv
  have hright : Lexes (c :: (b ++ v)) (op.token :: us) := by
    rw [← List.singleton_append, ← hc]
    exact .cons (valid_token op) hb (fun h => by simp [isNumber_token] at h) hlex'
  exact ⟨_, _, hlex.append hright (hright.stops (isNumber_token op)), .binary ht ht'⟩

/-- What the production of a level reads is a tree, with the operators taken from left to right. -/
theorem parsed_of_operandsOf {n : Symbol} {operators : List Char} {l : Level}
    (hn : ∀ w, n.Meant w → Parsed l.next w) (hsingle : ∀ w, Parsed l.next w → Parsed l w)
    (hop : ∀ c ∈ operators, ∃ op : Operator, op.level = l ∧ op.token.chars = [c])
    (h : (operandsOf n operators).Reads Symbol.Meant w) : Parsed l w := by
  obtain ⟨u, _, rfl, hu, ws, rfl, hws⟩ := h
  have hparsed : Parsed l u := hsingle u (hn u hu)
  clear hu
  induction ws generalizing u with
  | nil => simpa using hparsed
  | cons x ws ih =>
    obtain ⟨hx, hrest⟩ := List.forall_mem_cons.mp hws
    obtain ⟨_, _, rfl, ⟨c, rfl, hc⟩, b, v, rfl, hb, hv⟩ := hx
    obtain ⟨op, rfl, hchars⟩ := hop c (by simpa using hc)
    have hmore : Parsed op.level (u ++ c :: (b ++ v)) := hparsed.append hchars hb (hn v hv)
    rw [List.flatten_cons, ← List.append_assoc]
    exact ih _ hrest hmore

/-- A number or an expression in parentheses is read as one operand. -/
theorem parsed_factor (hu : Form.Reads Symbol.Meant (.alt (.ref .number)
      (.seq (.word ['(']) (.seq (.ref .ws) (.seq (.ref .expr) (.word [')']))))) u)
    (hb : Blank b) : Parsed .operand (u ++ b) := by
  rcases hu with hu | ⟨_, _, rfl, rfl, b', _, rfl, hb', v, _, rfl, ⟨ts, t, hv, ht⟩, rfl⟩
  · have hchars : (Token.number (String.ofList u)).chars = u := String.toList_ofList
    have hvalid : (Token.number (String.ofList u)).Valid := by
      rwa [Token.Valid, String.toList_ofList]
    rw [← hchars]
    exact ⟨_, _, .singleton hvalid hb, .number⟩
  · have hclosing : Lexes (')' :: b) [.closing] := .singleton (t := .closing) trivial hb
    have hinner : Lexes (v ++ ')' :: b) (ts ++ [.closing]) :=
      hv.append hclosing (stops_cons.mpr rfl)
    have hword : Lexes ('(' :: (b' ++ (v ++ ')' :: b))) (.opening :: (ts ++ [.closing])) :=
      .cons (t := .opening) trivial hb' nofun hinner
    refine ⟨_, _, ?_, .parentheses ht⟩
    simpa using hword

/-- **Every word of the grammar is to be read as a tree.** -/
theorem meant_of_yields {n : Symbol} (h : Yields productions (.ref n) w) : n.Meant w := by
  refine Yields.least (P := Symbol.Meant) (fun n w hyields hreads => ?_) h
  cases n with
  | program =>
    obtain ⟨b, u, rfl, hb, hu⟩ := hreads
    exact ⟨b, u, rfl, hb, hu⟩
  | expr =>
    refine parsed_of_operandsOf (fun _ => id) (fun _ ⟨ts, t, hw, ht⟩ => ⟨ts, t, hw, .sum ht⟩) ?_
      hreads
    intro c hc
    rcases List.mem_cons.mp hc with rfl | hc
    · exact ⟨.plus, rfl, rfl⟩
    · exact ⟨.minus, rfl, by rw [List.mem_singleton.mp hc]; rfl⟩
  | term =>
    refine parsed_of_operandsOf (fun _ => id) (fun _ ⟨ts, t, hw, ht⟩ => ⟨ts, t, hw, .product ht⟩) ?_
      hreads
    intro c hc
    rcases List.mem_cons.mp hc with rfl | hc
    · exact ⟨.times, rfl, rfl⟩
    · exact ⟨.divide, rfl, by rw [List.mem_singleton.mp hc]; rfl⟩
  | unary =>
    rcases hreads with ⟨_, _, rfl, rfl, b, v, rfl, hb, ts, t, hv, ht⟩ | h
    · exact ⟨_, _, .cons (t := .minus) trivial hb nofun hv, .minus ht⟩
    · exact h
  | factor =>
    obtain ⟨u, b, rfl, hu, hb⟩ := hreads
    exact parsed_factor hu hb
  | number => exact hyields
  | ws => exact ws_iff.mp hyields

/-- **Tokens are a word of the grammar exactly if they are to be read as a tree.** -/
theorem yields_program_iff (hb : Blank b) (hw : Lexes w ts) :
    Yields productions (.ref .program) (b ++ w) ↔ ∃ t, Parses .sum ts t := by
  constructor
  · intro h
    obtain ⟨b', w', heq, hb', us, t, hlex, ht⟩ := meant_of_yields h
    obtain rfl := hw.unique_of_append hlex hb hb' heq
    exact ⟨t, ht⟩
  · rintro ⟨t, ht⟩
    exact .ref (.seq (ws_iff.mpr hb) (ht.yields hw))

end Calc

end Peg
