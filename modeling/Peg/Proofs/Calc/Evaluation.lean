import Peg.Proofs.Calc.Syntax

/-!
# Evaluation and trees

The evaluation of a list of tokens goes through it once, and has a value exactly if the tokens are to
be read as a tree; then it is the value of the tree (`Peg.Calc.Arithmetic.evaluate_eq_some`). There is
one such tree at most (`Peg.Calc.Parses.unique`), since the values may be taken to be the trees
themselves.

Where a level of operators has been read, what follows is taken into account only as far as it goes on
with an operator of the level or of a higher one. So tokens that are to be read as a tree are read
as this tree in front of any others (`Peg.Calc.Arithmetic.reader_of_parses`), with what follows
left to go on with.

The bounds in the evaluation are none: with a greater one there is the same result
(`Peg.Calc.Arithmetic.sum_operand_of_le`).
-/

namespace Peg

namespace Calc

variable {α : Type} (A : Arithmetic α) {l : Level} {op : Operator} {t : Tree} {v w : α}
  {ts us rest : List Token} {bound bound' : Nat}

namespace Arithmetic

/-- What an operator of a level does. -/
def operatorAt : Level → Token → Option (α → α → α)
  | .sum => A.sumOperator
  | .product => A.productOperator
  | .operand => fun _ => none

/-- What reads the operands with operators of a level and the levels above. -/
def reader (bound : Nat) : Level → List Token → Taken α
  | .sum => A.sum (A.operand bound)
  | .product => level A.productOperator (A.operand bound)
  | .operand => A.operand bound

/-- Goes on from a value with the operators of a level; there are none between operands. -/
def goOn (bound : Nat) : Level → α → List Token → Taken α
  | .operand, v, ts => some (v, ts)
  | l, v, ts => chain (A.operatorAt l) (A.reader bound l.next) ts.length v ts

variable {A}

theorem operatorAt_token (op : Operator) : A.operatorAt op.level op.token = some (op.apply A) := by
  cases op <;> rfl

theorem exists_operator {token : Token} {f : α → α → α} (h : A.operatorAt l token = some f) :
    ∃ op : Operator, op.level = l ∧ op.token = token ∧ f = op.apply A := by
  cases l <;> cases token <;> simp [operatorAt, sumOperator, productOperator] at h
  · exact ⟨.plus, rfl, rfl, h.symm⟩
  · exact ⟨.minus, rfl, rfl, h.symm⟩
  · exact ⟨.times, rfl, rfl, h.symm⟩
  · exact ⟨.divide, rfl, rfl, h.symm⟩

theorem reader_level (op : Operator) : A.reader bound op.level =
    level (A.operatorAt op.level) (A.reader bound op.level.next) := by
  cases op <;> rfl

theorem goOn_level (op : Operator) (v : α) (ts : List Token) : A.goOn bound op.level v ts =
    chain (A.operatorAt op.level) (A.reader bound op.level.next) ts.length v ts := by
  cases op <;> rfl

/-- Where no operator of the level follows, there is nothing to go on with. -/
theorem goOn_of_none (h : ∀ token, rest.head? = some token → A.operatorAt l token = none) :
    A.goOn bound l v rest = some (v, rest) := by
  have hchain (f : List Token → Taken α) :
      chain (A.operatorAt l) f rest.length v rest = some (v, rest) := by
    cases rest with
    | nil => rfl
    | cons token rest => rw [List.length_cons, chain, h token rfl]
  cases l with
  | operand => rfl
  | sum => exact hchain _
  | product => exact hchain _

/-! ### What is evaluated is a tree -/

/-- What is read at a level is a tree, and the value is that of the tree. -/
def ReadsTrees (A : Arithmetic α) (l : Level) (f : List Token → Taken α) : Prop :=
  ∀ ts v rest, f ts = some (v, rest) →
    ∃ us t, ts = us ++ rest ∧ Parses l us t ∧ t.value A = some v

/-- Going on from a tree, with operators of its level, comes to a tree. -/
theorem parses_of_chain {f : List Token → Taken α} (hf : ReadsTrees A l.next f)
    (h : chain (A.operatorAt l) f bound v ts = some (w, rest)) (ht : Parses l us t)
    (hv : t.value A = some v) :
    ∃ us' t', us ++ ts = us' ++ rest ∧ Parses l us' t' ∧ t'.value A = some w := by
  induction bound generalizing v ts us t with
  | zero =>
    rw [chain] at h
    · obtain ⟨rfl, rfl⟩ := Prod.mk.inj (Option.some.inj h)
      exact ⟨us, t, rfl, ht, hv⟩
    · simp
  | succ bound ih =>
    cases ts with
    | nil =>
      obtain ⟨rfl, rfl⟩ := Prod.mk.inj (Option.some.inj h)
      exact ⟨us, t, rfl, ht, hv⟩
    | cons token ts =>
      rw [chain] at h
      rcases hop : A.operatorAt l token with _ | apply
      · rw [hop] at h
        obtain ⟨rfl, rfl⟩ := Prod.mk.inj (Option.some.inj h)
        exact ⟨us, t, rfl, ht, hv⟩
      · rcases hread : f ts with _ | ⟨x, after⟩
        · simp [hop, hread] at h
        · simp only [hop, hread] at h
          obtain ⟨op, rfl, rfl, rfl⟩ := exists_operator hop
          obtain ⟨ys, t', rfl, ht', hx⟩ := hf _ _ _ hread
          -- the operator and its operand become part of the tree
          have hvalue : (Tree.binary op t t').value A = some (op.apply A v x) := by
            rw [Tree.value, hv, Option.bind_some, hx, Option.map_some]
          obtain ⟨us', t'', heq, hparses⟩ := ih h (ht.binary ht') hvalue
          exact ⟨us', t'', by simpa using heq, hparses⟩

theorem readsTrees_level {f : List Token → Taken α} (hf : ReadsTrees A l.next f)
    (hsingle : ∀ us t, Parses l.next us t → Parses l us t) :
    ReadsTrees A l (level (A.operatorAt l) f) := by
  intro ts w rest h
  rw [level] at h
  split at h
  · rename_i v after hread
    obtain ⟨us, t, rfl, ht, hv⟩ := hf _ _ _ hread
    exact parses_of_chain hf h (hsingle _ _ ht) hv
  · simp at h

theorem readsTrees_sum {f : List Token → Taken α} (hf : ReadsTrees A .operand f) :
    ReadsTrees A .sum (A.sum f) :=
  readsTrees_level (l := .sum) (readsTrees_level (l := .product) hf fun _ _ => .product)
    fun _ _ => .sum

theorem operand_zero (ts : List Token) : A.operand 0 ts = none := by
  rw [operand] <;> simp

theorem operand_nil (bound : Nat) : A.operand bound [] = none := by
  cases bound <;> rw [operand] <;> simp

theorem operand_minus (bound : Nat) (ts : List Token) : A.operand (bound + 1) (.minus :: ts) =
    (A.operand bound ts).map fun (v, rest) => (A.neg v, rest) := by
  rw [operand]

theorem operand_opening (h : A.sum (A.operand bound) ts = some (v, .closing :: rest)) :
    A.operand (bound + 1) (.opening :: ts) = some (v, rest) := by
  rw [operand, h]

/-- **Whatever is read as an operand is a tree.** -/
theorem readsTrees_operand (bound : Nat) : ReadsTrees A .operand (A.operand bound) := by
  induction bound with
  | zero =>
    intro ts v rest h
    simp [operand_zero] at h
  | succ bound ih =>
    intro ts v rest h
    cases ts with
    | nil => simp [operand_nil] at h
    | cons token ts =>
      cases token with
      | minus =>
        rw [operand_minus] at h
        obtain ⟨⟨w, after⟩, hread, heq⟩ := Option.map_eq_some_iff.mp h
        obtain ⟨rfl, rfl⟩ := Prod.mk.inj heq
        obtain ⟨us, t, rfl, ht, hw⟩ := ih _ _ _ hread
        exact ⟨.minus :: us, .negative t, rfl, .minus ht, by rw [Tree.value, hw, Option.map_some]⟩
      | opening =>
        rw [operand] at h
        split at h
        · rename_i w after hread
          obtain ⟨rfl, rfl⟩ := Prod.mk.inj (Option.some.inj h)
          obtain ⟨us, t, rfl, ht, hw⟩ := readsTrees_sum ih _ _ _ hread
          exact ⟨.opening :: (us ++ [.closing]), t, by simp, .parentheses ht, hw⟩
        · simp at h
      | number s =>
        rw [operand] at h
        obtain ⟨w, hw, heq⟩ := Option.map_eq_some_iff.mp h
        obtain ⟨rfl, rfl⟩ := Prod.mk.inj heq
        exact ⟨[.number s], .number s, rfl, .number, hw⟩
      | _ => simp [operand] at h

/-! ### More of a bound makes no difference -/

theorem ReadsTrees.length_le {f : List Token → Taken α} (hf : ReadsTrees A l f)
    (h : f ts = some (v, rest)) : rest.length ≤ ts.length := by
  obtain ⟨us, t, rfl, -, -⟩ := hf _ _ _ h
  rw [List.length_append]
  omega

section Bound

variable {operator : Token → Option (α → α → α)} {f g : List Token → Taken α}

/-- Going on makes at most as many rounds as there are tokens, and asks for operands among these
tokens only. -/
theorem chain_congr (hf : ReadsTrees A l f) {n : Nat} (hfg : ∀ us, us.length ≤ n → f us = g us)
    (hn : ts.length ≤ n) (h : ts.length ≤ bound) (h' : ts.length ≤ bound') (v : α) :
    chain operator f bound v ts = chain operator g bound' v ts := by
  induction bound generalizing bound' v ts with
  | zero =>
    obtain rfl := List.eq_nil_of_length_eq_zero (Nat.le_zero.mp h)
    cases bound' <;> rfl
  | succ bound ih =>
    cases ts with
    | nil => cases bound' <;> rfl
    | cons token ts =>
      rw [List.length_cons] at hn h h'
      cases bound' with
      | zero => omega
      | succ bound' =>
        rw [chain, chain, ← hfg ts (by omega)]
        rcases operator token with _ | op
        · rfl
        · rcases hread : f ts with _ | ⟨w, rest⟩
          · rfl
          · have := hf.length_le hread
            exact ih (by omega) (by omega) (by omega) (op v w)

theorem level_congr (hf : ReadsTrees A l f) (hfg : ∀ us, us.length ≤ ts.length → f us = g us) :
    level operator f ts = level operator g ts := by
  rw [level, level, ← hfg ts (Nat.le_refl _)]
  rcases hread : f ts with _ | ⟨v, rest⟩
  · rfl
  · exact chain_congr hf hfg (hf.length_le hread) (Nat.le_refl _) (Nat.le_refl _) v

theorem sum_congr (hf : ReadsTrees A .operand f)
    (hfg : ∀ us, us.length ≤ ts.length → f us = g us) : A.sum f ts = A.sum g ts := by
  refine level_congr (l := .product) (readsTrees_level hf fun _ _ => .product) fun us hus => ?_
  exact level_congr hf fun xs hxs => hfg xs (by omega)

end Bound

theorem operand_of_le (h : ts.length ≤ bound) (h' : ts.length ≤ bound') :
    A.operand bound ts = A.operand bound' ts := by
  induction bound generalizing bound' ts with
  | zero =>
    obtain rfl := List.eq_nil_of_length_eq_zero (Nat.le_zero.mp h)
    rw [operand_nil, operand_nil]
  | succ bound ih =>
    cases ts with
    | nil => rw [operand_nil, operand_nil]
    | cons token ts =>
      rw [List.length_cons] at h h'
      cases bound' with
      | zero => omega
      | succ bound' =>
        cases token with
        | minus =>
          have hnext : A.operand bound ts = A.operand bound' ts := ih (by omega) (by omega)
          rw [operand_minus, operand_minus, hnext]
        | opening =>
          have hsum : A.sum (A.operand bound) ts = A.sum (A.operand bound') ts :=
            sum_congr (readsTrees_operand bound) fun us hus => ih (by omega) (by omega)
          rw [operand, operand, hsum]
        | _ => simp only [operand]

/-- **The bound makes no difference**, if it is at least the number of tokens. -/
theorem sum_operand_of_le (h : ts.length ≤ bound) :
    A.sum (A.operand bound) ts = A.sum (A.operand ts.length) ts :=
  sum_congr (readsTrees_operand bound) fun _ hus => operand_of_le (by omega) hus

/-! ### What is a tree is evaluated -/

/-- After an operand of a level, the level is gone on with. -/
theorem reader_of_next (op : Operator) (h : A.reader bound op.level.next ts = some (v, rest)) :
    A.reader bound op.level ts = A.goOn bound op.level v rest := by
  rw [reader_level, level, h, goOn_level]

/-- Going on takes an operator of the level with its operand. -/
theorem goOn_cons (op : Operator) (h : A.reader bound op.level.next ts = some (w, rest)) (v : α) :
    A.goOn bound op.level v (op.token :: ts) = A.goOn bound op.level (op.apply A v w) rest := by
  have hreads : ReadsTrees A op.level.next (A.reader bound op.level.next) := by
    cases op with
    | plus | minus => exact readsTrees_level (readsTrees_operand bound) fun _ _ => .product
    | times | divide => exact readsTrees_operand bound
  rw [goOn_level, goOn_level, List.length_cons, chain, operatorAt_token]
  simp only [h]
  exact chain_congr hreads (fun _ _ => rfl) (Nat.le_refl _) (hreads.length_le h) (Nat.le_refl _) _

/-- **A tree is read, whatever follows**, and what follows is gone on with. In front of a sum there
is no operator of the higher level to go on with. -/
theorem reader_of_parses (h : Parses l us t) (hv : t.value A = some v) (hb : us.length ≤ bound)
    (hrest : l = .sum → ∀ token, rest.head? = some token → A.operatorAt .product token = none) :
    A.reader bound l (us ++ rest) = A.goOn bound l v rest := by
  induction h generalizing v bound rest with
  | number =>
    cases bound with
    | zero => simp at hb
    | succ bound =>
      have htext : A.ofText _ = some v := hv
      change A.operand (bound + 1) _ = _
      rw [List.singleton_append, operand, htext]
      rfl
  | @minus ts t _ ih =>
    cases bound with
    | zero => simp at hb
    | succ bound =>
      obtain ⟨w, hw, rfl⟩ := Option.map_eq_some_iff.mp hv
      have hread : A.operand bound (ts ++ rest) = some (w, rest) :=
        ih hw (by simpa using hb) nofun
      change A.operand (bound + 1) _ = _
      rw [List.cons_append, operand_minus, hread]
      rfl
  | @parentheses ts t _ ih =>
    cases bound with
    | zero => simp at hb
    | succ bound =>
      -- the closing parenthesis is no operator, so the sum in front of it is not gone on with
      have hclosing (l : Level) (token : Token)
          (h : (Token.closing :: rest).head? = some token) : A.operatorAt l token = none := by
        obtain rfl := Option.some.inj h
        cases l <;> rfl
      have hread : A.sum (A.operand bound) (ts ++ .closing :: rest) = some (v, .closing :: rest) :=
        (ih hv (by simp at hb; omega) fun _ => hclosing .product).trans
          (goOn_of_none (hclosing .sum))
      change A.operand (bound + 1) _ = _
      rw [List.cons_append, List.append_assoc]
      exact operand_opening hread
  | product _ ih => exact reader_of_next .times (ih hv hb nofun)
  | sum _ ih =>
    exact reader_of_next .plus ((ih hv hb nofun).trans (goOn_of_none (hrest rfl)))
  | @binary op ts us left right _ _ ihl ihr =>
    obtain ⟨x, hx, hv⟩ := Option.bind_eq_some_iff.mp hv
    obtain ⟨y, hy, rfl⟩ := Option.map_eq_some_iff.mp hv
    rw [List.length_append, List.length_cons] at hb
    -- the right operand ends where no operator of a higher level follows
    have hright : A.reader bound op.level.next (us ++ rest) = some (y, rest) := by
      refine (ihr hy (by omega) ?_).trans (goOn_of_none ?_)
      · cases op <;> nofun
      · cases op with
        | plus | minus => exact hrest rfl
        | times | divide => exact fun _ _ => rfl
    have hleft : A.reader bound op.level (ts ++ op.token :: (us ++ rest)) =
        A.goOn bound op.level x (op.token :: (us ++ rest)) := by
      refine ihl hx (by omega) fun hsum token htoken => ?_
      obtain rfl := Option.some.inj htoken
      cases op with
      | plus | minus => rfl
      | times | divide => cases hsum
    rw [List.append_assoc, List.cons_append, hleft, goOn_cons op hright]

/-- **Evaluation finds the value of the tree**, and where there is no tree there is no value. -/
theorem evaluate_eq_some :
    A.evaluate ts = some v ↔ ∃ t, Parses .sum ts t ∧ t.value A = some v := by
  rw [evaluate]
  constructor
  · intro h
    split at h
    · rename_i w hread
      obtain rfl := Option.some.inj h
      obtain ⟨us, t, heq, ht, hw⟩ := readsTrees_sum (readsTrees_operand ts.length) _ _ _ hread
      rw [List.append_nil] at heq
      exact ⟨t, heq ▸ ht, hw⟩
    · simp at h
  · rintro ⟨t, ht, hv⟩
    have hread : A.sum (A.operand ts.length) (ts ++ []) = some (v, []) :=
      reader_of_parses ht hv (Nat.le_refl _) nofun
    rw [List.append_nil] at hread
    rw [hread]

end Arithmetic

/-! ### There is one tree -/

/-- Trees as values. -/
def Arithmetic.free : Arithmetic Tree where
  add := .binary .plus
  sub := .binary .minus
  mul := .binary .times
  div := .binary .divide
  neg := .negative
  ofText text := some (.number text)

theorem Tree.value_free (t : Tree) : t.value Arithmetic.free = some t := by
  induction t with
  | number => rfl
  | negative t ih => rw [value, ih]; rfl
  | binary op left right ihl ihr =>
    rw [value, ihl, Option.bind_some, ihr]
    cases op <;> rfl

/-- **Tokens are to be read as one tree at most.** -/
theorem Parses.unique {t' : Tree} (h : Parses .sum ts t) (h' : Parses .sum ts t') : t = t' := by
  have hvalue {t : Tree} (h : Parses .sum ts t) : Arithmetic.free.evaluate ts = some t :=
    Arithmetic.evaluate_eq_some.mpr ⟨t, h, t.value_free⟩
  exact Option.some.inj ((hvalue h).symm.trans (hvalue h'))

end Calc

end Peg
