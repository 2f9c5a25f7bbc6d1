/-!
# Context-free grammars

A context-free grammar gives each of its symbols a `Peg.Form`, which says what the symbol may be
written as. Forms are put together as in the usual extended notation: characters of a class, words,
symbols, one form after another, one of two forms, a form or nothing, and a form any number of times.
`Peg.Yields` says which words a form may be written as. There is no order among alternatives and
nothing is greedy, so a word may be written in several ways and a form may yield a word together with
a longer one.
-/

namespace Peg

/-- What a symbol may be written as. -/
inductive Form (N : Type)
  /-- One character of a class. -/
  | one (accepts : Char → Bool)
  /-- A word. -/
  | word (w : List Char)
  /-- A symbol. -/
  | ref (n : N)
  /-- The first form and then the second. -/
  | seq (a b : Form N)
  /-- Either form. -/
  | alt (a b : Form N)
  /-- The form or nothing. -/
  | opt (a : Form N)
  /-- The form any number of times. -/
  | many (a : Form N)

namespace Form

variable {N : Type}

/-- The form at least once. -/
def some (a : Form N) : Form N := .seq a (.many a)

/-- Items with separators between them, but one at least. -/
def separated (separator item : Form N) : Form N := .seq item (.many (.seq separator item))

/-- One of the characters. -/
def oneOf (cs : List Char) : Form N := .one cs.contains

/-- One character between two others, both included. -/
def range (first last : Char) : Form N := .one fun c => first ≤ c && c ≤ last

end Form

/-- **The words that a form yields**, where each symbol may be written as its production says. -/
inductive Yields {N : Type} (productions : N → Form N) : Form N → List Char → Prop
  | one {accepts c} (h : accepts c = true) : Yields productions (.one accepts) [c]
  | word {w} : Yields productions (.word w) w
  | ref {n w} (h : Yields productions (productions n) w) : Yields productions (.ref n) w
  | seq {a b u v} (ha : Yields productions a u) (hb : Yields productions b v) :
      Yields productions (.seq a b) (u ++ v)
  | alt_left {a b w} (h : Yields productions a w) : Yields productions (.alt a b) w
  | alt_right {a b w} (h : Yields productions b w) : Yields productions (.alt a b) w
  | opt_nil {a} : Yields productions (.opt a) []
  | opt {a w} (h : Yields productions a w) : Yields productions (.opt a) w
  | many_nil {a} : Yields productions (.many a) []
  | many_cons {a u v} (ha : Yields productions a u) (hb : Yields productions (.many a) v) :
      Yields productions (.many a) (u ++ v)

namespace Yields

variable {N : Type} {productions : N → Form N} {a b : Form N} {w : List Char}

@[simp]
theorem one_iff {accepts : Char → Bool} :
    Yields productions (.one accepts) w ↔ ∃ c, w = [c] ∧ accepts c = true := by
  constructor
  · intro h
    cases h with
    | one h => exact ⟨_, rfl, h⟩
  · rintro ⟨c, rfl, h⟩
    exact .one h

@[simp]
theorem word_iff {v : List Char} : Yields productions (.word v) w ↔ w = v := by
  constructor
  · rintro ⟨⟩
    rfl
  · rintro rfl
    exact .word

theorem ref_iff {n : N} : Yields productions (.ref n) w ↔ Yields productions (productions n) w := by
  refine ⟨fun h => ?_, .ref⟩
  cases h
  assumption

@[simp]
theorem seq_iff :
    Yields productions (.seq a b) w ↔
      ∃ u v, w = u ++ v ∧ Yields productions a u ∧ Yields productions b v := by
  constructor
  · intro h
    cases h with
    | seq ha hb => exact ⟨_, _, rfl, ha, hb⟩
  · rintro ⟨u, v, rfl, ha, hb⟩
    exact .seq ha hb

@[simp]
theorem alt_iff :
    Yields productions (.alt a b) w ↔ Yields productions a w ∨ Yields productions b w := by
  constructor
  · intro h
    cases h with
    | alt_left h => exact .inl h
    | alt_right h => exact .inr h
  · rintro (h | h)
    · exact .alt_left h
    · exact .alt_right h

@[simp]
theorem opt_iff : Yields productions (.opt a) w ↔ w = [] ∨ Yields productions a w := by
  constructor
  · intro h
    cases h with
    | opt_nil => exact .inl rfl
    | opt h => exact .inr h
  · rintro (rfl | h)
    · exact .opt_nil
    · exact .opt h

/-- A repetition yields what its rounds yield, one after the other. -/
theorem many_iff :
    Yields productions (.many a) w ↔
      ∃ ws : List (List Char), w = ws.flatten ∧ ∀ u ∈ ws, Yields productions a u := by
  have join (ws : List (List Char)) (h : ∀ u ∈ ws, Yields productions a u) :
      Yields productions (.many a) ws.flatten := by
    induction ws with
    | nil => exact .many_nil
    | cons u ws ih =>
      obtain ⟨hu, hws⟩ := List.forall_mem_cons.mp h
      exact .many_cons hu (ih hws)
  constructor
  · intro h
    generalize hf : Form.many a = f at h
    induction h with
    | many_nil => exact ⟨[], rfl, by simp⟩
    | @many_cons a' u v ha _ _ ih =>
      obtain rfl : a = a' := by simpa using hf
      obtain ⟨ws, rfl, hws⟩ := ih hf
      exact ⟨u :: ws, rfl, List.forall_mem_cons.mpr ⟨ha, hws⟩⟩
    | _ => cases hf
  · rintro ⟨ws, rfl, h⟩
    exact join ws h

/-- A repetition of a character yields the words made of such characters. -/
theorem many_one_iff {accepts : Char → Bool} :
    Yields productions (.many (.one accepts)) w ↔ ∀ c ∈ w, accepts c = true := by
  constructor
  · intro h c hc
    obtain ⟨ws, rfl, hws⟩ := many_iff.mp h
    obtain ⟨u, hu, hcu⟩ := List.mem_flatten.mp hc
    obtain ⟨d, rfl, hd⟩ := one_iff.mp (hws u hu)
    rwa [List.mem_singleton.mp hcu]
  · intro h
    induction w with
    | nil => exact .many_nil
    | cons c w ih =>
      obtain ⟨hc, hw⟩ := List.forall_mem_cons.mp h
      exact .many_cons (.one hc) (ih hw)

/-- A character at least once yields the words made of such characters, but for the empty one. -/
theorem some_one_iff {accepts : Char → Bool} :
    Yields productions (.some (.one accepts)) w ↔ w ≠ [] ∧ ∀ c ∈ w, accepts c = true := by
  rw [Form.some, seq_iff]
  constructor
  · rintro ⟨_, v, rfl, hu, hv⟩
    obtain ⟨c, rfl, hc⟩ := one_iff.mp hu
    exact ⟨by simp, List.forall_mem_cons.mpr ⟨hc, many_one_iff.mp hv⟩⟩
  · rintro ⟨hne, hw⟩
    obtain ⟨c, v, rfl⟩ := List.exists_cons_of_ne_nil hne
    obtain ⟨hc, hv⟩ := List.forall_mem_cons.mp hw
    exact ⟨[c], v, rfl, .one hc, many_one_iff.mpr hv⟩

/-- Of a form with more and more of another one behind it, there may be one more. -/
theorem seq_many_append {u v : List Char} (hu : Yields productions (.seq a (.many b)) u)
    (hv : Yields productions b v) : Yields productions (.seq a (.many b)) (u ++ v) := by
  obtain ⟨x, y, rfl, hx, hy⟩ := seq_iff.mp hu
  obtain ⟨ws, rfl, hws⟩ := many_iff.mp hy
  refine seq_iff.mpr ⟨x, ws.flatten ++ v, List.append_assoc .., hx, many_iff.mpr ⟨ws ++ [v], ?_, ?_⟩⟩
  · simp
  · simpa [or_imp, forall_and] using ⟨hws, hv⟩

end Yields

/-- The words of a form, where those of the symbols are given. -/
def Form.Reads {N : Type} (words : N → List Char → Prop) : Form N → List Char → Prop
  | .one accepts, w => ∃ c, w = [c] ∧ accepts c = true
  | .word v, w => w = v
  | .ref n, w => words n w
  | .seq a b, w => ∃ u v, w = u ++ v ∧ a.Reads words u ∧ b.Reads words v
  | .alt a b, w => a.Reads words w ∨ b.Reads words w
  | .opt a, w => w = [] ∨ a.Reads words w
  | .many a, w => ∃ ws : List (List Char), w = ws.flatten ∧ ∀ u ∈ ws, a.Reads words u

/-- **The productions give the least words**: what holds of the words of a production, if it holds
of the words of its symbols, holds of all the words. -/
theorem Yields.least {N : Type} {productions : N → Form N} {P : N → List Char → Prop}
    (hP : ∀ n w, Yields productions (.ref n) w → (productions n).Reads P w → P n w) {a : Form N}
    {w : List Char} (h : Yields productions a w) : a.Reads P w := by
  induction h with
  | one h => exact ⟨_, rfl, h⟩
  | word => exact rfl
  | ref h ih => exact hP _ _ (.ref h) ih
  | seq _ _ iha ihb => exact ⟨_, _, rfl, iha, ihb⟩
  | alt_left _ ih => exact .inl ih
  | alt_right _ ih => exact .inr ih
  | opt_nil => exact .inl rfl
  | opt _ ih => exact .inr ih
  | many_nil => exact ⟨[], rfl, by simp⟩
  | many_cons _ _ iha ihb =>
    obtain ⟨ws, rfl, hws⟩ := ihb
    exact ⟨_ :: ws, rfl, List.forall_mem_cons.mpr ⟨iha, hws⟩⟩

/-- The form has no characters but such as satisfy `P`, and no symbols but such as satisfy `S`. -/
def Form.Over {N : Type} (P : Char → Prop) (S : N → Prop) : Form N → Prop
  | .one accepts => ∀ c, accepts c = true → P c
  | .word w => ∀ c ∈ w, P c
  | .ref n => S n
  | .seq a b | .alt a b => a.Over P S ∧ b.Over P S
  | .opt a | .many a => a.Over P S

@[simp]
theorem Form.over_oneOf {N : Type} {P : Char → Prop} {S : N → Prop} {cs : List Char} :
    (Form.oneOf cs).Over P S ↔ ∀ c ∈ cs, P c := by
  simp [oneOf, Over]

/-- What is made of certain characters only. -/
theorem Yields.forall_mem {N : Type} {productions : N → Form N} {P : Char → Prop} {S : N → Prop}
    (hS : ∀ n, S n → (productions n).Over P S) {a : Form N} {w : List Char} (ha : a.Over P S)
    (h : Yields productions a w) : ∀ c ∈ w, P c := by
  induction h with
  | one h => simpa using ha _ h
  | word => exact ha
  | ref _ ih => exact ih (hS _ ha)
  | seq _ _ iha ihb => exact fun c hc => (List.mem_append.mp hc).elim (iha ha.1 c) (ihb ha.2 c)
  | alt_left _ ih => exact ih ha.1
  | alt_right _ ih => exact ih ha.2
  | opt_nil | many_nil => simp
  | opt _ ih => exact ih ha
  | many_cons _ _ iha ihb => exact fun c hc => (List.mem_append.mp hc).elim (iha ha c) (ihb ha c)

end Peg
