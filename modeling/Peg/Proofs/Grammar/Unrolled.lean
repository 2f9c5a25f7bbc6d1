import Peg.Proofs.Grammar.Exactness
import Peg.Proofs.Grammar.Nullable

/-!
# One or more as one and then any number

Instead of `e+` a grammar may say `e e*`. This module writes every repetition of that kind out, at all
depths of a tree (`Peg.Expr.unrolled`) and in all rules of a grammar, and shows that building does not
see the difference: what is written out has the same defect, or it is the grammar built before with its
repetitions written out (`Peg.Draft.build_unrolled`).

The expression stands there twice then, but what is asked of its nodes and calls only ever takes the
first that is found. An exception are the calls at the left edge: of an expression that is nullable they
would be listed twice. But where something nullable is repeated, the search for left recursion is not
begun (`Peg.Expr.leftCalls_unrolled`).
-/

namespace Peg

/-! ### Writing repetitions out -/

/-- The tree with every `e+` in it written out as `e e*`. -/
def Expr.unrolled : Expr → Expr
  | seq a b => seq a.unrolled b.unrolled
  | alt a b => alt a.unrolled b.unrolled
  | opt a => opt a.unrolled
  | star a => star a.unrolled
  | plus a => seq a.unrolled (star a.unrolled)
  | ahead a => ahead a.unrolled
  | notAhead a => notAhead a.unrolled
  | capture a => capture a.unrolled
  | call r => call r
  | text s => text s
  | char c => char c
  | endOfInput => endOfInput
  | range first last => range first last
  | any => any
  | empty => empty

/-- The body with the repetitions in its tree written out. A procedure keeps to itself what it asks. -/
def Body.unrolled : Body → Body
  | tree e => tree e.unrolled
  | native start => native start

/-- The rule with the repetitions in its tree written out. -/
def Definition.unrolled (rule : Definition) : Definition := { rule with body := rule.body.unrolled }

/-- The grammar with the repetitions in its rules written out. -/
def Grammar.unrolled (g : Grammar) : Grammar := { g with rules := g.rules.map Definition.unrolled }

/-- The draft with the repetitions in its rules written out. -/
def Draft.unrolled (d : Draft) : Draft := { d with rules := d.rules.map Definition.unrolled }

/-! ### Trees -/

namespace Expr

variable (e : Expr)

theorem bind_unrolled (find : String → Option RuleId) :
    e.unrolled.bind find = (e.bind find).unrolled := by
  induction e <;> simp only [unrolled, bind, *]

/-- The first call to have a property is the same. -/
theorem find?_calls_unrolled (p : Reference → Bool) :
    e.unrolled.calls.find? p = e.calls.find? p := by
  induction e with
  | seq a b iha ihb => simp only [unrolled, calls, List.find?_append, iha, ihb]
  | alt a b iha ihb => simp only [unrolled, calls, List.find?_append, iha, ihb]
  | plus a ih => simp only [unrolled, calls, List.find?_append, ih, Option.or_self]
  | opt a ih => exact ih
  | star a ih => exact ih
  | ahead a ih => exact ih
  | notAhead a ih => exact ih
  | capture a ih => exact ih
  | _ => rfl

variable (v : List Bool) (ends : Bool)

@[simp]
theorem nullable_unrolled : e.unrolled.nullable v ends = e.nullable v ends := by
  induction e with
  | seq a b iha ihb => simp only [unrolled, nullable, iha, ihb]
  | alt a b iha ihb => simp only [unrolled, nullable, iha, ihb]
  | plus a ih => simp only [unrolled, nullable, ih, Bool.and_true]
  | capture a ih => exact ih
  | _ => rfl

end Expr

/-- Whether something nullable is repeated in the tree, at whatever depth. -/
def Expr.repeatsWithin (v : List Bool) (e : Expr) : Bool := e.nodes.any (·.repeatsNullable v)

namespace Expr

variable {v : List Bool} {a b e : Expr}

theorem repeatsWithin_seq :
    (seq a b).repeatsWithin v = (a.repeatsWithin v || b.repeatsWithin v) := List.any_append

theorem repeatsWithin_alt :
    (alt a b).repeatsWithin v = (a.repeatsWithin v || b.repeatsWithin v) := List.any_append

theorem repeatsWithin_star : (star a).repeatsWithin v = (a.nullable v || a.repeatsWithin v) := rfl

theorem repeatsWithin_plus : (plus a).repeatsWithin v = (a.nullable v || a.repeatsWithin v) := rfl

/-- A repetition that was written out is found at its second half. -/
theorem repeatsWithin_unrolled (v : List Bool) (e : Expr) :
    e.unrolled.repeatsWithin v = e.repeatsWithin v := by
  induction e with
  | seq a b iha ihb => rw [unrolled, repeatsWithin_seq, repeatsWithin_seq, iha, ihb]
  | alt a b iha ihb => rw [unrolled, repeatsWithin_alt, repeatsWithin_alt, iha, ihb]
  | star a ih => rw [unrolled, repeatsWithin_star, repeatsWithin_star, nullable_unrolled, ih]
  | plus a ih =>
    rw [unrolled, repeatsWithin_seq, repeatsWithin_star, repeatsWithin_plus, nullable_unrolled, ih,
      Bool.or_left_comm, Bool.or_self]
  | opt a ih => exact ih
  | ahead a ih => exact ih
  | notAhead a ih => exact ih
  | capture a ih => exact ih
  | _ => rfl

/-- **Where nothing nullable is repeated, the calls at the left edge are the same.** -/
theorem leftCalls_unrolled (h : e.repeatsWithin v = false) :
    e.unrolled.leftCalls v = e.leftCalls v := by
  induction e with
  | seq a b iha ihb =>
    rw [repeatsWithin_seq, Bool.or_eq_false_iff] at h
    simp only [unrolled, leftCalls, nullable_unrolled, iha h.1, ihb h.2]
  | alt a b iha ihb =>
    rw [repeatsWithin_alt, Bool.or_eq_false_iff] at h
    simp only [unrolled, leftCalls, iha h.1, ihb h.2]
  | star a ih =>
    rw [repeatsWithin_star, Bool.or_eq_false_iff] at h
    exact ih h.2
  | plus a ih =>
    -- what is repeated is not nullable, so the second half is not at the left edge
    rw [repeatsWithin_plus, Bool.or_eq_false_iff] at h
    simp [unrolled, leftCalls, ih h.2, h.1]
  | opt a ih => exact ih h
  | ahead a ih => exact ih h
  | notAhead a ih => exact ih h
  | capture a ih => exact ih h
  | _ => rfl

end Expr

/-! ### Bodies and rules -/

namespace Body

variable (b : Body)

theorem bind_unrolled (find : String → Option RuleId) :
    b.unrolled.bind find = (b.bind find).unrolled := by
  cases b with
  | tree e => exact congrArg tree (e.bind_unrolled find)
  | native start => rfl

theorem find?_references_unrolled (p : Reference → Bool) :
    b.unrolled.references.find? p = b.references.find? p := by
  rw [references_eq_calls, references_eq_calls]
  cases b with
  | tree e => exact e.find?_calls_unrolled p
  | native start => rfl

theorem nullable_unrolled (v : List Bool) (ends : Bool) :
    b.unrolled.nullable v ends = b.nullable v ends := by
  cases b with
  | tree e => exact e.nullable_unrolled v ends
  | native start => rfl

theorem repeatsNullable_unrolled (v : List Bool) :
    b.unrolled.repeatsNullable v = b.repeatsNullable v := by
  cases b with
  | tree e => exact e.repeatsWithin_unrolled v
  | native start => rfl

variable {b} {v : List Bool}

theorem leftCalls_unrolled (h : b.repeatsNullable v = false) :
    b.unrolled.leftCalls v = b.leftCalls v := by
  cases b with
  | tree e => exact Expr.leftCalls_unrolled h
  | native start => rfl

end Body

/-! ### Grammars -/

namespace Grammar

variable (g : Grammar)

@[simp]
theorem size_unrolled : g.unrolled.size = g.size := by simp [size, unrolled]

@[simp]
theorem find?_unrolled (name : String) : g.unrolled.find? name = g.find? name := by
  rw [find?, find?, unrolled, List.findIdx?_map]
  rfl

@[simp]
theorem nameOf_unrolled (id : RuleId) : g.unrolled.nameOf id = g.nameOf id := by
  simp [nameOf, name?, unrolled, Definition.unrolled, Function.comp_def]

theorem body?_unrolled (id : RuleId) : g.unrolled.body? id = (g.body? id).map Body.unrolled := by
  simp [body?, unrolled, Definition.unrolled, Function.comp_def]

theorem revise_unrolled (v : List Bool) (ends : Bool) :
    g.unrolled.revise v ends = g.revise v ends := by
  simp [revise, unrolled, Definition.unrolled, Body.nullable_unrolled, Function.comp_def]

/-- **The verdicts on the rules are the same**, since each are the least. -/
theorem nullable_unrolled (ends : Bool) : g.unrolled.nullable ends = g.nullable ends := by
  refine eq_of_below (by simp) (nullable_below _ ends ?_) (nullable_below _ ends ?_)
  · rw [revise_unrolled, revise_nullable]
    exact fun _ h => h
  · rw [← revise_unrolled, revise_nullable]
    exact fun _ h => h

theorem nullableRepetition?_unrolled :
    g.unrolled.nullableRepetition? = g.nullableRepetition?.map Definition.unrolled := by
  rw [nullableRepetition?, nullableRepetition?, nullable_unrolled, unrolled, List.find?_map]
  congr 2
  funext rule
  exact rule.body.repeatsNullable_unrolled _

theorem leftRecursion?_unrolled (h : g.nullableRepetition? = none) :
    g.unrolled.leftRecursion? = g.leftRecursion? := by
  have hedges : g.unrolled.leftEdges = g.leftEdges := by
    rw [leftEdges, leftEdges, nullable_unrolled, unrolled, List.map_map]
    refine List.map_congr_left fun rule hrule => Body.leftCalls_unrolled ?_
    simpa using List.find?_eq_none.mp h rule hrule
  rw [leftRecursion?, leftRecursion?, hedges]

/-- **The analyses find the same.** -/
theorem check_unrolled : g.unrolled.check = g.check.map unrolled := by
  rw [check, check, nullableRepetition?_unrolled]
  rcases hn : g.nullableRepetition? with _ | rule
  · simp only [Option.map_none, g.leftRecursion?_unrolled hn]
    rcases g.leftRecursion? with _ | cycle
    · rfl
    · have hnames : g.unrolled.nameOf = g.nameOf := funext g.nameOf_unrolled
      rw [hnames]
      rfl
  · rfl

end Grammar

/-! ### Drafts -/

namespace Draft

variable (d : Draft)

theorem map_name_unrolled : d.unrolled.rules.map (·.name) = d.rules.map (·.name) := by
  simp [unrolled, Definition.unrolled, Function.comp_def]

theorem find?_unrolled : d.unrolled.find? = d.find? := by
  funext name
  rw [find?, find?, unrolled, List.findIdx?_map]
  rfl

theorem firstUndefined?_unrolled : d.unrolled.firstUndefined? = d.firstUndefined? := by
  rw [firstUndefined?, firstUndefined?, find?_unrolled, unrolled, List.findSome?_map]
  congr 1
  funext rule
  simp only [Function.comp_apply, Definition.unrolled, Body.find?_references_unrolled]

theorem rootId_unrolled : d.unrolled.rootId = d.rootId := by
  have hfind := d.find?_unrolled
  obtain ⟨rules, _ | name⟩ := d
  · rfl
  · simp only [unrolled] at hfind
    simp only [unrolled, rootId, hfind]

theorem bound_unrolled : d.unrolled.bound = d.bound.map Definition.unrolled := by
  rw [bound, bound, find?_unrolled]
  simp [unrolled, Definition.unrolled, Body.bind_unrolled]

/-- The calls are led to the same rules, or the same defect comes up. -/
theorem link_unrolled : d.unrolled.link = d.link.map Grammar.unrolled := by
  have hempty : d.unrolled.rules.isEmpty = d.rules.isEmpty := List.isEmpty_map
  rw [link, link, hempty, map_name_unrolled, firstUndefined?_unrolled, rootId_unrolled,
    bound_unrolled]
  split
  · rfl
  · split
    · rfl
    · split
      · rfl
      · split
        · rfl
        · rfl

/-- **Building does not see the difference**: it fails with the same defect, or its result is the grammar
with its repetitions written out. -/
theorem build_unrolled : d.unrolled.build = d.build.map Grammar.unrolled := by
  rw [build_eq_bind, build_eq_bind, link_unrolled]
  rcases d.link with defect | g
  · rfl
  · exact g.check_unrolled

end Draft

end Peg
