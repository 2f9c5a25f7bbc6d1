import Mathlib.Data.List.Forall2
import Peg.Proofs.Grammar.Binding
import Peg.Proofs.Grammar.Build
import Peg.Proofs.Grammar.Digraph

/-!
# Building is exact

What `Peg.Draft.build` answers can be said without saying how it is found: which defect a draft has,
and which grammar it writes down (`Peg.Draft.Writes`).

Building has two halves. The first leads the calls to the rules of their names (`Peg.Draft.link`), and
it fails exactly on drafts that are not closed (`Peg.Draft.Closed`), with the first defect that comes
up (`Peg.Draft.link_eq_error_iff`); of a closed draft it gives the only grammar that the draft writes
down (`Peg.Draft.link_eq_ok_iff`). The second half is the analyses of this grammar, which leave it as
it is. `Peg.Draft.build_exact` puts the two together.
-/

namespace Peg

/-- The element is the first in the list to have the property. -/
def IsFirst {α : Type} (p : α → Prop) (l : List α) (a : α) : Prop :=
  ∃ before after, l = before ++ a :: after ∧ p a ∧ ∀ b ∈ before, ¬p b

theorem find?_eq_some_iff_isFirst {α : Type} {p : α → Prop} {f : α → Bool} {l : List α} {a : α}
    (hf : ∀ a, f a = true ↔ p a) : l.find? f = some a ↔ IsFirst p l a := by
  simp only [List.find?_eq_some_iff_append, IsFirst, ← hf]
  constructor
  · rintro ⟨ha, before, after, hl, hbefore⟩
    exact ⟨before, after, hl, ha, fun b hb => by simpa using hbefore b hb⟩
  · rintro ⟨before, after, hl, ha, hbefore⟩
    exact ⟨ha, before, after, hl, fun b hb => by simpa using hbefore b hb⟩

/-! ### Names -/

/-- The names before the one that is reported are different from each other and from those seen. -/
theorem firstRepeated?_go_eq_some_iff {seen names : List String} {name : String} :
    firstRepeated?.go seen names = some name ↔
      ∃ before after, names = before ++ name :: after ∧ before.Nodup ∧
        (∀ n ∈ before, n ∉ seen) ∧ (name ∈ before ∨ name ∈ seen) := by
  induction names generalizing seen with
  | nil => simp [firstRepeated?.go]
  | cons n names ih =>
    rw [firstRepeated?.go]
    split
    · rename_i hn
      constructor
      · intro h
        obtain rfl : n = name := by simpa using h
        exact ⟨[], names, rfl, .nil, by simp, .inr hn⟩
      · rintro ⟨_ | ⟨m, before⟩, after, heq, -, hseen, -⟩
        · rw [(List.cons.inj heq).1]
        · -- the name that stands first was seen
          obtain ⟨rfl, -⟩ := List.cons.inj heq
          exact absurd hn (hseen n List.mem_cons_self)
    · rename_i hn
      rw [ih]
      constructor
      · rintro ⟨before, after, rfl, hnodup, hseen, hname⟩
        refine ⟨n :: before, after, rfl, ?_, ?_, ?_⟩
        · exact List.nodup_cons.mpr ⟨fun h => hseen n h List.mem_cons_self, hnodup⟩
        · exact List.forall_mem_cons.mpr
            ⟨hn, fun m hm hs => hseen m hm (List.mem_cons_of_mem n hs)⟩
        · rw [List.mem_cons] at hname ⊢
          tauto
      · rintro ⟨_ | ⟨m, before⟩, after, heq, hnodup, hseen, hname⟩
        · -- the name that stands first is new
          obtain ⟨rfl, -⟩ := List.cons.inj heq
          simp [hn] at hname
        · obtain ⟨rfl, rfl⟩ := List.cons.inj heq
          obtain ⟨hnew, hnodup⟩ := List.nodup_cons.mp hnodup
          refine ⟨before, after, rfl, hnodup, fun m hm => ?_, ?_⟩
          · rw [List.mem_cons, not_or]
            exact ⟨ne_of_mem_of_not_mem hm hnew, hseen m (List.mem_cons_of_mem n hm)⟩
          · rw [List.mem_cons] at hname ⊢
            tauto

/-- The name that is reported is the first to stand in the list for the second time. -/
theorem firstRepeated?_eq_some_iff {names : List String} {name : String} :
    firstRepeated? names = some name ↔
      ∃ before after, names = before ++ name :: after ∧ before.Nodup ∧ name ∈ before := by
  rw [firstRepeated?, firstRepeated?_go_eq_some_iff]
  simp

theorem firstRepeated?_eq_none_iff {names : List String} :
    firstRepeated? names = none ↔ names.Nodup := by
  refine ⟨nodup_of_firstRepeated?, fun h => ?_⟩
  rcases hr : firstRepeated? names with _ | name
  · rfl
  · obtain ⟨before, after, rfl, -, hmem⟩ := firstRepeated?_eq_some_iff.mp hr
    exact absurd List.mem_cons_self (List.disjoint_of_nodup_append h hmem)

/-- Where names are all different, a name leads to the rule that has it. -/
theorem Grammar.find?_eq_some_iff {g : Grammar} (h : (g.rules.map (·.name)).Nodup) {name : String}
    {id : RuleId} : g.find? name = some id ↔ g.name? id = some name := by
  rw [find?, List.findIdx?_eq_some_iff_getElem, name?, Option.map_eq_some_iff]
  constructor
  · rintro ⟨hid, hname, -⟩
    exact ⟨g.rules[id], List.getElem?_eq_getElem hid, by simpa using hname⟩
  · rintro ⟨rule, hrule, rfl⟩
    obtain ⟨hid, rfl⟩ := List.getElem?_eq_some_iff.mp hrule
    refine ⟨hid, by simp, fun j hj hname => ?_⟩
    have hid' : id < (g.rules.map (·.name)).length := by rwa [List.length_map]
    have hj' : j < (g.rules.map (·.name)).length := Nat.lt_trans hj hid'
    have heq : (g.rules.map (·.name))[j] = (g.rules.map (·.name))[id] := by simpa using hname
    exact absurd ((List.Nodup.getElem_inj_iff h).mp heq) (Nat.ne_of_lt hj)

namespace Draft

variable {d : Draft} {g : Grammar}

/-- There is a rule of this name. -/
def Defines (d : Draft) (name : String) : Prop := name ∈ d.rules.map (·.name)

theorem isNone_find?_iff {name : String} : (d.find? name).isNone = true ↔ ¬d.Defines name := by
  rw [Option.isNone_iff_eq_none, find?, List.findIdx?_eq_none_iff, Defines, List.mem_map]
  simp

theorem isSome_find?_iff {name : String} : (d.find? name).isSome = true ↔ d.Defines name := by
  rw [← not_iff_not, Bool.not_eq_true, Option.isSome_eq_false_iff, isNone_find?_iff]

/-- A name stands for a second rule, and it is the first to do so. -/
def Repeats (d : Draft) (name : String) : Prop :=
  ∃ before after, d.rules.map (·.name) = before ++ name :: after ∧ before.Nodup ∧ name ∈ before

/-- The calls of the rules one after the other, each with the name of the rule that it stands in. -/
def calls (d : Draft) : List (Reference × String) :=
  d.rules.flatMap fun rule => rule.body.calls.map fun r => (r, rule.name)

/-- The rule `caller` calls a rule that is not there, and this is the first such call. -/
def Misses (d : Draft) (name caller : String) : Prop :=
  ∃ r, r.name = name ∧ IsFirst (fun c => ¬d.Defines c.1.name) d.calls (r, caller)

theorem firstUndefined?_eq (d : Draft) :
    d.firstUndefined? =
      (d.calls.find? fun c => (d.find? c.1.name).isNone).map fun c => (c.1.name, c.2) := by
  rw [calls, List.find?_flatMap, List.map_findSome?, firstUndefined?]
  congr 1
  funext rule
  rw [Body.references_eq_calls]
  simp [List.find?_map, Option.map_map, Function.comp_def]

theorem firstUndefined?_eq_some_iff {name caller : String} :
    d.firstUndefined? = some (name, caller) ↔ d.Misses name caller := by
  simp only [firstUndefined?_eq, Option.map_eq_some_iff,
    find?_eq_some_iff_isFirst fun c : Reference × String => isNone_find?_iff, Misses]
  constructor
  · rintro ⟨⟨r, caller'⟩, hfirst, heq⟩
    obtain ⟨rfl, rfl⟩ := Prod.mk.inj heq
    exact ⟨r, rfl, hfirst⟩
  · rintro ⟨r, rfl, hfirst⟩
    exact ⟨(r, caller), hfirst, rfl⟩

/-- Every call is of a rule that is there. -/
def Complete (d : Draft) : Prop := ∀ c ∈ d.calls, d.Defines c.1.name

theorem firstUndefined?_eq_none_iff : d.firstUndefined? = none ↔ d.Complete := by
  rw [firstUndefined?_eq, Option.map_eq_none_iff, List.find?_eq_none]
  simp only [isNone_find?_iff, not_not, Complete]

/-- **The draft gives every name once, and every name it uses.** -/
structure Closed (d : Draft) : Prop where
  rules : d.rules ≠ []
  names : (d.rules.map (·.name)).Nodup
  calls : d.Complete
  root : ∀ name, d.root = some name → d.Defines name

/-- **The grammar that the draft writes down**: the same rules in the same order, every call led to
the rule of its name, and the root that is named or else the first rule. -/
structure Writes (d : Draft) (g : Grammar) : Prop where
  rules : List.Forall₂ (fun rule rule' => rule'.name = rule.name ∧
    rule.body.Led g.name? rule'.body) d.rules g.rules
  first : d.root = none → g.root = some 0
  root : ∀ name, d.root = some name → ∃ id, g.root = some id ∧ g.name? id = some name

/-! ### Leading the calls to the rules -/

/-- The first half of building: everything but the analyses. -/
def link (d : Draft) : Except Defect Grammar :=
  if d.rules.isEmpty then .error .noRules
  else match firstRepeated? (d.rules.map (·.name)) with
    | some name => .error (.duplicate name)
    | none =>
      match d.firstUndefined? with
      | some (name, caller) => .error (.undefined name caller)
      | none =>
        match d.rootId with
        | .error defect => .error defect
        | .ok root => .ok { rules := d.bound, root := some root }

theorem build_eq_bind (d : Draft) : d.build = d.link.bind Grammar.check := by
  rw [build_eq, link]
  by_cases hempty : d.rules.isEmpty
  · rw [if_pos hempty, if_pos hempty]
    rfl
  · rw [if_neg hempty, if_neg hempty]
    rcases hrep : firstRepeated? (d.rules.map (·.name)) with _ | name
    · rcases hund : d.firstUndefined? with _ | ⟨name, caller⟩
      · rcases hroot : d.rootId with defect | root <;> simp only [hrep] <;> rfl
      · simp only [hrep]
        rfl
    · simp only [hrep]
      rfl

theorem rootId_eq_error_iff {defect : Defect} :
    d.rootId = .error defect ↔
      ∃ name, d.root = some name ∧ ¬d.Defines name ∧ defect = .unknownRoot name := by
  obtain ⟨rules, _ | name⟩ := d
  · simp [rootId]
  · rw [rootId]
    simp only [Option.some.injEq, ← isNone_find?_iff, exists_eq_left']
    rcases find? ⟨rules, some name⟩ name with _ | id
    · simp [eq_comm]
    · simp

theorem rootId_eq_ok_iff {id : RuleId} :
    d.rootId = .ok id ↔
      (d.root = none ∧ id = 0) ∨ ∃ name, d.root = some name ∧ d.find? name = some id := by
  obtain ⟨rules, _ | name⟩ := d
  · simp [rootId, eq_comm]
  · rw [rootId]
    simp only [Option.some.injEq, exists_eq_left', reduceCtorEq, false_and, false_or]
    rcases find? ⟨rules, some name⟩ name with _ | id'
    · simp
    · simp

theorem rootId_eq_unknownRoot_iff {name : String} :
    d.rootId = .error (.unknownRoot name) ↔ d.root = some name ∧ ¬d.Defines name := by
  simp [rootId_eq_error_iff]

/-- The defect is the first that comes up when the calls are led to the rules. -/
def Fails (d : Draft) : Defect → Prop
  | .noRules => d.rules = []
  | .duplicate name => d.rules ≠ [] ∧ d.Repeats name
  | .undefined name caller =>
    d.rules ≠ [] ∧ (d.rules.map (·.name)).Nodup ∧ d.Misses name caller
  | .unknownRoot name =>
    d.rules ≠ [] ∧ (d.rules.map (·.name)).Nodup ∧ d.Complete ∧ d.root = some name ∧
      ¬d.Defines name
  | .nullableRepetition _ | .leftRecursion _ => False

theorem link_eq_error_iff {defect : Defect} : d.link = .error defect ↔ d.Fails defect := by
  have hrepeats (name : String) :
      d.Repeats name ↔ firstRepeated? (d.rules.map (·.name)) = some name :=
    firstRepeated?_eq_some_iff.symm
  rw [link]
  split
  · rename_i hempty
    cases defect <;> simp [Fails, List.isEmpty_iff.mp hempty]
  · rename_i hempty
    rw [List.isEmpty_iff] at hempty
    split
    · rename_i hrep
      cases defect <;> simp [Fails, hempty, hrepeats, ← firstRepeated?_eq_none_iff, hrep]
    · rename_i hrep
      have hnames := firstRepeated?_eq_none_iff.mp hrep
      split
      · rename_i hund
        cases defect <;> simp [Fails, hempty, hrepeats, hrep, hnames, ← firstUndefined?_eq_some_iff,
          ← firstUndefined?_eq_none_iff, hund]
      · rename_i hund
        have hcalls := firstUndefined?_eq_none_iff.mp hund
        rcases hroot : d.rootId with defect' | root
        · obtain ⟨name, hname, hdef, rfl⟩ := rootId_eq_error_iff.mp hroot
          cases defect <;> simp [Fails, hempty, hrepeats, hrep, hnames, hcalls,
            ← firstUndefined?_eq_some_iff, hund, ← rootId_eq_unknownRoot_iff, hroot]
        · cases defect <;> simp [Fails, hempty, hrepeats, hrep, hnames, hcalls,
            ← firstUndefined?_eq_some_iff, hund, ← rootId_eq_unknownRoot_iff, hroot]

/-- A closed draft leaves nothing to fail on. -/
theorem Closed.not_fails (h : d.Closed) (defect : Defect) : ¬d.Fails defect := by
  cases defect with
  | noRules => exact h.rules
  | duplicate name =>
    rintro ⟨-, before, after, heq, -, hmem⟩
    have hnodup := heq ▸ h.names
    exact List.disjoint_of_nodup_append hnodup hmem List.mem_cons_self
  | undefined name caller =>
    rintro ⟨-, -, r, -, before, after, heq, hdef, -⟩
    exact hdef (h.calls _ (by simp [heq]))
  | unknownRoot name =>
    rintro ⟨-, -, -, hname, hdef⟩
    exact hdef (h.root name hname)
  | nullableRepetition rule => exact id
  | leftRecursion cycle => exact id

theorem map_name_bound (d : Draft) : d.bound.map (·.name) = d.rules.map (·.name) := by
  simp [bound, Function.comp_def]

/-- Looked up in the draft, a name leads to the rule that has it in a grammar of the same names. -/
theorem find?_eq_some_iff (hnames : (d.rules.map (·.name)).Nodup)
    (hg : g.rules.map (·.name) = d.rules.map (·.name)) {name : String} {id : RuleId} :
    d.find? name = some id ↔ g.name? id = some name := by
  have hfind (rules : List Definition) :
      rules.findIdx? (·.name == name) = (rules.map (·.name)).findIdx? (· == name) := by
    rw [List.findIdx?_map]
    rfl
  rw [← Grammar.find?_eq_some_iff (hg ▸ hnames), find?, Grammar.find?, hfind, hfind, hg]

namespace Writes

theorem names (h : d.Writes g) : g.rules.map (·.name) = d.rules.map (·.name) := by
  rw [← List.forall₂_eq_eq_eq, List.forall₂_map_left_iff, List.forall₂_map_right_iff]
  exact (h.rules.imp fun _ _ hr => hr.1).flip

theorem rules_eq (h : d.Writes g) (hnames : (d.rules.map (·.name)).Nodup) : g.rules = d.bound := by
  refine Eq.symm ?_
  rw [bound, ← List.forall₂_eq_eq_eq, List.forall₂_map_left_iff]
  refine h.rules.imp fun rule rule' hr => ?_
  obtain ⟨hname, hbody⟩ := hr
  rw [← hname, ← hbody.eq_bind fun _ _ => (find?_eq_some_iff hnames h.names).mpr]

/-- A draft that gives no name twice writes down one grammar at most. -/
theorem unique {g' : Grammar} (h : d.Writes g) (h' : d.Writes g')
    (hnames : (d.rules.map (·.name)).Nodup) : g = g' := by
  have hrules : g.rules = g'.rules := by rw [h.rules_eq hnames, h'.rules_eq hnames]
  have hroot : g.root = g'.root := by
    rcases hr : d.root with _ | name
    · rw [h.first hr, h'.first hr]
    · obtain ⟨id, hid, hname⟩ := h.root name hr
      obtain ⟨id', hid', hname'⟩ := h'.root name hr
      rw [← find?_eq_some_iff hnames h.names] at hname
      rw [← find?_eq_some_iff hnames h'.names, hname] at hname'
      rw [hid, hid', hname']
  cases g
  cases g'
  simp_all

end Writes

/-- What building makes of a closed draft is what the draft writes down. -/
theorem writes_bound (hnames : (d.rules.map (·.name)).Nodup) (hcalls : d.Complete) {root : RuleId}
    (hroot : d.rootId = .ok root) : d.Writes { rules := d.bound, root := some root } := by
  have hfind (name : String) (id : RuleId) : d.find? name = some id ↔
      Grammar.name? { rules := d.bound, root := some root } id = some name :=
    find?_eq_some_iff hnames d.map_name_bound
  refine ⟨?_, fun hr => ?_, fun name hr => ?_⟩
  · rw [bound, List.forall₂_map_right_iff, List.forall₂_same]
    refine fun rule hrule => ⟨rfl, Body.led_bind (fun name id => (hfind name id).mp) ?_⟩
    intro r hr
    have hdef : d.Defines r.name :=
      hcalls (r, rule.name) (List.mem_flatMap.mpr ⟨rule, hrule, List.mem_map.mpr ⟨r, hr, rfl⟩⟩)
    exact isSome_find?_iff.mpr hdef
  · obtain ⟨-, rfl⟩ | ⟨name, hname, -⟩ := rootId_eq_ok_iff.mp hroot
    · rfl
    · simp [hr] at hname
  · obtain ⟨hnone, -⟩ | ⟨name', hname, hid⟩ := rootId_eq_ok_iff.mp hroot
    · simp [hr] at hnone
    · obtain rfl : name = name' := by simpa [hr] using hname
      exact ⟨root, rfl, (hfind name root).mp hid⟩

theorem closed_writes_of_link (h : d.link = .ok g) : d.Closed ∧ d.Writes g := by
  rw [link] at h
  split at h
  · cases h
  · split at h
    · cases h
    · rename_i hempty _ hrep
      have hnames := firstRepeated?_eq_none_iff.mp hrep
      split at h
      · cases h
      · rename_i hund
        have hcalls := firstUndefined?_eq_none_iff.mp hund
        rcases hroot : d.rootId with defect | root <;> rw [hroot] at h
        · cases h
        · obtain rfl := Except.ok.inj h
          refine ⟨⟨by simpa using hempty, hnames, hcalls, fun name hname => ?_⟩,
            writes_bound hnames hcalls hroot⟩
          by_contra hdef
          rw [rootId_eq_unknownRoot_iff.mpr ⟨hname, hdef⟩] at hroot
          cases hroot

/-- Where the calls can be led to the rules, each of them is. -/
theorem resolved_of_link (h : d.link = .ok g) : g.Resolved := by
  rw [link] at h
  split at h
  · cases h
  · split at h
    · cases h
    · split at h
      · cases h
      · rename_i hund
        rcases hroot : d.rootId with defect | root <;> rw [hroot] at h
        · cases h
        · obtain rfl := Except.ok.inj h
          exact resolved_bound hund (some root)

/-- **The calls can be led to the rules exactly if the draft is closed**, and then in one way. -/
theorem link_eq_ok_iff : d.link = .ok g ↔ d.Closed ∧ d.Writes g := by
  refine ⟨closed_writes_of_link, fun ⟨hclosed, hwrites⟩ => ?_⟩
  rcases hl : d.link with defect | g'
  · exact absurd (link_eq_error_iff.mp hl) (hclosed.not_fails defect)
  · rw [(closed_writes_of_link hl).2.unique hwrites hclosed.names]

end Draft

/-! ### The analyses -/

/-- The defect is one that only an analysis finds. -/
def Defect.Found : Defect → Prop
  | .noRules | .duplicate _ | .undefined _ _ | .unknownRoot _ => False
  | .nullableRepetition _ | .leftRecursion _ => True

/-- Somewhere in its tree the rule repeats something that may read nothing. -/
def Definition.RepeatsNullable (verdicts : List Bool) (rule : Definition) : Prop :=
  ∃ e a, rule.body = .tree e ∧ (e.Contains (.star a) ∨ e.Contains (.plus a)) ∧
    a.nullable verdicts = true

theorem Definition.repeatsNullable_iff {verdicts : List Bool} {rule : Definition} :
    rule.body.repeatsNullable verdicts = true ↔ rule.RepeatsNullable verdicts := by
  rw [RepeatsNullable]
  cases rule.body with
  | native start => simp [Body.repeatsNullable]
  | tree e =>
    simp only [Body.repeatsNullable, List.any_eq_true, Expr.mem_nodes_iff, Body.tree.injEq]
    constructor
    · rintro ⟨n, hn, hrep⟩
      cases n with
      | star a => exact ⟨e, a, rfl, .inl hn, hrep⟩
      | plus a => exact ⟨e, a, rfl, .inr hn, hrep⟩
      | _ => simp [Expr.repeatsNullable] at hrep
    · rintro ⟨_, a, rfl, hn | hn, hnull⟩
      · exact ⟨_, hn, hnull⟩
      · exact ⟨_, hn, hnull⟩

namespace Grammar

variable {g : Grammar}

/-- Every rule is such that it repeats nothing that may read nothing. -/
def Repeatable (g : Grammar) : Prop := ∀ rule ∈ g.rules, ¬rule.RepeatsNullable g.nullable

/-- A rule may call itself, directly or through others, before anything is read. -/
def LeftRecursive (g : Grammar) : Prop :=
  ∃ id, Relation.TransGen (Digraph.Edge g.leftEdges) id id

theorem nullableRepetition?_eq_some_iff {rule : Definition} :
    g.nullableRepetition? = some rule ↔
      IsFirst (Definition.RepeatsNullable g.nullable) g.rules rule :=
  find?_eq_some_iff_isFirst fun _ => Definition.repeatsNullable_iff

theorem nullableRepetition?_eq_none_iff : g.nullableRepetition? = none ↔ g.Repeatable := by
  rw [nullableRepetition?, List.find?_eq_none, Repeatable]
  simp only [Definition.repeatsNullable_iff]

theorem leftRecursion?_eq_none_iff : g.leftRecursion? = none ↔ ¬g.LeftRecursive := by
  rw [leftRecursion?, LeftRecursive, not_exists]
  refine ⟨Digraph.acyclic_of_cycle?, fun h => ?_⟩
  rcases hc : Digraph.cycle? g.leftEdges with _ | cycle
  · rfl
  · obtain ⟨id, hid⟩ := (Digraph.isCycle_of_cycle? hc).exists_path
    exact absurd hid (h id)

theorem check_eq_nullableRepetition_iff {name : String} :
    g.check = .error (.nullableRepetition name) ↔
      ∃ rule, IsFirst (Definition.RepeatsNullable g.nullable) g.rules rule ∧ rule.name = name := by
  simp only [← nullableRepetition?_eq_some_iff, check]
  rcases g.nullableRepetition? with _ | rule
  · rcases g.leftRecursion? with _ | cycle <;> simp
  · simp

theorem exists_check_eq_leftRecursion_iff :
    (∃ cycle, g.check = .error (.leftRecursion cycle)) ↔ g.Repeatable ∧ g.LeftRecursive := by
  rw [← nullableRepetition?_eq_none_iff, ← not_not (a := g.LeftRecursive),
    ← leftRecursion?_eq_none_iff, check]
  rcases g.nullableRepetition? with _ | rule
  · rcases g.leftRecursion? with _ | cycle <;> simp
  · simp

theorem check_eq_ok_iff {g' : Grammar} :
    g.check = .ok g' ↔ g' = g ∧ g.Repeatable ∧ ¬g.LeftRecursive := by
  rw [← nullableRepetition?_eq_none_iff, ← leftRecursion?_eq_none_iff]
  refine ⟨check_eq_ok, fun ⟨heq, hnull, hleft⟩ => ?_⟩
  simp [check, hnull, hleft, heq]

/-- The analyses find no defects but their own. -/
theorem found_of_check {defect : Defect} (h : g.check = .error defect) : defect.Found := by
  rw [check] at h
  rcases hn : g.nullableRepetition? with _ | rule <;> rw [hn] at h
  · rcases hl : g.leftRecursion? with _ | cycle <;> rw [hl] at h
    · cases h
    · obtain rfl := Except.error.inj h
      trivial
  · obtain rfl := Except.error.inj h
    trivial

end Grammar

namespace Draft

variable {d : Draft} {g : Grammar}

theorem build_eq_error_iff {defect : Defect} :
    d.build = .error defect ↔
      d.Fails defect ∨ d.Closed ∧ ∃ g, d.Writes g ∧ g.check = .error defect := by
  rw [build_eq_bind, ← link_eq_error_iff]
  rcases hl : d.link with defect' | g
  · have hclosed : ¬d.Closed := fun h => h.not_fails defect' (link_eq_error_iff.mp hl)
    simp [Except.bind, hclosed]
  · obtain ⟨hclosed, hwrites⟩ := link_eq_ok_iff.mp hl
    have hunique (g' : Grammar) : d.Writes g' ↔ g' = g :=
      ⟨fun h => h.unique hwrites hclosed.names, fun h => h ▸ hwrites⟩
    simp [Except.bind, hclosed, hunique]

theorem build_eq_error_iff_fails {defect : Defect} (h : ¬defect.Found) :
    d.build = .error defect ↔ d.Fails defect := by
  rw [build_eq_error_iff, or_iff_left]
  rintro ⟨-, g, -, hcheck⟩
  exact h (Grammar.found_of_check hcheck)

theorem build_eq_error_iff_check (defect : Defect) (h : defect.Found) :
    d.build = .error defect ↔ d.Closed ∧ ∃ g, d.Writes g ∧ g.check = .error defect := by
  rw [build_eq_error_iff, or_iff_right]
  cases defect <;> first | exact h.elim | exact id

theorem build_eq_ok_iff :
    d.build = .ok g ↔ d.Closed ∧ d.Writes g ∧ g.Repeatable ∧ ¬g.LeftRecursive := by
  rw [build_eq_bind]
  constructor
  · intro h
    rcases hl : d.link with defect | g' <;> rw [hl] at h
    · cases h
    · obtain ⟨rfl, hcheck⟩ := Grammar.check_eq_ok_iff.mp h
      obtain ⟨hclosed, hwrites⟩ := link_eq_ok_iff.mp hl
      exact ⟨hclosed, hwrites, hcheck⟩
  · rintro ⟨hclosed, hwrites, hcheck⟩
    rw [link_eq_ok_iff.mpr ⟨hclosed, hwrites⟩]
    exact Grammar.check_eq_ok_iff.mpr ⟨rfl, hcheck⟩

/-- **Building is exact.** What `Peg.Draft.build` answers is settled by what is written down, whatever
the references led to before. It says, of what holds first: that there are no rules; which name is the
first to be given again; which call, in the order of the rules and from left to right, is the first of
a rule that is not there, and in which rule it stands; that the root is not there; which rule is the
first with a repetition, at whatever depth, of something that may read nothing; or that a rule may call
itself before anything is read. Of all other drafts it gives the grammar that is written down, in which
names and numbers determine each other. -/
theorem build_exact (d : Draft) :
    (d.build = .error .noRules ↔ d.rules = []) ∧
    (∀ name, d.build = .error (.duplicate name) ↔ d.rules ≠ [] ∧ d.Repeats name) ∧
    (∀ name caller, d.build = .error (.undefined name caller) ↔
      d.rules ≠ [] ∧ (d.rules.map (·.name)).Nodup ∧ d.Misses name caller) ∧
    (∀ name, d.build = .error (.unknownRoot name) ↔
      d.rules ≠ [] ∧ (d.rules.map (·.name)).Nodup ∧ d.Complete ∧ d.root = some name ∧
        ¬d.Defines name) ∧
    (∀ name, d.build = .error (.nullableRepetition name) ↔
      d.Closed ∧ ∃ g, d.Writes g ∧
        ∃ rule, IsFirst (Definition.RepeatsNullable g.nullable) g.rules rule ∧ rule.name = name) ∧
    ((∃ cycle, d.build = .error (.leftRecursion cycle)) ↔
      d.Closed ∧ ∃ g, d.Writes g ∧ g.Repeatable ∧ g.LeftRecursive) ∧
    (∀ g, d.build = .ok g ↔ d.Closed ∧ d.Writes g ∧ g.Repeatable ∧ ¬g.LeftRecursive) ∧
    ∀ g, d.build = .ok g → ∀ name id, g.find? name = some id ↔ g.name? id = some name := by
  refine ⟨build_eq_error_iff_fails id, fun name => build_eq_error_iff_fails id,
    fun name caller => build_eq_error_iff_fails id, fun name => build_eq_error_iff_fails id,
    fun name => ?_, ?_, fun g => build_eq_ok_iff, fun g h name id => ?_⟩
  · simp only [build_eq_error_iff_check (.nullableRepetition name) trivial,
      Grammar.check_eq_nullableRepetition_iff]
  · simp only [build_eq_error_iff_check (.leftRecursion _) trivial,
      ← Grammar.exists_check_eq_leftRecursion_iff]
    tauto
  · obtain ⟨hclosed, hwrites, -⟩ := build_eq_ok_iff.mp h
    exact Grammar.find?_eq_some_iff (hwrites.names ▸ hclosed.names)

/-- `list <- 'x' tail?` and `tail <- ',' list`, where a call still carries a number from elsewhere. -/
def listed : Draft where
  rules := [⟨"list", .tree (.seq (.char 'x') (.opt (.call ⟨"tail", some 7⟩)))⟩,
    ⟨"tail", .tree (.seq (.char ',') (.call ⟨"list", none⟩))⟩]

theorem build_exact_listed :
    ∃ g, listed.build = .ok g ∧ listed.Writes g ∧ g.find? "tail" = some 1 := by
  obtain ⟨g, hg, hname⟩ : ∃ g, listed.build = .ok g ∧ g.name? 1 = some "tail" := ⟨_, rfl, rfl⟩
  obtain ⟨-, -, -, -, -, -, hok, hfind⟩ := build_exact listed
  exact ⟨g, hg, ((hok g).mp hg).2.1, (hfind g hg "tail" 1).mpr hname⟩

end Draft

end Peg
