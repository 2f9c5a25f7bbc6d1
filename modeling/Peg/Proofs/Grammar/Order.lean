import Peg.Proofs.Grammar.Exactness
import Peg.Proofs.Grammar.Nullable

/-!
# Rules in another order

When the rules of a draft are written down in another order, they get other numbers, and all that is
found by going through them comes up in another order. What they are called stays the same, and so does
which rules each of them calls. So two grammars are compared by names: a rule has as its counterpart
the rule of the same name, which is the same rule with its calls led elsewhere
(`Peg.Grammar.Counterpart`), and two grammars have the same rules if every name leads to counterparts or
to no rule in either (`Peg.Grammar.Reordered`).

That the analyses come to the same in the two grammars rests on their being exact. The verdicts on the
rules are the least, and those of the one grammar, carried over by name, are verdicts in the other of
which a revision makes no more (`Peg.Grammar.Reordered.verdictOn_eq`); there is a cycle of left calls in
one if there is one in the other, though perhaps another one is reported. So building ends in the same
way, up to which of several defects of a kind comes up first (`Peg.Draft.build_accord`). Native rules
are no exception, since the analyses do not look into them.
-/

namespace Peg

/-- Where the first of two options that are related has a value, the second has one related to it. -/
theorem exists_of_rel {α β : Type} {R : α → β → Prop} {x : Option α} {y : Option β} {a : α}
    (h : Option.Rel R x y) (hx : x = some a) : ∃ b, y = some b ∧ R a b := by
  cases h with
  | none => cases hx
  | some hab =>
    obtain rfl := Option.some.inj hx
    exact ⟨_, rfl, hab⟩

/-! ### Trees that are led in two ways -/

/-- What the verdicts say on the rule that a name leads to. A name that leads nowhere is not
nullable. -/
def verdictOn (find : String → Option RuleId) (v : List Bool) (name : String) : Bool :=
  (find name).any fun id => v.getD id false

section Bind

variable {find find' : String → Option RuleId} {v w : List Bool} {ends : Bool}

theorem verdictOn_eq_true_iff {name : String} :
    verdictOn find v name = true ↔ ∃ id, find name = some id ∧ v.getD id false = true := by
  rw [verdictOn, Option.any_eq_true]

/-- More nullable names make more trees nullable, wherever the names lead. -/
theorem Expr.nullable_bind_mono
    (h : ∀ name, verdictOn find v name = true → verdictOn find' w name = true) (e : Expr) :
    (e.bind find).nullable v ends = true → (e.bind find').nullable w ends = true := by
  induction e with
  | seq a b iha ihb =>
    simp only [bind, nullable, Bool.and_eq_true]
    exact And.imp iha ihb
  | alt a b iha ihb =>
    simp only [bind, nullable, Bool.or_eq_true]
    exact Or.imp iha ihb
  | plus a ih => exact ih
  | capture a ih => exact ih
  | call r => exact h r.name
  | _ => exact fun h => h

theorem Body.nullable_bind_mono
    (h : ∀ name, verdictOn find v name = true → verdictOn find' w name = true) (b : Body) :
    (b.bind find).nullable v ends = true → (b.bind find').nullable w ends = true := by
  cases b with
  | tree e => exact e.nullable_bind_mono h
  | native start => exact fun h => h

theorem Expr.nullable_bind_congr (h : verdictOn find v = verdictOn find' w) (e : Expr) :
    (e.bind find).nullable v ends = (e.bind find').nullable w ends := by
  rw [Bool.eq_iff_iff]
  exact ⟨e.nullable_bind_mono fun name hname => h ▸ hname,
    e.nullable_bind_mono fun name hname => h ▸ hname⟩

theorem Body.repeatsNullable_bind_congr (h : verdictOn find v = verdictOn find' w) (b : Body) :
    (b.bind find).repeatsNullable v = (b.bind find').repeatsNullable w := by
  cases b with
  | native start => rfl
  | tree e =>
    simp only [bind, repeatsNullable, Expr.nodes_bind, List.any_map]
    congr 1
    funext n
    cases n with
    | star a => exact a.nullable_bind_congr h
    | plus a => exact a.nullable_bind_congr h
    | _ => rfl

/-- What the one tree calls at its left edge, the other calls there too. -/
theorem Expr.exists_mem_leftCalls_bind {R : RuleId → RuleId → Prop}
    (hR : ∀ name, Option.Rel R (find name) (find' name))
    (h : verdictOn find v = verdictOn find' w) (e : Expr) :
    ∀ id ∈ (e.bind find).leftCalls v ends, ∃ id' ∈ (e.bind find').leftCalls w ends, R id id' := by
  induction e with
  | seq a b iha ihb =>
    simp only [bind, leftCalls, ← a.nullable_bind_congr h]
    intro id hid
    rcases List.mem_append.mp hid with hid | hid
    · obtain ⟨id', hid', hrel⟩ := iha id hid
      exact ⟨id', List.mem_append_left _ hid', hrel⟩
    · split at hid
      · rename_i hnull
        obtain ⟨id', hid', hrel⟩ := ihb id hid
        exact ⟨id', List.mem_append_right _ (by rwa [if_pos hnull]), hrel⟩
      · simp at hid
  | alt a b iha ihb =>
    intro id hid
    rcases List.mem_append.mp hid with hid | hid
    · obtain ⟨id', hid', hrel⟩ := iha id hid
      exact ⟨id', List.mem_append_left _ hid', hrel⟩
    · obtain ⟨id', hid', hrel⟩ := ihb id hid
      exact ⟨id', List.mem_append_right _ hid', hrel⟩
  | opt a ih => exact ih
  | star a ih => exact ih
  | plus a ih => exact ih
  | ahead a ih => exact ih
  | notAhead a ih => exact ih
  | capture a ih => exact ih
  | call r =>
    simp only [bind, leftCalls, Option.mem_toList]
    exact fun id hid => exists_of_rel (hR r.name) hid
  | _ => exact fun id hid => absurd hid List.not_mem_nil

theorem Body.exists_mem_leftCalls_bind {R : RuleId → RuleId → Prop}
    (hR : ∀ name, Option.Rel R (find name) (find' name))
    (h : verdictOn find v = verdictOn find' w) (b : Body) :
    ∀ id ∈ (b.bind find).leftCalls v ends, ∃ id' ∈ (b.bind find').leftCalls w ends, R id id' := by
  cases b with
  | tree e => exact e.exists_mem_leftCalls_bind hR h
  | native start => exact fun id hid => absurd hid List.not_mem_nil

end Bind

/-! ### Grammars with the same rules -/

namespace Grammar

/-- The rules have the same name and do the same, where each calls the rules of its own grammar. -/
structure Counterpart (g g' : Grammar) (id id' : RuleId) : Prop where
  name : ∃ name, g.name? id = some name ∧ g'.name? id' = some name
  body : ∃ b : Body, g.body? id = some (b.bind g.find?) ∧ g'.body? id' = some (b.bind g'.find?)

/-- **The second grammar has the rules of the first**, perhaps in another order. -/
structure Reordered (g g' : Grammar) : Prop where
  distinct : (g.rules.map (·.name)).Nodup
  distinct' : (g'.rules.map (·.name)).Nodup
  find : ∀ name, Option.Rel (g.Counterpart g') (g.find? name) (g'.find? name)

variable {g g' : Grammar} {id id' : RuleId}

theorem exists_name?_of_body {b : Body} (h : g.body? id = some b) : ∃ name, g.name? id = some name := by
  obtain ⟨rule, hrule, -⟩ := Option.map_eq_some_iff.mp h
  exact ⟨rule.name, by rw [name?, hrule]; rfl⟩

theorem lt_size_of_find? (g : Grammar) {name : String} (h : g.find? name = some id) : id < g.size :=
  (List.findIdx?_eq_some_iff_getElem.mp h).1

/-- Verdicts on names as verdicts on the rules. -/
def byName (g : Grammar) (allows : String → Bool) : List Bool :=
  g.rules.map fun rule => allows rule.name

theorem getD_byName {allows : String → Bool} {name : String} (h : g.name? id = some name) :
    (g.byName allows).getD id false = allows name := by
  obtain ⟨rule, hrule, rfl⟩ := Option.map_eq_some_iff.mp h
  simp [byName, hrule]

theorem of_verdictOn_byName {allows : String → Bool} {name : String}
    (hnames : (g.rules.map (·.name)).Nodup)
    (h : verdictOn g.find? (g.byName allows) name = true) : allows name = true := by
  obtain ⟨id, hid, hverdict⟩ := verdictOn_eq_true_iff.mp h
  rwa [getD_byName ((find?_eq_some_iff hnames).mp hid)] at hverdict

theorem edge_leftEdges_iff {ends : Bool} {b : Body} {next : RuleId} (h : g.body? id = some b) :
    Digraph.Edge (g.leftEdges ends) id next ↔ next ∈ b.leftCalls (g.nullable ends) ends := by
  obtain ⟨rule, hrule, rfl⟩ := Option.map_eq_some_iff.mp h
  simp [Digraph.Edge, leftEdges, hrule]

theorem exists_body_of_edge {ends : Bool} {next : RuleId}
    (h : Digraph.Edge (g.leftEdges ends) id next) : ∃ b, g.body? id = some b := by
  have hlt := Digraph.lt_length_of_edge h
  rw [leftEdges, List.length_map] at hlt
  exact ⟨g.rules[id].body, by rw [body?, List.getElem?_eq_getElem hlt]; rfl⟩

namespace Counterpart

theorem symm (h : g.Counterpart g' id id') : g'.Counterpart g id' id := by
  obtain ⟨⟨name, hname, hname'⟩, b, hb, hb'⟩ := h
  exact ⟨⟨name, hname', hname⟩, b, hb', hb⟩

theorem nameOf_eq (h : g.Counterpart g' id id') : g.nameOf id = g'.nameOf id' := by
  obtain ⟨name, hname, hname'⟩ := h.name
  rw [nameOf, nameOf, hname, hname']

end Counterpart

namespace Reordered

variable (h : g.Reordered g')
include h

theorem symm : g'.Reordered g := by
  refine ⟨h.distinct', h.distinct, fun name => ?_⟩
  have hrel := h.find name
  generalize g.find? name = x, g'.find? name = y at hrel ⊢
  cases hrel with
  | none => exact .none
  | some hid => exact .some hid.symm

/-- What a name leads to in the one grammar has a counterpart to which it leads in the other. -/
theorem exists_find {name : String} (hid : g.find? name = some id) :
    ∃ id', g'.find? name = some id' ∧ g.Counterpart g' id id' :=
  exists_of_rel (h.find name) hid

theorem exists_counterpart {b : Body} (hb : g.body? id = some b) :
    ∃ id', g.Counterpart g' id id' := by
  obtain ⟨name, hname⟩ := exists_name?_of_body hb
  obtain ⟨id', -, hid'⟩ := h.exists_find ((find?_eq_some_iff h.distinct).mpr hname)
  exact ⟨id', hid'⟩

/-- Every rule is one of the other grammar with its calls led elsewhere. -/
theorem exists_rule {rule : Definition} (hrule : rule ∈ g.rules) :
    ∃ b : Body, ∃ rule' ∈ g'.rules,
      rule.body = b.bind g.find? ∧ rule'.body = b.bind g'.find? := by
  obtain ⟨id, hid⟩ := List.getElem?_of_mem hrule
  have hbody : g.body? id = some rule.body := by rw [body?, hid]; rfl
  obtain ⟨id', hcounter⟩ := h.exists_counterpart hbody
  obtain ⟨b, hb, hb'⟩ := hcounter.body
  obtain ⟨rule', hrule', hbody'⟩ := Option.map_eq_some_iff.mp hb'
  exact ⟨b, rule', List.mem_of_getElem? hrule', Option.some.inj (hbody.symm.trans hb), hbody'⟩

/-- A rule has one counterpart. -/
theorem counterpart_unique {id'' : RuleId} (hid : g.Counterpart g' id id')
    (hid' : g.Counterpart g' id id'') : id' = id'' := by
  obtain ⟨name, hname, hname'⟩ := hid.name
  obtain ⟨_, hname₂, hname''⟩ := hid'.name
  obtain rfl := Option.some.inj (hname.symm.trans hname₂)
  rw [← find?_eq_some_iff h.distinct'] at hname' hname''
  exact Option.some.inj (hname'.symm.trans hname'')

/-! ### The analyses -/

/-- Carried over by name, the verdicts of the other grammar are verdicts of which a revision makes no
more. -/
theorem revise_byName (ends : Bool) :
    Below (g.revise (g.byName (verdictOn g'.find? (g'.nullable ends))) ends)
      (g.byName (verdictOn g'.find? (g'.nullable ends))) := by
  intro id hid
  obtain ⟨b, hb, hnull⟩ := (g.getD_revise_eq_true_iff ends).mp hid
  obtain ⟨name, hname⟩ := exists_name?_of_body hb
  obtain ⟨id', hid', hcounter⟩ := h.exists_find ((find?_eq_some_iff h.distinct).mpr hname)
  obtain ⟨b₀, hb₀, hb'⟩ := hcounter.body
  obtain rfl := Option.some.inj (hb.symm.trans hb₀)
  rw [getD_byName hname, verdictOn_eq_true_iff]
  refine ⟨id', hid', ?_⟩
  rw [g'.getD_nullable ends hb']
  exact b₀.nullable_bind_mono (fun _ => of_verdictOn_byName h.distinct) hnull

/-- What is nullable in the one grammar is so in the other. -/
theorem verdictOn_mono (ends : Bool) (name : String) :
    verdictOn g.find? (g.nullable ends) name = true →
      verdictOn g'.find? (g'.nullable ends) name = true := by
  intro hname
  obtain ⟨id, hid, hverdict⟩ := verdictOn_eq_true_iff.mp hname
  -- the verdicts of this grammar are the least
  have hbyName := g.nullable_below ends (h.revise_byName ends) id hverdict
  exact of_verdictOn_byName h.distinct (verdictOn_eq_true_iff.mpr ⟨id, hid, hbyName⟩)

/-- **The verdicts on a name are the same.** -/
theorem verdictOn_eq (ends : Bool) :
    verdictOn g.find? (g.nullable ends) = verdictOn g'.find? (g'.nullable ends) := by
  funext name
  exact Bool.eq_iff_iff.mpr ⟨h.verdictOn_mono ends name, h.symm.verdictOn_mono ends name⟩

/-- So the verdicts on the rules of a name are the same. -/
theorem exists_getElem?_nullable {name : String} (hid : g.find? name = some id)
    (hid' : g'.find? name = some id') (ends : Bool) :
    ∃ b, (g.nullable ends)[id]? = some b ∧ (g'.nullable ends)[id']? = some b := by
  have hverdict := congrFun (h.verdictOn_eq ends) name
  rw [verdictOn, verdictOn, hid, hid', Option.any_some, Option.any_some] at hverdict
  have hlt : id < (g.nullable ends).length := by simpa using g.lt_size_of_find? hid
  have hlt' : id' < (g'.nullable ends).length := by simpa using g'.lt_size_of_find? hid'
  simp only [List.getD_eq_getElem?_getD, List.getElem?_eq_getElem hlt,
    List.getElem?_eq_getElem hlt', Option.getD_some] at hverdict
  exact ⟨_, List.getElem?_eq_getElem hlt, hverdict ▸ List.getElem?_eq_getElem hlt'⟩

theorem repeatable (hg : g.Repeatable) : g'.Repeatable := by
  intro rule' hrule'
  obtain ⟨b, rule, hrule, hb', hb⟩ := h.symm.exists_rule hrule'
  have hnot := hg rule hrule
  rw [← Definition.repeatsNullable_iff] at hnot ⊢
  rwa [hb', ← b.repeatsNullable_bind_congr (h.verdictOn_eq false), ← hb]

theorem exists_edge {next : RuleId} (hid : g.Counterpart g' id id')
    (he : Digraph.Edge g.leftEdges id next) :
    ∃ next', Digraph.Edge g'.leftEdges id' next' ∧ g.Counterpart g' next next' := by
  obtain ⟨b, hb, hb'⟩ := hid.body
  rw [edge_leftEdges_iff hb] at he
  simp only [edge_leftEdges_iff hb']
  exact b.exists_mem_leftCalls_bind h.find (h.verdictOn_eq false) next he

/-- A way along left calls leads to counterparts. -/
theorem exists_path {last : RuleId} (hid : g.Counterpart g' id id')
    (hp : Relation.TransGen (Digraph.Edge g.leftEdges) id last) :
    ∃ last', Relation.TransGen (Digraph.Edge g'.leftEdges) id' last' ∧
      g.Counterpart g' last last' := by
  induction hp with
  | single he =>
    obtain ⟨next', he', hnext⟩ := h.exists_edge hid he
    exact ⟨next', .single he', hnext⟩
  | tail _ he ih =>
    obtain ⟨mid', hp', hmid⟩ := ih
    obtain ⟨next', he', hnext⟩ := h.exists_edge hmid he
    exact ⟨next', hp'.tail he', hnext⟩

theorem leftRecursive (hg : g.LeftRecursive) : g'.LeftRecursive := by
  obtain ⟨id, hcycle⟩ := hg
  obtain ⟨next, he, -⟩ := Relation.TransGen.head'_iff.mp hcycle
  obtain ⟨b, hb⟩ := exists_body_of_edge he
  obtain ⟨id', hid⟩ := h.exists_counterpart hb
  obtain ⟨last', hp', hlast⟩ := h.exists_path hid hcycle
  exact ⟨id', h.counterpart_unique hlast hid ▸ hp'⟩

end Reordered

end Grammar

/-! ### The kinds of defects -/

/-- What is wrong with a draft, without the names. -/
inductive Defect.Kind
  | noRules
  | duplicate
  | undefined
  | unknownRoot
  | nullableRepetition
  | leftRecursion
deriving DecidableEq

/-- The kind of the defect. -/
def Defect.kind : Defect → Kind
  | noRules => .noRules
  | duplicate _ => .duplicate
  | undefined _ _ => .undefined
  | unknownRoot _ => .unknownRoot
  | nullableRepetition _ => .nullableRepetition
  | leftRecursion _ => .leftRecursion

/-- Grammars with the same rules, or defects of one kind. -/
inductive Accord : Except Defect Grammar → Except Defect Grammar → Prop
  | ok {g g' : Grammar} (h : g.Reordered g') : Accord (.ok g) (.ok g')
  | error {x x' : Defect} (h : x'.kind = x.kind) : Accord (.error x) (.error x')

theorem Accord.bind {x x' : Except Defect Grammar} {f : Grammar → Except Defect Grammar}
    (h : Accord x x') (hf : ∀ g g', g.Reordered g' → Accord (f g) (f g')) :
    Accord (x.bind f) (x'.bind f) := by
  cases h with
  | ok hg => exact hf _ _ hg
  | error hkind => exact .error hkind

theorem Grammar.Reordered.check {g g' : Grammar} (h : g.Reordered g') :
    Accord g.check g'.check := by
  have hrep : g.nullableRepetition? = none ↔ g'.nullableRepetition? = none := by
    rw [nullableRepetition?_eq_none_iff, nullableRepetition?_eq_none_iff]
    exact ⟨h.repeatable, h.symm.repeatable⟩
  have hleft : g.leftRecursion? = none ↔ g'.leftRecursion? = none := by
    rw [leftRecursion?_eq_none_iff, leftRecursion?_eq_none_iff]
    exact not_congr ⟨h.leftRecursive, h.symm.leftRecursive⟩
  rw [Grammar.check, Grammar.check]
  rcases hn : g.nullableRepetition? with _ | rule
  · rw [hrep.mp hn]
    rcases hl : g.leftRecursion? with _ | cycle
    · rw [hleft.mp hl]
      exact .ok h
    · obtain ⟨cycle', hl'⟩ := Option.ne_none_iff_exists'.mp (mt hleft.mpr (by simp [hl]))
      rw [hl']
      exact .error rfl
  · obtain ⟨rule', hn'⟩ := Option.ne_none_iff_exists'.mp (mt hrep.mpr (by simp [hn]))
    rw [hn']
    exact .error rfl

/-! ### Drafts -/

namespace Draft

variable {d d' : Draft}

theorem exists_repeats_iff : (∃ name, d.Repeats name) ↔ ¬(d.rules.map (·.name)).Nodup := by
  rw [← firstRepeated?_eq_none_iff, ← ne_eq, Option.ne_none_iff_exists']
  exact exists_congr fun name => firstRepeated?_eq_some_iff.symm

theorem exists_misses_iff : (∃ name caller, d.Misses name caller) ↔ ¬d.Complete := by
  rw [← firstUndefined?_eq_none_iff, ← ne_eq, Option.ne_none_iff_exists']
  simp only [Prod.exists, firstUndefined?_eq_some_iff]

section Perm

variable (hp : d.rules.Perm d'.rules)
include hp

theorem defines_perm (name : String) : d.Defines name ↔ d'.Defines name :=
  (hp.map _).mem_iff

theorem complete_perm : d.Complete ↔ d'.Complete := by
  have hcalls : d.calls.Perm d'.calls := hp.flatMap_right _
  simp only [Complete, hcalls.mem_iff, defines_perm hp]

theorem nodup_perm : (d.rules.map (·.name)).Nodup ↔ (d'.rules.map (·.name)).Nodup :=
  (hp.map _).nodup_iff

/-- The first defect is of the same kind. -/
theorem exists_fails_perm (hroot : d'.root = d.root) {x : Defect} (h : d.Fails x) :
    ∃ x', d'.Fails x' ∧ x'.kind = x.kind := by
  have hempty : d.rules = [] ↔ d'.rules = [] := by
    rw [← List.isEmpty_iff, ← List.isEmpty_iff, hp.isEmpty_eq]
  cases x with
  | noRules => exact ⟨.noRules, hempty.mp h, rfl⟩
  | duplicate name =>
    obtain ⟨hne, hrep⟩ := h
    obtain ⟨name', hrep'⟩ : ∃ name', d'.Repeats name' :=
      exists_repeats_iff.mpr (mt (nodup_perm hp).mpr (exists_repeats_iff.mp ⟨name, hrep⟩))
    exact ⟨.duplicate name', ⟨mt hempty.mpr hne, hrep'⟩, rfl⟩
  | undefined name caller =>
    obtain ⟨hne, hnames, hmiss⟩ := h
    obtain ⟨name', caller', hmiss'⟩ : ∃ name' caller', d'.Misses name' caller' :=
      exists_misses_iff.mpr (mt (complete_perm hp).mpr (exists_misses_iff.mp ⟨name, caller, hmiss⟩))
    exact ⟨.undefined name' caller', ⟨mt hempty.mpr hne, (nodup_perm hp).mp hnames, hmiss'⟩, rfl⟩
  | unknownRoot name =>
    obtain ⟨hne, hnames, hcalls, hname, hdef⟩ := h
    refine ⟨.unknownRoot name, ⟨mt hempty.mpr hne, (nodup_perm hp).mp hnames,
      (complete_perm hp).mp hcalls, hroot.trans hname, mt (defines_perm hp name).mpr hdef⟩, rfl⟩
  | nullableRepetition rule => exact h.elim
  | leftRecursion cycle => exact h.elim

end Perm

namespace Writes

variable {g : Grammar} (h : d.Writes g) (hnames : (d.rules.map (·.name)).Nodup)
include h hnames

theorem find?_eq : d.find? = g.find? := by
  funext name
  ext id
  rw [find?_eq_some_iff hnames h.names, Grammar.find?_eq_some_iff (h.names ▸ hnames)]

theorem find?_eq_none_iff {name : String} : g.find? name = none ↔ ¬d.Defines name := by
  rw [← h.find?_eq hnames, ← isNone_find?_iff, Option.isNone_iff_eq_none]

/-- Every rule that is written down stands in the grammar under its name, with its calls led to the
rules of theirs. -/
theorem exists_body {rule : Definition} (hrule : rule ∈ d.rules) :
    ∃ id, g.find? rule.name = some id ∧ g.name? id = some rule.name ∧
      g.body? id = some (rule.body.bind g.find?) := by
  obtain ⟨id, hid⟩ := List.getElem?_of_mem hrule
  have hrule' : g.rules[id]? = some { rule with body := rule.body.bind g.find? } := by
    rw [h.rules_eq hnames, bound, List.getElem?_map, hid, h.find?_eq hnames]
    rfl
  have hname : g.name? id = some rule.name := by rw [Grammar.name?, hrule']; rfl
  exact ⟨id, (Grammar.find?_eq_some_iff (h.names ▸ hnames)).mpr hname, hname,
    by rw [Grammar.body?, hrule']; rfl⟩

end Writes

/-- Drafts of the same rules write down grammars with the same rules. -/
theorem reordered_of_perm {g g' : Grammar} (hp : d.rules.Perm d'.rules) (hd : d.Closed)
    (hd' : d'.Closed) (hw : d.Writes g) (hw' : d'.Writes g') : g.Reordered g' := by
  refine ⟨hw.names ▸ hd.names, hw'.names ▸ hd'.names, fun name => ?_⟩
  by_cases hdef : d.Defines name
  · obtain ⟨rule, hrule, rfl⟩ := List.mem_map.mp hdef
    obtain ⟨id, hid, hname, hbody⟩ := hw.exists_body hd.names hrule
    obtain ⟨id', hid', hname', hbody'⟩ := hw'.exists_body hd'.names (hp.mem_iff.mp hrule)
    rw [hid, hid']
    exact .some ⟨⟨rule.name, hname, hname'⟩, rule.body, hbody, hbody'⟩
  · rw [(hw.find?_eq_none_iff hd.names).mpr hdef,
      (hw'.find?_eq_none_iff hd'.names).mpr (mt (defines_perm hp name).mpr hdef)]
    exact .none

/-- The calls of the same rules are led to them in the same way, or fail in the same way. -/
theorem link_accord (hp : d.rules.Perm d'.rules) (hroot : d'.root = d.root) :
    Accord d.link d'.link := by
  rcases hl : d.link with x | g
  · obtain ⟨x', hx', hkind⟩ := exists_fails_perm hp hroot (link_eq_error_iff.mp hl)
    rw [link_eq_error_iff.mpr hx']
    exact .error hkind
  · obtain ⟨hclosed, hwrites⟩ := link_eq_ok_iff.mp hl
    rcases hl' : d'.link with x' | g'
    · obtain ⟨x, hx, -⟩ := exists_fails_perm hp.symm hroot.symm (link_eq_error_iff.mp hl')
      exact absurd hx (hclosed.not_fails x)
    · obtain ⟨hclosed', hwrites'⟩ := link_eq_ok_iff.mp hl'
      exact .ok (reordered_of_perm hp hclosed hclosed' hwrites hwrites')

/-- **Building the same rules ends in the same way**, with the same rules or with a defect of the same
kind. -/
theorem build_accord (hp : d.rules.Perm d'.rules) (hroot : d'.root = d.root) :
    Accord d.build d'.build := by
  rw [build_eq_bind, build_eq_bind]
  exact (link_accord hp hroot).bind fun _ _ h => h.check

end Draft

end Peg
