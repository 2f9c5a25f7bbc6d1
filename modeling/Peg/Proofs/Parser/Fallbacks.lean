import Peg.Proofs.Grammar.Careful
import Peg.Proofs.Matching.Repetition
import Peg.Proofs.Parser.LeftRecursion

/-!
# What is never fallen back on

Matching has an answer to two things that go astray: a call that leads nowhere fails, and so does a
number that no rule has (`Peg.Task.Astray`). In a parse with a grammar whose calls were led to its rules
neither comes up by itself. The rule that the parse begins with is there, what a tree comes to is calls of
that tree and of rules that are there, and a name leads to a rule of this name or to none.

That leaves procedures, of which nothing was checked. One may ask for the number of a rule of another
grammar, or for an expression whose calls lead nowhere (`Peg.Grammar.Brings`). Whatever goes astray in a
parse comes of something of this kind (`Peg.Draft.lookups_succeed`), and it does happen
(`Peg.Draft.brings_astray`).
-/

namespace Peg

/-- The task fails for want of a rule: it is a number that no rule has, or a call that leads nowhere. -/
def Task.Astray (g : Grammar) : Task → Prop
  | .goal (.rule id) => g.body? id = none
  | .node (.call r) => r.id = none
  | _ => False

namespace Grammar

variable {g : Grammar} {τ : Task} {s t : State} {x : Task × State}

/-- A number below the number of rules is that of a rule. -/
theorem exists_body {id : RuleId} (h : id < g.size) : ∃ body, g.body? id = some body :=
  ⟨g.rules[id].body, by rw [body?, List.getElem?_eq_getElem h]; rfl⟩

theorem not_astray_of_bound (h : τ.Bound g) : ¬τ.Astray g := by
  rcases τ with (e | id | name) | e | ⟨e, mark⟩ | c
  · exact id
  · obtain ⟨body, hbody⟩ := exists_body h
    simp [Task.Astray, hbody]
  · exact id
  · cases e with
    | call r =>
      obtain ⟨id, hid, -⟩ := binds_call.mp h
      simp [Task.Astray, hid]
    | _ => exact id
  · exact id
  · exact id

/-- **A procedure brings something in from outside**: on the way to the task it has asked for a goal with
loose ends, and the task comes of that. -/
def Brings (g : Grammar) (x y : Task × State) : Prop :=
  ∃ goal r resume u, Relation.ReflTransGen g.Opens x (.script (.ask goal r resume), u) ∧
    ¬(Task.goal goal).Bound g ∧ Relation.ReflTransGen g.Opens (.goal goal, r) y

/-- What a task starts has loose ends only if the task is a procedure that asks for it. -/
theorem Starts.bound_or_ask (hr : g.Resolved) {τ' : Task} {s' : State} (h : g.Starts τ s τ' s')
    (hτ : τ.Bound g ∨ ∃ c, τ = .script c) :
    (τ'.Bound g ∨ ∃ c, τ' = .script c) ∨
      ∃ goal resume, τ = .script (.ask goal s' resume) ∧ τ' = .goal goal ∧ ¬τ'.Bound g := by
  rcases hτ with hb | ⟨c, rfl⟩
  · exact .inl (h.bound_or_script hr hb)
  · cases h with
    | @ask goal r resume =>
      by_cases hgoal : (Task.goal goal).Bound g
      · exact .inl (.inl hgoal)
      · exact .inr ⟨goal, resume, rfl, rfl, hgoal⟩
    | resume => exact .inl (.inr ⟨_, rfl⟩)

/-- **Loose ends are brought in**: what comes up on the way from something without any has none, as far as
that is known, or comes of what a procedure has asked for. -/
theorem bound_or_brings (hr : g.Resolved) {y : Task × State}
    (h : Relation.ReflTransGen g.Opens x y) (hx : x.1.Bound g) :
    (y.1.Bound g ∨ ∃ c, y.1 = .script c) ∨ g.Brings x y := by
  induction h with
  | refl => exact .inl (.inl hx)
  | @tail y z hxy hstep ih =>
    rcases ih with hy | ⟨goal, r, resume, u, hask, hloose, hy⟩
    · have hst : g.Starts y.1 y.2 z.1 z.2 := hstep
      refine (hst.bound_or_ask hr hy).imp_right ?_
      rintro ⟨goal, resume, hscript, hgoal, hloose⟩
      refine ⟨goal, z.2, resume, y.2, ?_, hgoal ▸ hloose, ?_⟩
      · rwa [← hscript]
      · rw [← hgoal]
    · exact .inr ⟨goal, r, resume, u, hask, hloose, hy.tail hstep⟩

/-- What goes astray is brought in by a procedure. -/
theorem brings_of_astray (hr : g.Resolved) (hx : x.1.Bound g)
    (h : Relation.ReflTransGen g.Opens x (τ, t)) (hτ : τ.Astray g) : g.Brings x (τ, t) := by
  rcases bound_or_brings hr h hx with (hb | ⟨c, rfl⟩) | hbrings
  · exact absurd hτ (not_astray_of_bound hb)
  · exact hτ.elim
  · exact hbrings

/-- The calls in the rules of a resolved grammar lead to rules. -/
theorem Resolved.exists_body_of_has (hr : g.Resolved) {r : Reference} (h : g.Has (.call r)) :
    ∃ id body, r.id = some id ∧ g.body? id = some body := by
  obtain ⟨id, e, hid, he⟩ := h
  have hcall : g.Binds (.call r) :=
    Careful.binds_of_mem_nodes (hr.binds_of_body hid) (Expr.mem_nodes_iff.mpr he)
  obtain ⟨id, hid, hlt⟩ := binds_call.mp hcall
  obtain ⟨body, hbody⟩ := exists_body hlt
  exact ⟨id, body, hid, hbody⟩

end Grammar

namespace Draft

variable {d : Draft} {g : Grammar}

/-- The root of a draft whose calls can be led to the rules is a rule. -/
theorem lt_size_of_root (h : d.link = .ok g) {id : RuleId} (hid : g.root = some id) : id < g.size := by
  obtain ⟨hclosed, hwrites⟩ := closed_writes_of_link h
  rcases hroot : d.root with _ | name
  · obtain rfl : id = 0 := Option.some.inj (hid.symm.trans (hwrites.first hroot))
    rw [Grammar.size, ← hwrites.rules.length_eq]
    exact List.length_pos_of_ne_nil hclosed.rules
  · obtain ⟨id', hid', hname⟩ := hwrites.root name hroot
    obtain rfl := Option.some.inj (hid.symm.trans hid')
    obtain ⟨rule, hrule, -⟩ := Option.map_eq_some_iff.mp hname
    exact (List.getElem?_eq_some_iff.mp hrule).1

/-- **What is looked up is there.** If the calls of a draft can be led to its rules, the analyses with
nothing to fall back on answer what building answers. Every call in a rule leads to a rule. And if a parse
begins with the root or with a rule that is found by its name, that rule is there, and a number that no
rule has, or a call that leads nowhere, comes up in it only where a procedure has brought it in. -/
theorem lookups_succeed (h : d.link = .ok g) :
    Careful.check g = some d.build ∧
      (∀ r, g.Has (.call r) → ∃ id body, r.id = some id ∧ g.body? id = some body) ∧
      ∀ id, (g.root = some id ∨ ∃ name, g.find? name = some id) →
        (∃ body, g.body? id = some body) ∧
        ∀ s τ t, Relation.ReflTransGen g.Opens (.goal (.rule id), s) (τ, t) → τ.Astray g →
          g.Brings (.goal (.rule id), s) (τ, t) := by
  have hr := resolved_of_link h
  have hbuild : d.build = g.check := by rw [build_eq_bind, h]; rfl
  refine ⟨hbuild ▸ Careful.check_eq hr, fun r => hr.exists_body_of_has, fun id hid => ?_⟩
  have hlt : id < g.size := by
    rcases hid with hroot | ⟨name, hname⟩
    · exact lt_size_of_root h hroot
    · exact (List.findIdx?_eq_some_iff_getElem.mp hname).1
  exact ⟨Grammar.exists_body hlt, fun s τ t hchain hastray =>
    Grammar.brings_of_astray hr hlt hchain hastray⟩

/-- `a <- b? a 'x'` and `b <- 'y'`. -/
def circular : Draft where
  rules := [⟨"a", .tree (.seq (.opt (Expr.rule "b")) (.seq (Expr.rule "a") (.char 'x')))⟩,
    ⟨"b", .tree (.char 'y')⟩]

/-- The grammar of `Peg.Draft.circular`, which is linked and not built. -/
def circularGrammar : Grammar where
  rules := circular.bound
  root := some 0

theorem lookups_succeed_circular :
    circular.link = .ok circularGrammar ∧
      Careful.check circularGrammar = some (.error (.leftRecursion ["a", "a"])) ∧
      ∃ body, circularGrammar.body? 1 = some body := by
  have hlink : circular.link = .ok circularGrammar := rfl
  obtain ⟨hcheck, -, hrules⟩ := lookups_succeed hlink
  have hbuild : circular.build = .error (.leftRecursion ["a", "a"]) := rfl
  exact ⟨hlink, hcheck.trans (congrArg some hbuild), (hrules 1 (.inr ⟨"b", rfl⟩)).1⟩

/-- A procedure that asks for the number of a rule of another grammar. -/
def foreign : Draft where
  rules := [⟨"a", .native fun s => .ask (.rule 1) s .done⟩]

/-- An expression that is a procedure of the rule `a`, so that its call is not led to the rule `b`. -/
def unled : Draft where
  rules := [⟨"a", .opaqueTree (Expr.rule "b")⟩, ⟨"b", .tree (.char 'x')⟩]

/-- What the procedure of a rule asks for first comes up in a parse that begins with the rule. -/
theorem opens_asked {id : RuleId} {goal : Goal} {resume : State → Bool → State → Script}
    (hid : g.body? id = some (.native fun s => .ask goal s (resume s))) (s : State) :
    ∃ t, Relation.ReflTransGen g.Opens (.goal (.rule id), s) (.goal goal, t) :=
  ⟨_, .tail (.single (Grammar.Starts.native hid).opens) Grammar.Starts.ask.opens⟩

/-- **Procedures bring in what goes astray.** Two drafts are built whose parses come to a number that no
rule has, with an entry into a rule without a name among the events, and to a call that leads nowhere
although there is a rule of its name. -/
theorem brings_astray :
    (∃ g t p, foreign.link = .ok g ∧ foreign.build = .ok g ∧ g.root = some 0 ∧
      Relation.ReflTransGen g.Opens (.goal (.rule 0), (Parser.mk g {}).start 0 #[])
        (.goal (.rule 1), t) ∧
      (Task.goal (.rule 1)).Astray g ∧ g.parse "" = .ok p ∧ .enter "" 0 ∈ p.trace) ∧
    ∃ g t p, unled.link = .ok g ∧ unled.build = .ok g ∧ g.root = some 0 ∧ g.find? "b" = some 1 ∧
      Relation.ReflTransGen g.Opens (.goal (.rule 0), (Parser.mk g {}).start 0 #['x'])
        (.node (Expr.rule "b"), t) ∧
      (Task.node (Expr.rule "b")).Astray g ∧ g.parse "x" = .ok p ∧ p.outcome.matched = false := by
  refine ⟨⟨⟨foreign.bound, some 0⟩, ?_⟩, ⟨unled.bound, some 0⟩, ?_⟩
  · obtain ⟨t, ht⟩ := opens_asked (rfl : Grammar.body? ⟨foreign.bound, some 0⟩ 0 = _) _
    exact ⟨t, _, rfl, rfl, rfl, ht, rfl, rfl, by decide⟩
  · obtain ⟨t, ht⟩ := opens_asked (rfl : Grammar.body? ⟨unled.bound, some 0⟩ 0 = _) _
    exact ⟨t, _, rfl, rfl, rfl, rfl, ht.tail Grammar.Starts.node.opens, rfl, rfl, rfl⟩

end Draft

end Peg
