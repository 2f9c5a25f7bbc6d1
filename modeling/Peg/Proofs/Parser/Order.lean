import Peg.Parser
import Peg.Proofs.Grammar.Order
import Peg.Proofs.Matching.Endless

/-!
# The order of the rules does not matter

In two grammars with the same rules, an expression whose calls are led to the rules of the one is matched
as it is with its calls led to the rules of the other (`Peg.Grammar.Reordered.attempt`). So a parse from
a rule that is named comes to the same, whichever grammar it is done with, and with it all that building
does: which kind of defect there is, which rules are nullable, and what is parsed
(`Peg.Draft.build_perm`).

This is said of trees. A native rule may ask for a rule by its number, and then the order does matter.
-/

namespace Peg

/-- One step of matching is the same for trees that are led in two ways, provided their parts are
attempted alike, and so are the rules that the names lead to. -/
theorem Expr.step_bind_congr {find find' : String → Option RuleId} {R : RuleId → RuleId → Prop}
    {attempt attempt' : Goal → Matcher} (hfind : ∀ name, Option.Rel R (find name) (find' name))
    (hexpr : ∀ e : Expr, attempt (.expr (e.bind find)) = attempt' (.expr (e.bind find')))
    (hrule : ∀ id id', R id id' → attempt (.rule id) = attempt' (.rule id')) (bound : Nat) (e : Expr) :
    (e.bind find).step attempt bound = (e.bind find').step attempt' bound := by
  cases e with
  | call r =>
    have hrel := hfind r.name
    rw [bind, bind, step, step]
    generalize find r.name = x, find' r.name = y at hrel
    cases hrel with
    | none => rfl
    | some hid => simp only [hrule _ _ hid]
  | _ => simp only [bind, step, hexpr]

namespace Grammar

variable {g g' : Grammar}

namespace Reordered

theorem allTrees (h : g.Reordered g') (hg : g.AllTrees) : g'.AllTrees := by
  intro rule' hrule'
  obtain ⟨b, rule, hrule, hb', hb⟩ := h.symm.exists_rule hrule'
  have htree := hg rule hrule
  cases b with
  | native start => simp [hb, Body.bind, Body.tree?] at htree
  | tree e => simp [hb', Body.bind, Body.tree?]

/-- **Rules are attempted as their counterparts are**, and so are trees with their calls led to the rules
of either grammar. -/
theorem attempt (h : g.Reordered g') (hg : g.AllTrees) (depth : Nat) :
    (∀ e : Expr, g.attempt depth (.expr (e.bind g.find?)) =
      g'.attempt depth (.expr (e.bind g'.find?))) ∧
    ∀ id id', g.Counterpart g' id id' →
      g.attempt depth (.rule id) = g'.attempt depth (.rule id') := by
  induction depth with
  | zero => exact ⟨fun _ => rfl, fun _ _ _ => rfl⟩
  | succ depth ih =>
    obtain ⟨hexpr, hrule⟩ := ih
    refine ⟨fun e => ?_, fun id id' hid => ?_⟩
    · rw [Grammar.attempt, Grammar.attempt]
      exact congrArg Matcher.rollback (Expr.step_bind_congr h.find hexpr hrule depth e)
    · obtain ⟨b, hb, hb'⟩ := hid.body
      cases b with
      | native start => exact absurd hb hg.body_ne_native
      | tree e =>
        rw [Grammar.attempt, Grammar.attempt, hb, hb', hid.nameOf_eq]
        exact congrArg (Matcher.traced _) (hexpr e)

theorem evaluate (h : g.Reordered g') (hg : g.AllTrees) {id id' : RuleId}
    (hid : g.Counterpart g' id id') : g.evaluate (.rule id) = g'.evaluate (.rule id') := by
  funext s
  ext ⟨b, t⟩
  rw [hg.evaluate_iff_runs, (h.allTrees hg).evaluate_iff_runs, ← exists_attempt_iff_runs,
    ← exists_attempt_iff_runs]
  simp only [(h.attempt hg _).2 id id' hid]

end Reordered

end Grammar

namespace Parser

variable {g g' : Grammar}

/-- A parse by a rule depends on the name of the rule and on what it is evaluated to. -/
theorem run_congr {id id' : RuleId} (hname : g.nameOf id = g'.nameOf id')
    (heval : g.evaluate (.rule id) = g'.evaluate (.rule id')) (settings : Settings)
    (input : Array Char) :
    run { grammar := g, settings } id input = run { grammar := g', settings } id' input := by
  have hstart : start { grammar := g, settings } id input =
      start { grammar := g', settings } id' input := by
    rw [start, start, hname]
  have hfinish : finish { grammar := g, settings } id = finish { grammar := g', settings } id' := by
    funext matched s
    rw [finish, finish, hname]
  simp only [run, run?, hstart, hfinish, heval]

/-- **A parse from a rule that is named does not depend on the order of the rules.** -/
theorem parseFrom_reordered (h : g.Reordered g') (hg : g.AllTrees) (settings : Settings)
    (name input : String) :
    parseFrom { grammar := g, settings } name input =
      parseFrom { grammar := g', settings } name input := by
  have hrel := h.find name
  rw [parseFrom, parseFrom]
  generalize g.find? name = x, g'.find? name = y at hrel
  cases hrel with
  | none => rfl
  -- the numbers of the rule are not seen from outside
  | some hid => exact run_congr hid.nameOf_eq (h.evaluate hg hid) settings _

end Parser

namespace Draft

/-- A draft of trees writes down a grammar of trees. -/
theorem Writes.allTrees {d : Draft} {g : Grammar} (h : d.Writes g)
    (hnames : (d.rules.map (·.name)).Nodup) (htrees : ∀ rule ∈ d.rules, rule.body.tree?.isSome) :
    g.AllTrees := by
  rw [Grammar.AllTrees, h.rules_eq hnames, bound]
  refine List.forall_mem_map.mpr fun rule hrule => ?_
  have htree := htrees rule hrule
  rcases hb : rule.body with e | start
  · rfl
  · simp [hb, Body.tree?] at htree

variable {rules rules' : List Definition}

/-- **The order of the rules does not matter**, when they are trees. In another order they are built into
a grammar, or refused for a defect of the same kind, as they are in the first. As soon as the calls lead
to the rules, the verdict on the rule of a name is the same in both orders. And if they are built into
grammars, a parse from a rule that is named comes to the same, whatever the settings and the input. -/
theorem build_perm (hp : rules.Perm rules') (htrees : ∀ rule ∈ rules, rule.body.tree?.isSome)
    (root : Option String) :
    (((∃ g, build ⟨rules, root⟩ = .ok g) ∧ ∃ g', build ⟨rules', root⟩ = .ok g') ∨
      ∃ x x', build ⟨rules, root⟩ = .error x ∧ build ⟨rules', root⟩ = .error x' ∧
        x'.kind = x.kind) ∧
    (∀ g g', link ⟨rules, root⟩ = .ok g → link ⟨rules', root⟩ = .ok g' →
      ∀ rule ∈ rules, ∃ id id' b, g.find? rule.name = some id ∧ g'.find? rule.name = some id' ∧
        g.nullable[id]? = some b ∧ g'.nullable[id']? = some b) ∧
    ∀ g g', build ⟨rules, root⟩ = .ok g → build ⟨rules', root⟩ = .ok g' →
      ∀ settings name input, Parser.parseFrom ⟨g, settings⟩ name input =
        Parser.parseFrom ⟨g', settings⟩ name input := by
  have haccord : Accord (build ⟨rules, root⟩) (build ⟨rules', root⟩) := build_accord hp rfl
  refine ⟨?_, fun g g' hl hl' rule hrule => ?_, fun g g' hb hb' settings name input => ?_⟩
  · generalize build ⟨rules, root⟩ = x, build ⟨rules', root⟩ = y at haccord
    cases haccord with
    | ok h => exact .inl ⟨⟨_, rfl⟩, _, rfl⟩
    | error hkind => exact .inr ⟨_, _, rfl, rfl, hkind⟩
  · have hlink : Accord (link ⟨rules, root⟩) (link ⟨rules', root⟩) := link_accord hp rfl
    rw [hl, hl'] at hlink
    cases hlink with
    | ok h =>
      obtain ⟨hclosed, hwrites⟩ := link_eq_ok_iff.mp hl
      obtain ⟨id, hid, -, -⟩ := hwrites.exists_body hclosed.names hrule
      obtain ⟨id', hid', -⟩ := h.exists_find hid
      obtain ⟨b, hb, hb'⟩ := h.exists_getElem?_nullable hid hid' false
      exact ⟨id, id', b, hid, hid', hb, hb'⟩
  · rw [hb, hb'] at haccord
    cases haccord with
    | ok h =>
      obtain ⟨hclosed, hwrites, -⟩ := build_eq_ok_iff.mp hb
      have hg := hwrites.allTrees hclosed.names htrees
      exact Parser.parseFrom_reordered h hg settings name input

/-- The rules of a list in the order of `Peg.Draft.listed`, and with the tail first. -/
theorem build_perm_listed :
    listed.rules.Perm listed.rules.reverse ∧ (∀ rule ∈ listed.rules, rule.body.tree?.isSome) ∧
      ∃ g g', build ⟨listed.rules, some "list"⟩ = .ok g ∧
        build ⟨listed.rules.reverse, some "list"⟩ = .ok g' ∧
        g.find? "tail" = some 1 ∧ g'.find? "tail" = some 0 ∧
        Parser.parseFrom ⟨g, {}⟩ "tail" ",x" = Parser.parseFrom ⟨g', {}⟩ "tail" ",x" := by
  have hp : listed.rules.Perm listed.rules.reverse := listed.rules.reverse_perm.symm
  have htrees : ∀ rule ∈ listed.rules, rule.body.tree?.isSome := by simp [listed, Body.tree?]
  obtain ⟨-, -, hparse⟩ := build_perm hp htrees (some "list")
  exact ⟨hp, htrees, _, _, rfl, rfl, rfl, rfl, hparse _ _ rfl rfl {} "tail" ",x"⟩

end Draft

end Peg
