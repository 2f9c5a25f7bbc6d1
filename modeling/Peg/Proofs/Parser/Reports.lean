import Peg.Proofs.Diagnostic
import Peg.Proofs.Matching.Reasons
import Peg.Proofs.Matching.Strict
import Peg.Proofs.Parser.Captures

/-!
# What a parse reports

When a parse fails with the log listening, the failures that it reports end with the chain that says why,
down from the start of the input (`Peg.Parser.failure_ends_in_chain`). The deepest of them all, which is
the one to be shown to a person, lies at most one character in front of the place where the input was
left (`Peg.Parser.position_le_deepest`): no character is passed over without an account of what was
expected there.

A parse that matches may report failures as well, of options that were not there and of what was rightly
not found. If nothing of the kind is come to, it reports nothing (`Peg.Parser.match_leaves_log`).
-/

namespace Peg.Parser

open Grammar

variable {p : Parser} {id : RuleId} {e : Expr} {input : Array Char} {parse : Parse}

/-- What a parse that fails reports ends with the chain of the failure, and this reaches as far as the
input was read, but for a character. -/
theorem exists_chain (hg : p.grammar.AllTrees) (ht : p.settings.tracking = true)
    (hid : p.grammar.body? id = some (.tree e)) (h : p.run id input = .ok parse)
    (hm : parse.outcome.matched = false) :
    ∃ ds chain, p.grammar.Chain input e 0 chain ∧ parse.outcome.errors = ds ++ chain ∧
      ∃ d ∈ chain, parse.outcome.position ≤ d.position + 1 := by
  obtain ⟨-, b, t, he, rfl⟩ := run_eq_ok_iff.mp h
  obtain rfl : b = false := hm
  obtain ⟨chain, haccounts⟩ := (hg.evaluate_iff_runs.mp he).accounted hg rfl ht e hid
  obtain ⟨ds, hds⟩ := haccounts.log
  -- the log is empty when the parse begins
  exact ⟨ds, chain, haccounts.chain, hds, haccounts.near⟩

/-- **What a failure puts on record ends with its chain.** In a grammar of trees, let an expression fail
from any state with the log listening. There is one chain of this failure; it is what the log ends with,
behind what was there before and whatever else was added; from the leaf to the root the diagnostics of
the chain never get any deeper; and the last one is of the offset where the expression began. So a parse
that fails reports, last of all, the chain of the failure of its rule, which ends at the start of the
input. -/
theorem failure_ends_in_chain {g : Grammar} (hg : g.AllTrees) :
    (∀ e s t, s.log.tracking = true → g.evaluate (.expr e) s = some (false, t) →
      ∃ chain, (∀ ds, g.Chain s.input e s.offset ds ↔ ds = chain) ∧
        (∃ ds, t.log.records.toList = s.log.records.toList ++ (ds ++ chain)) ∧
        (chain.Pairwise fun d d' => d'.position ≤ d.position) ∧
        ∃ f, chain.getLast? = some ⟨s.offset, f⟩) ∧
    ∀ settings id e input parse, settings.tracking = true → g.body? id = some (.tree e) →
      Parser.run { grammar := g, settings } id input = .ok parse → parse.outcome.matched = false →
        ∃ ds chain f, g.Chain input e 0 chain ∧ parse.outcome.errors = ds ++ chain ∧
          parse.outcome.errors.getLast? = some ⟨0, f⟩ := by
  refine ⟨fun e s t hs h => ?_, fun settings id e input parse ht hid h hm => ?_⟩
  · obtain ⟨chain, haccounts⟩ := (hg.evaluate_iff_runs.mp h).accounted hg rfl hs
    have hchain := haccounts.chain
    exact ⟨chain, fun ds => ⟨fun hds => hds.unique hchain, fun hds => hds ▸ hchain⟩,
      haccounts.log, (hchain.descends hg).1, hchain.exists_getLast⟩
  · obtain ⟨ds, chain, hchain, herrors, -⟩ := exists_chain hg ht hid h hm
    obtain ⟨f, hlast⟩ := hchain.exists_getLast
    exact ⟨ds, chain, f, hchain, herrors, by rw [herrors, List.getLast?_append, hlast, Option.some_or]⟩

/-- `'-'? (num ('+' num))`. -/
def signedSum : Expr :=
  .seq (.opt (.char '-')) (.seq (.call { name := "num", id := some 1 })
    (.seq (.char '+') (.call { name := "num", id := some 1 })))

/-- `sum <- '-'? (num ('+' num))`, `num <- [0-9]+`. -/
def sum : Grammar where
  rules := [⟨"sum", .tree signedSum⟩, ⟨"num", .tree (.plus .digit)⟩]
  root := some 0

/-- Why `1+x` is no sum: there is no digit in the second number. -/
def noDigit : List Diagnostic :=
  [⟨2, .range '0' '9'⟩, ⟨2, .sequence⟩, ⟨2, .call "num"⟩, ⟨1, .sequence⟩, ⟨0, .sequence⟩,
    ⟨0, .sequence⟩]

theorem chain_noDigit : sum.Chain #['1', '+', 'x'] signedSum 0 noDigit := by
  have hsign : sum.Spans #['1', '+', 'x'] (.opt (.char '-')) 0 0 := ⟨_, rfl, rfl⟩
  have hnum : sum.Spans #['1', '+', 'x'] (.call { name := "num", id := some 1 }) 0 1 := ⟨_, rfl, rfl⟩
  have hplus : sum.Spans #['1', '+', 'x'] (.char '+') 1 2 := ⟨_, rfl, rfl⟩
  have hdigit : sum.Chain #['1', '+', 'x'] .digit 2 [⟨2, .range '0' '9'⟩] := .range
  have hcall : sum.Chain #['1', '+', 'x'] (.call { name := "num", id := some 1 }) 2
      [⟨2, .range '0' '9'⟩, ⟨2, .sequence⟩, ⟨2, .call "num"⟩] := .call rfl rfl (.plus hdigit)
  exact .seq_second hsign (.seq_second hnum (.seq_second hplus hcall))

/-- In front of the chain stands what has become of the sign. -/
theorem failure_ends_in_chain_sum :
    sum.AllTrees ∧
      (∃ t, sum.evaluate (.expr signedSum)
          { reader := { input := #['1', '+', 'x'] }, log := { records := #[⟨0, .any⟩] } } =
            some (false, t) ∧
        ∃ ds, t.log.records.toList = [⟨0, .any⟩] ++ (ds ++ noDigit)) ∧
      ∃ parse, Parser.run { grammar := sum } 0 #['1', '+', 'x'] = .ok parse ∧
        parse.outcome.matched = false ∧ parse.outcome.errors = ⟨0, .char '-'⟩ :: noDigit ∧
        ∃ f, parse.outcome.errors.getLast? = some ⟨0, f⟩ := by
  have hg : sum.AllTrees := by simp [AllTrees, sum, Body.tree?]
  obtain ⟨t, ht⟩ : ∃ t, sum.evaluate (.expr signedSum)
      { reader := { input := #['1', '+', 'x'] }, log := { records := #[⟨0, .any⟩] } } =
        some (false, t) := ⟨_, rfl⟩
  obtain ⟨parse, hparse, hm, herrors⟩ : ∃ parse,
      Parser.run { grammar := sum } 0 #['1', '+', 'x'] = .ok parse ∧
        parse.outcome.matched = false ∧ parse.outcome.errors = ⟨0, .char '-'⟩ :: noDigit :=
    ⟨_, rfl, rfl, rfl⟩
  obtain ⟨hfails, hparses⟩ := failure_ends_in_chain hg
  obtain ⟨chain, hchain, hlog, -⟩ := hfails _ _ t rfl ht
  obtain rfl := (hchain noDigit).mp chain_noDigit
  obtain ⟨-, -, f, -, -, hlast⟩ := hparses {} 0 _ _ parse rfl rfl hparse hm
  exact ⟨hg, ⟨t, ht, hlog⟩, parse, hparse, hm, herrors, f, hlast⟩

/-- **The deepest diagnostic explains where the input was left.** Of no diagnostics none is deepest, and
of any others the first of those of greatest position. In a grammar of trees, a parse that fails with the
log listening has a deepest diagnostic, and the input is left at most one character behind it. -/
theorem position_le_deepest :
    (∀ ds, Peg.deepest ds = none ↔ ds = []) ∧
    (∀ ds d, Peg.deepest ds = some d ↔
      ∃ before after, ds = before ++ d :: after ∧ (∀ x ∈ before, x.position < d.position) ∧
        ∀ x ∈ after, x.position ≤ d.position) ∧
    ∀ (p : Parser) id e input parse, p.grammar.AllTrees → p.settings.tracking = true →
      p.grammar.body? id = some (.tree e) → p.run id input = .ok parse →
        parse.outcome.matched = false →
          ∃ d, parse.outcome.deepest = some d ∧ parse.outcome.position ≤ d.position + 1 := by
  refine ⟨fun ds => deepest_eq_none_iff, fun ds d => deepest_eq_some_iff, ?_⟩
  intro p id e input parse hg ht hid h hm
  obtain ⟨ds, chain, -, herrors, d, hd, hnear⟩ := exists_chain hg ht hid h hm
  have hmem : d ∈ parse.outcome.errors := herrors ▸ List.mem_append_right ds hd
  obtain ⟨best, hbest, hle⟩ := exists_deepest hmem
  exact ⟨best, hbest, by omega⟩

/-- The character that is not a `b` has been read, and it is not accounted for at the place behind it. -/
theorem position_le_deepest_pair :
    pair.AllTrees ∧ ∃ parse, Parser.run { grammar := pair } 0 #['a', 'c'] = .ok parse ∧
      parse.outcome.matched = false ∧ parse.outcome.position = 2 ∧
      ∃ d, parse.outcome.deepest = some d ∧ 2 ≤ d.position + 1 := by
  have hg : pair.AllTrees := by simp [AllTrees, pair, Body.tree?]
  obtain ⟨parse, hparse, hm, hposition⟩ : ∃ parse,
      Parser.run { grammar := pair } 0 #['a', 'c'] = .ok parse ∧ parse.outcome.matched = false ∧
        parse.outcome.position = 2 := ⟨_, rfl, rfl, rfl⟩
  have hdeepest :=
    position_le_deepest.2.2 { grammar := pair } 0 _ #['a', 'c'] parse hg rfl rfl hparse hm
  rw [hposition] at hdeepest
  exact ⟨hg, parse, hparse, hm, hposition, hdeepest⟩

/-- **A match leaves nothing on record, except by way of an option or of what must not come next.** In a
grammar of trees, take an expression that comes to neither of these, in its own tree or in those of the
rules that are reached from it by calls. Whenever it matches, from whatever state, the log is left as it
was. So a parse by a rule of this kind reports nothing if it matches, however much was tried and given
up. -/
theorem match_leaves_log {g : Grammar} (hg : g.AllTrees) {e : Expr} (he : g.Strict e) :
    (∀ s t, g.evaluate (.expr e) s = some (true, t) → t.log = s.log) ∧
    ∀ settings id input parse, g.body? id = some (.tree e) →
      Parser.run { grammar := g, settings } id input = .ok parse → parse.outcome.matched = true →
        parse.outcome.errors = [] := by
  refine ⟨fun s t h => (hg.evaluate_iff_runs.mp h).log_eq hg rfl he, ?_⟩
  intro settings id input parse hid h hm
  obtain ⟨-, b, t, heval, rfl⟩ := run_eq_ok_iff.mp h
  obtain rfl : b = true := hm
  have hlog := (hg.evaluate_iff_runs.mp heval).log_eq hg rfl fun a ha => by
    rw [hid, Option.some.injEq, Body.tree.injEq] at ha
    exact ha ▸ he
  change t.log.records.toList = []
  rw [hlog]
  rfl

/-- `'a' 'b' / 'a' 'c'`. -/
def item : Expr := .alt (.seq (.char 'a') (.char 'b')) (.seq (.char 'a') (.char 'c'))

/-- `(&item item)*`. -/
def anyItems : Expr :=
  .star (.seq (.ahead (.call { name := "item", id := some 1 })) (.call { name := "item", id := some 1 }))

/-- `items <- (&item item)*`, `item <- 'a' 'b' / 'a' 'c'`. -/
def items : Grammar where
  rules := [⟨"items", .tree anyItems⟩, ⟨"item", .tree item⟩]
  root := some 0

theorem strict_anyItems : items.Strict anyItems := by
  intro e he
  -- the only call leads to `item`, which calls nothing
  have hcome : e = anyItems ∨ e = item := by
    induction he with
    | refl => exact .inl rfl
    | tail _ hcalls ih =>
      obtain ⟨r, hr, id, hid, hbody⟩ := hcalls
      obtain rfl | rfl := ih
      · obtain rfl : r = { name := "item", id := some 1 } := by
          simpa [anyItems, Expr.references, Expr.nodes] using hr
        cases hid
        cases hbody
        exact .inr rfl
      · simp [item, Expr.references, Expr.nodes] at hr
  obtain rfl | rfl := hcome
  · decide
  · decide

/-- The second alternative has to be tried, and the last round fails; what was on record stays, and
nothing else is there. -/
theorem match_leaves_log_items :
    items.AllTrees ∧ items.Strict anyItems ∧
      (∃ t, items.evaluate (.expr anyItems)
          { reader := { input := #['x', 'a', 'c', 'a'], offset := 1 }
            log := { records := #[⟨0, .any⟩] } } = some (true, t) ∧ t.offset = 3 ∧
        t.log = { records := #[⟨0, .any⟩] }) ∧
      ∃ parse, Parser.run { grammar := items } 0 #['a', 'c', 'a'] = .ok parse ∧
        parse.outcome.matched = true ∧ parse.outcome.errors = [] := by
  have hg : items.AllTrees := by simp [AllTrees, items, Body.tree?]
  obtain ⟨t, ht, ho⟩ : ∃ t, items.evaluate (.expr anyItems)
      { reader := { input := #['x', 'a', 'c', 'a'], offset := 1 }
        log := { records := #[⟨0, .any⟩] } } = some (true, t) ∧ t.offset = 3 := ⟨_, rfl, rfl⟩
  obtain ⟨parse, hparse, hm⟩ : ∃ parse,
      Parser.run { grammar := items } 0 #['a', 'c', 'a'] = .ok parse ∧
        parse.outcome.matched = true := ⟨_, rfl, rfl⟩
  obtain ⟨hlog, herrors⟩ := match_leaves_log hg strict_anyItems
  exact ⟨hg, strict_anyItems, ⟨t, ht, ho, hlog _ t ht⟩, parse, hparse, hm,
    herrors {} 0 _ parse rfl hparse hm⟩

end Peg.Parser
