import Peg.Parser
import Peg.Proofs.Grammar.Build
import Peg.Proofs.Matching.Endless
import Peg.Proofs.Matching.LeftRecursion
import Peg.Proofs.Matching.Trace

/-!
# What the check for left recursion leaves open

A grammar that was built has no left recursion as far as the check can see, and the check takes the
end of the input for a character. So before the end of the input no rule is entered again at an
offset at which it is open, but at the end of the input it may be: `a <- EOI a` is built and calls
itself without end. This is the only way. A parse has no end exactly when its events show a rule that
is entered at an offset at which it is open, this happens at the end of the input only, and it never
happens in any parse exactly when every rule of the grammar comes to an end on the empty input
(`Peg.Parser.reentry_at_end`).
-/

namespace Peg

/-- What the task is about has no loose ends: its calls lead to rules. -/
def Task.Bound (g : Grammar) : Task → Prop
  | .goal (.expr e) | .node e | .loop e _ => g.Binds e
  | .goal (.rule id) => id < g.size
  | .goal (.named _) => True
  | .script _ => False

namespace Grammar

variable {g : Grammar} {τ τ' : Task} {s s' : State}

/-- In a resolved grammar no task starts one with loose ends, as far as that is known: of a procedure it
is not. -/
theorem Starts.bound_or_script (hr : g.Resolved) (h : g.Starts τ s τ' s') (hb : τ.Bound g) :
    τ'.Bound g ∨ ∃ c, τ' = .script c := by
  cases h with
  | node => exact .inl hb
  | tree hid => exact .inl (hr.binds_of_body hid)
  | native hid => exact .inr ⟨_, rfl⟩
  | named hid => exact .inl (List.findIdx?_eq_some_iff_getElem.mp hid).1
  | seq_first => exact .inl (binds_seq.mp hb).1
  | seq_second => exact .inl (binds_seq.mp hb).2
  | alt_first => exact .inl (binds_alt.mp hb).1
  | alt_second => exact .inl (binds_alt.mp hb).2
  | opt => exact .inl (binds_opt.mp hb)
  | star => exact .inl (binds_star.mp hb)
  | plus_first => exact .inl (binds_plus.mp hb)
  | plus_rest => exact .inl (binds_plus.mp hb)
  | ahead => exact .inl (binds_ahead.mp hb)
  | notAhead => exact .inl (binds_notAhead.mp hb)
  | call hid =>
    obtain ⟨id, hid', hlt⟩ := binds_call.mp hb
    obtain rfl := Option.some.inj (hid.symm.trans hid')
    exact .inl hlt
  | capture => exact .inl (binds_capture.mp hb)
  | loop_first => exact .inl hb
  | loop_more => exact .inl hb
  | ask => exact hb.elim
  | resume => exact hb.elim

/-- In a resolved grammar of trees no task starts one with loose ends. -/
theorem Starts.bound (hg : g.AllTrees) (hr : g.Resolved) (h : g.Starts τ s τ' s')
    (hb : τ.Bound g) : τ'.Bound g := by
  rcases h.bound_or_script hr hb with hb' | ⟨c, rfl⟩
  · exact hb'
  · cases h with
    | native hid => exact absurd hid hg.body_ne_native
    | resume => exact hb.elim

theorem bound_of_opens (hg : g.AllTrees) (hr : g.Resolved) {x y : Task × State}
    (h : Relation.ReflTransGen g.Opens x y) (hb : x.1.Bound g) : y.1.Bound g :=
  invariant_of_opens (fun h₁ hst => hst.bound hg hr h₁) h hb

/-- Where nothing was entered, nothing is open. -/
theorem opened_eq_nil (h : ∀ rule offset, .enter rule offset ∉ s.trace.toList) : s.opened = [] := by
  -- an exit closes nothing where nothing is open
  suffices ∀ trace : List Event, (∀ rule offset, .enter rule offset ∉ trace) →
      trace.foldl Event.after [] = [] from this _ h
  intro trace htrace
  induction trace with
  | nil => rfl
  | cons e trace ih =>
    have hrest := ih fun rule offset hmem => htrace rule offset (List.mem_cons_of_mem _ hmem)
    cases e with
    | enter rule offset => exact absurd List.mem_cons_self (htrace rule offset)
    | _ => exact hrest

/-- **A re-entry that is reported is one of a rule that comes back to itself.** -/
theorem opens_of_reentry (hc : g.Checked) (hg : g.AllTrees) {goal : Goal} {depth : Nat}
    (hb : (Task.goal goal).Bound g) (hs : ∀ rule offset, .enter rule offset ∉ s.trace.toList)
    {rule : String} {offset : Nat}
    (h : Reentry (g.attempt depth goal s).2.trace.toList rule offset) :
    ∃ id u v, Relation.ReflTransGen g.Opens (.goal goal, s) (.goal (.rule id), u) ∧
      Relation.TransGen g.Opens (.goal (.rule id), u) (.goal (.rule id), v) ∧
      u.offset = offset ∧ v.offset = offset := by
  obtain ⟨before, rest, htrace, hopen⟩ := h
  have hreports : g.Reports (.goal goal, s) s (g.attempt depth goal s).2 := reports_attempt hg .refl
  have hentry : before ++ [.enter rule offset] <+: (g.attempt depth goal s).2.trace.toList :=
    ⟨rest, by simp [htrace]⟩
  have hbefore : s.trace.toList <+: before := by
    -- otherwise the entry would be among the events before the attempt
    rcases List.prefix_or_prefix_of_prefix hreports.grows hentry with hle | hle
    · rcases List.prefix_concat_iff.mp hle with heq | hle
      · exact absurd (heq ▸ List.mem_append_right _ (List.mem_singleton_self _)) (hs rule offset)
      · exact hle
    · exact absurd (hle.subset (List.mem_append_right _ (List.mem_singleton_self _)))
        (hs rule offset)
  obtain ⟨j, v, hchain, rfl, hname, hv⟩ := hreports.entry before rule offset hbefore hentry
  -- what is open is on the way, as nothing was open at the start
  obtain hold | ⟨i, u, hto, hfrom, heq⟩ := opens_of_mem_opened hg hchain trivial hopen
  · simp [opened_eq_nil hs] at hold
  · obtain ⟨hrule, hoff⟩ := Prod.mk.inj heq
    -- the two rules have the same name
    obtain rfl : i = j := hc.nameOf_inj (bound_of_opens hg hc.resolved hto hb)
      (bound_of_opens hg hc.resolved hchain hb) (hrule.symm.trans hname.symm)
    exact ⟨i, u, v, hto, hfrom, hoff.symm, hv⟩

/-- **A rule that comes back to itself is reported.** -/
theorem exists_reentry (hg : g.AllTrees) {goal : Goal} (h : g.Reenters (.goal goal) s) :
    ∃ depth rule offset, Reentry (g.attempt depth goal s).2.trace.toList rule offset := by
  obtain ⟨id, u, v, hto, hloop, ho⟩ := h
  have hf : (Task.goal goal).Fits s := trivial
  have hproduces : g.Produces (.goal goal) s (v.trace.toList ++ [.enter (g.nameOf id) v.offset]) :=
    produces_of_opens hg hf (hto.trans hloop.to_reflTransGen)
  obtain ⟨d, hd⟩ := hproduces
  obtain ⟨rest, hrest⟩ := hd d (Nat.le_refl d) d (Nat.le_refl d)
  refine ⟨d, g.nameOf id, v.offset, v.trace.toList, rest, ?_, ?_⟩
  · rw [List.append_cons]
    exact hrest.symm
  · rw [ho]
    exact mem_opened_of_opens hg hloop

end Grammar

namespace Parser

variable {p : Parser} {d : Draft}

/-- The events of a parse by the given rule, as far as the given depth lets it go. -/
def events (p : Parser) (depth : Nat) (id : RuleId) (input : Array Char) : List Event :=
  (p.grammar.attempt depth (.rule id) (p.start id input)).2.trace.toList

theorem enter_notMem_start (p : Parser) (id : RuleId) (input : Array Char) (rule : String)
    (offset : Nat) : .enter rule offset ∉ (p.start id input).trace.toList := by
  simp [start, State.ofReader]

theorem run?_eq_none_iff {id : RuleId} {input : Array Char} :
    p.run? id input = none ↔ p.grammar.evaluate (.rule id) (p.start id input) = none := by
  rw [run?, Option.map_eq_none_iff]

/-- A parse has no end exactly when its events show a re-entry. -/
theorem exists_reentry_iff (hp : d.build = .ok p.grammar) (hg : p.grammar.AllTrees) {id : RuleId}
    (hid : id < p.grammar.size) (input : Array Char) :
    (∃ depth rule offset, Reentry (p.events depth id input) rule offset) ↔
      p.run? id input = none := by
  rw [run?_eq_none_iff, hg.evaluate_eq_none_iff]
  constructor
  · rintro ⟨depth, rule, offset, h⟩
    have hb : (Task.goal (.rule id)).Bound p.grammar := hid
    obtain ⟨i, u, v, hto, hloop, hu, hv⟩ := Grammar.opens_of_reentry
      (Draft.checked_of_build hp) hg hb (p.enter_notMem_start id input) h
    exact ⟨i, u, v, hto, hloop, hv.trans hu.symm⟩
  · exact Grammar.exists_reentry hg

/-- A rule that is entered again at an offset at which it is open is so at the end of the input, and
has no end on the empty input either. -/
theorem end_of_reentry (hp : d.build = .ok p.grammar) (hg : p.grammar.AllTrees) {id : RuleId}
    (hid : id < p.grammar.size) {input : Array Char} {depth : Nat} {rule : String} {offset : Nat}
    (h : Reentry (p.events depth id input) rule offset) :
    offset = input.size ∧ ∃ i < p.grammar.size, p.run? i #[] = none := by
  have hc := Draft.checked_of_build hp
  have hb : (Task.goal (.rule id)).Bound p.grammar := hid
  obtain ⟨i, u, v, hto, hloop, hu, hv⟩ :=
    Grammar.opens_of_reentry hc hg hb (p.enter_notMem_start id input) h
  -- the parse reads on from the start of the input and never past its end
  have hreach := (Grammar.reaches_of_opens hg.nativesRead hto trivial).2
  have hinput : u.input = input := hreach.input
  have hle : u.offset ≤ input.size := by
    have hmax := hreach.le_max
    have hzero : (p.start id input).offset = 0 := rfl
    have hsize : (p.start id input).input.size = input.size := rfl
    omega
  have hend : u.offset = input.size := by
    refine Nat.le_antisymm hle (Nat.le_of_not_lt fun hlt => ?_)
    -- with a character left the cycle would be one that the check sees
    refine Digraph.acyclic_of_cycle? hc.leftCalls i ?_
    exact Grammar.leftCycle_of_opens hg.nativesRead hloop (hv.trans hu.symm) (.inr (hinput ▸ hlt))
  refine ⟨hu.symm.trans hend, i, Grammar.bound_of_opens hg hc.resolved hto hb, ?_⟩
  rw [run?_eq_none_iff]
  rcases he : p.grammar.evaluate (.rule i) (p.start i #[]) with _ | ⟨b, t⟩
  · rfl
  · -- the rule would be answered behind the input just as well
    have hbehind : (p.start i #[]).Behind input u :=
      ⟨by rw [hinput]; exact (Array.append_empty).symm, hend⟩
    obtain ⟨k, ha⟩ : ∃ k, p.grammar.attempt k (.rule i) (p.start i #[]) = (some b, t) :=
      ⟨_, Grammar.evaluate_eq_some.mp he⟩
    have hsame := (hg.attempt_behind hbehind k (.rule i)).1
    rw [ha] at hsame
    have hanswered : p.grammar.Answered k (.goal (.rule i)) u :=
      ⟨0, b, (p.grammar.attempt k (.rule i) u).2, Prod.ext hsame.symm rfl⟩
    exact absurd (hv.trans hu.symm) (hg.not_opens_of_answered hanswered hloop)

/-- **The check for left recursion is exact up to the end of the input.** Of a grammar of trees that
was built, a rule is entered at an offset at which it is open only at the end of the input; a parse in
which this happens is one without end; and it happens in no parse exactly when every rule of the
grammar comes to an end on the empty input. -/
theorem reentry_at_end (hp : d.build = .ok p.grammar) (hg : p.grammar.AllTrees) :
    (∀ id < p.grammar.size, ∀ input depth rule offset,
        Reentry (p.events depth id input) rule offset → offset = input.size) ∧
      (∀ id < p.grammar.size, ∀ input,
        (∃ depth rule offset, Reentry (p.events depth id input) rule offset) ↔
          p.run? id input = none) ∧
      ((∀ id < p.grammar.size, ∀ input depth rule offset,
          ¬Reentry (p.events depth id input) rule offset) ↔
        ∀ id < p.grammar.size, (p.run? id #[]).isSome) := by
  refine ⟨fun id hid input depth rule offset h => (end_of_reentry hp hg hid h).1,
    fun id hid => exists_reentry_iff hp hg hid, fun h id hid => ?_, fun h => ?_⟩
  · rw [Option.isSome_iff_ne_none]
    intro hnone
    obtain ⟨depth, rule, offset, hre⟩ := (exists_reentry_iff hp hg hid #[]).mpr hnone
    exact h id hid #[] depth rule offset hre
  · intro id hid input depth rule offset hre
    obtain ⟨-, i, hi, hnone⟩ := end_of_reentry hp hg hid hre
    have hsome := h i hi
    simp [hnone] at hsome

/-- `a <- EOI a`: at the end of the input it calls itself. -/
def endless : Draft where
  rules := [⟨"a", .tree (.seq .endOfInput (Expr.rule "a"))⟩]

/-- The grammar that `Peg.Parser.endless` is built to. -/
def endlessParser : Parser where
  grammar :=
    { rules := [⟨"a", .tree (.seq .endOfInput (.call { name := "a", id := some 0 }))⟩]
      root := some 0 }

theorem allTrees_endless : endlessParser.grammar.AllTrees := by
  simp [Grammar.AllTrees, endlessParser, Body.tree?]

theorem reentry_at_end_endless :
    endless.build = .ok endlessParser.grammar ∧ endlessParser.grammar.AllTrees ∧
      ∀ id < endlessParser.grammar.size, ∀ input depth rule offset,
        Reentry (endlessParser.events depth id input) rule offset → offset = input.size :=
  ⟨rfl, allTrees_endless, (reentry_at_end (d := endless) rfl allTrees_endless).1⟩

/-- **A left recursion that is built**: the rule is entered at offset 0 while it is open there. -/
theorem reentry_endless :
    endless.build = .ok endlessParser.grammar ∧ endlessParser.grammar.AllTrees ∧
      Reentry (endlessParser.events 8 0 #[]) "a" 0 :=
  ⟨rfl, allTrees_endless, [.started "a" 0, .enter "a" 0], [.enter "a" 0], by decide, by decide⟩

end Parser

end Peg
