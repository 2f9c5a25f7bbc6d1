import Peg.Proofs.Matching.Logging

/-!
# Why an expression fails

An expression that fails does so because something in it fails, and that fails for a reason of its own,
down to a text or a character that does not come next. The diagnostics of all of these, the innermost
first, are the *chain* of the failure (`Peg.Grammar.Chain`). It is a matter of the input and of the
offset where the expression begins, and of nothing that was tried before: which half of a sequence has
failed, and where its first half ended, is what they come to on their own (`Peg.Grammar.Fails`,
`Peg.Grammar.Spans`). An expression has one chain at most at an offset (`Peg.Grammar.Chain.unique`), and
on the way from the leaf to the root its diagnostics never get any deeper
(`Peg.Grammar.Chain.descends`).

There may be much else on record: alternatives that were given up, options that were not there, what was
found looking ahead. But as long as the log listens, the last thing that is put on record when an
expression fails is its chain, all of it and nothing in between, and the input is left at most one
character behind one of its diagnostics (`Peg.Grammar.Runs.accounted`).
-/

namespace Peg

namespace Grammar

/-- From the offset `p` on, the expression matches up to the offset `q`. -/
def Spans (g : Grammar) (input : Array Char) (e : Expr) (p q : Nat) : Prop :=
  ∃ t, g.evaluate (.expr e) { reader := { input, offset := p } } = some (true, t) ∧ t.offset = q

/-- At the offset `p`, the expression fails. -/
def Fails (g : Grammar) (input : Array Char) (e : Expr) (p : Nat) : Prop :=
  ∃ t, g.evaluate (.expr e) { reader := { input, offset := p } } = some (false, t)

/-- **The chain of the failure** of an expression that fails at an offset, the innermost diagnostic
first. -/
inductive Chain (g : Grammar) (input : Array Char) : Expr → Nat → List Diagnostic → Prop
  /- What does not come next, or does come next and must not. -/
  | text {x p} : g.Chain input (.text x) p [⟨p, .literal x⟩]
  | char {c p} : g.Chain input (.char c) p [⟨p, .char c⟩]
  | endOfInput {p} : g.Chain input .endOfInput p [⟨p, .endOfInput⟩]
  | range {first last p} : g.Chain input (.range first last) p [⟨p, .range first last⟩]
  | any {p} : g.Chain input .any p [⟨p, .any⟩]
  | notAhead {a p} : g.Chain input (.notAhead a) p [⟨p, .notAhead⟩]
  /- What fails because a part of it does. -/
  | seq_first {a b p ds} (ha : g.Fails input a p) (h : g.Chain input a p ds) :
      g.Chain input (.seq a b) p (ds ++ [⟨p, .sequence⟩])
  | seq_second {a b p q ds} (ha : g.Spans input a p q) (h : g.Chain input b q ds) :
      g.Chain input (.seq a b) p (ds ++ [⟨p, .sequence⟩])
  | plus {a p ds} (h : g.Chain input a p ds) : g.Chain input (.plus a) p (ds ++ [⟨p, .sequence⟩])
  | alt {a b p ds} (h : g.Chain input b p ds) : g.Chain input (.alt a b) p (ds ++ [⟨p, .choice⟩])
  | ahead {a p ds} (h : g.Chain input a p ds) : g.Chain input (.ahead a) p (ds ++ [⟨p, .ahead⟩])
  | capture {a p ds} (h : g.Chain input a p ds) : g.Chain input (.capture a) p ds
  /- Calls, of which some may lead nowhere. -/
  | call {r id e p ds} (hr : r.id = some id) (hid : g.body? id = some (.tree e))
      (h : g.Chain input e p ds) : g.Chain input (.call r) p (ds ++ [⟨p, .call r.name⟩])
  | call_nowhere {r p} (h : ∀ id, r.id = some id → g.body? id = none) :
      g.Chain input (.call r) p [⟨p, .call r.name⟩]

variable {g : Grammar} {input : Array Char} {e : Expr} {p q : Nat} {ds : List Diagnostic}
  {s t u : State} {b : Bool}

/-! ### Chains -/

/-- Neither the verdict nor the offset depends on anything but the input and the offset before. -/
theorem Runs.ends (hg : g.AllTrees) {goal : Goal} (h : g.Runs (.goal goal) s b t) :
    ∃ u, g.evaluate goal { reader := s.reader } = some (b, u) ∧ u.offset = t.offset := by
  obtain ⟨depth, hd⟩ := exists_attempt_iff_runs.mpr h
  have hstart : State.Behind #[] { reader := s.reader } s := .of_eq rfl rfl
  obtain ⟨hb, hbehind⟩ := hg.attempt_behind hstart depth goal
  rcases ha : g.attempt depth goal { reader := s.reader } with ⟨c, u⟩
  rw [ha, hd] at hb hbehind
  obtain rfl : c = some b := hb
  have ho : t.offset = (#[] : Array Char).size + u.offset := hbehind.offset
  exact ⟨u, hg.evaluate_iff_runs.mpr (runs_of_attempt ha), by simpa using ho.symm⟩

theorem Runs.spans (hg : g.AllTrees) (h : g.Runs (.goal (.expr e)) s true t) :
    g.Spans s.input e s.offset t.offset := h.ends hg

theorem Runs.fails (hg : g.AllTrees) (h : g.Runs (.goal (.expr e)) s false t) :
    g.Fails s.input e s.offset := by
  obtain ⟨u, hu, -⟩ := h.ends hg
  exact ⟨u, hu⟩

theorem Spans.le (hg : g.AllTrees) (h : g.Spans input e p q) : p ≤ q := by
  obtain ⟨t, ht, rfl⟩ := h
  exact ((hg.evaluate_iff_runs.mp ht).reaches hg.nativesRead trivial).le

theorem Spans.unique {q' : Nat} (h : g.Spans input e p q) (h' : g.Spans input e p q') : q = q' := by
  obtain ⟨t, ht, rfl⟩ := h
  obtain ⟨u, hu, rfl⟩ := h'
  rw [ht] at hu
  cases hu
  rfl

theorem Spans.not_fails (h : g.Spans input e p q) : ¬g.Fails input e p := by
  rintro ⟨u, hu⟩
  obtain ⟨t, ht, -⟩ := h
  simp [ht] at hu

/-- **There is one chain at most.** -/
theorem Chain.unique {ds' : List Diagnostic} (h : g.Chain input e p ds)
    (h' : g.Chain input e p ds') : ds = ds' := by
  induction h generalizing ds' with
  | seq_first ha _ ih =>
    cases h' with
    | seq_first _ h' => rw [ih h']
    | seq_second ha' => exact absurd ha ha'.not_fails
  | seq_second ha _ ih =>
    cases h' with
    | seq_first ha' => exact absurd ha' ha.not_fails
    | seq_second ha' h' =>
      obtain rfl := ha.unique ha'
      rw [ih h']
  | plus _ ih => cases h' with | plus h' => rw [ih h']
  | alt _ ih => cases h' with | alt h' => rw [ih h']
  | ahead _ ih => cases h' with | ahead h' => rw [ih h']
  | capture _ ih => cases h' with | capture h' => exact ih h'
  | call hr hid _ ih =>
    cases h' with
    | call hr' hid' h' =>
      rw [hr, Option.some.injEq] at hr'
      subst hr'
      rw [hid, Option.some.injEq, Body.tree.injEq] at hid'
      subst hid'
      rw [ih h']
    | call_nowhere h => simp [h _ hr] at hid
  | call_nowhere h =>
    cases h' with
    | call hr hid => simp [h _ hr] at hid
    | call_nowhere => rfl
  | _ =>
    cases h'
    rfl

/-- The diagnostics lie at the offset `p` or deeper, and never get any deeper from one to the next. -/
def Descends (p : Nat) (ds : List Diagnostic) : Prop :=
  (ds.Pairwise fun d d' => d'.position ≤ d.position) ∧ ∀ d ∈ ds, p ≤ d.position

theorem Descends.single (p : Nat) (f : Failure) : Descends p [⟨p, f⟩] := by
  simp [Descends]

/-- Diagnostics from some offset on are followed by one of an offset that is not deeper. -/
theorem Descends.concat (h : Descends q ds) (hpq : p ≤ q) (f : Failure) :
    Descends p (ds ++ [⟨p, f⟩]) := by
  have hle : ∀ d ∈ ds, p ≤ d.position := fun d hd => hpq.trans (h.2 d hd)
  refine ⟨List.pairwise_append.mpr ⟨h.1, List.pairwise_singleton _ _, fun d hd d' hd' => ?_⟩,
    fun d hd => ?_⟩
  · obtain rfl := List.mem_singleton.mp hd'
    exact hle d hd
  · rcases List.mem_append.mp hd with hd | hd
    · exact hle d hd
    · obtain rfl := List.mem_singleton.mp hd
      exact Nat.le_refl _

/-- **A chain never gets any deeper** on the way from the leaf to the root. -/
theorem Chain.descends (hg : g.AllTrees) (h : g.Chain input e p ds) : Descends p ds := by
  induction h with
  | seq_first _ _ ih => exact ih.concat (Nat.le_refl _) _
  | seq_second ha _ ih => exact ih.concat (ha.le hg) _
  | plus _ ih => exact ih.concat (Nat.le_refl _) _
  | alt _ ih => exact ih.concat (Nat.le_refl _) _
  | ahead _ ih => exact ih.concat (Nat.le_refl _) _
  | capture _ ih => exact ih
  | call _ _ _ ih => exact ih.concat (Nat.le_refl _) _
  | _ => exact .single _ _

/-- **The root of a chain** is at the offset where the expression began. -/
theorem Chain.exists_getLast (h : g.Chain input e p ds) : ∃ f, ds.getLast? = some ⟨p, f⟩ := by
  induction h with
  | capture _ ih => exact ih
  | text | char | endOfInput | range | any | notAhead | call_nowhere => exact ⟨_, rfl⟩
  | _ => exact ⟨_, List.getLast?_concat⟩

end Grammar

/-! ### Chains on record -/

/-- The second log is the first one with some diagnostics behind it, the last of which are `ds`. -/
def Log.EndsIn (l l' : Log) (ds : List Diagnostic) : Prop :=
  ∃ es, l'.records.toList = l.records.toList ++ (es ++ ds)

namespace Log

variable {l l' l'' : Log} {ds : List Diagnostic} {p q : Nat}

theorem EndsIn.refl (l : Log) : l.EndsIn l [] := ⟨[], by simp⟩

theorem GoesOn.endsIn_nil (h : GoesOn p q l l') : l.EndsIn l' [] := by
  obtain ⟨es, hes, -⟩ := h.records
  exact ⟨es, by simpa using hes⟩

theorem GoesOn.endsIn (h : GoesOn p q l l') (h' : l'.EndsIn l'' ds) : l.EndsIn l'' ds := by
  obtain ⟨cs, hcs, -⟩ := h.records
  obtain ⟨es, hes⟩ := h'
  exact ⟨cs ++ es, by simp [hes, hcs]⟩

theorem EndsIn.add (h : l.EndsIn l' ds) (hl : l'.tracking = true) (f : Failure) :
    l.EndsIn (l'.add p f) (ds ++ [⟨p, f⟩]) := by
  obtain ⟨es, hes⟩ := h
  exact ⟨es, by simp [Log.add, hl, hes]⟩

end Log

namespace Grammar

variable {g : Grammar} {τ : Task} {e a : Expr} {ds : List Diagnostic} {s t u : State} {b : Bool}

/-- **The chain accounts for the failure** of an expression that began in the first state and failed in
the second. -/
structure Accounts (g : Grammar) (e : Expr) (s t : State) (ds : List Diagnostic) : Prop where
  /-- It is the chain of the failure. -/
  chain : g.Chain s.input e s.offset ds
  /-- It is what was put on record last. -/
  log : s.log.EndsIn t.log ds
  /-- It reaches as far as the input was read, but for a character. -/
  near : ∃ d ∈ ds, t.offset ≤ d.position + 1

/-- Only the input, the offsets and the logs count. -/
theorem Accounts.congr {s' t' : State} (h : g.Accounts e s t ds) (hs : s'.input = s.input)
    (hso : s'.offset = s.offset) (hsl : s'.log = s.log) (hto : t'.offset = t.offset)
    (htl : t'.log = t.log) : g.Accounts e s' t' ds where
  chain := by
    rw [hs, hso]
    exact h.chain
  log := by
    rw [hsl, htl]
    exact h.log
  near := by
    rw [hto]
    exact h.near

/-- A failure is put on record behind the chain that led to it. -/
theorem accounts_record {f : Failure} (hl : s.log.EndsIn u.log ds) (hu : u.log.tracking = true)
    (hnear : u.offset ≤ s.offset + 1 ∨ ∃ d ∈ ds, u.offset ≤ d.position + 1)
    (hc : g.Chain s.input e s.offset (ds ++ [⟨s.offset, f⟩])) :
    g.Accounts e s (u.record s.offset f) (ds ++ [⟨s.offset, f⟩]) where
  chain := hc
  log := hl.add hu f
  near := by
    obtain hback | ⟨d, hd, hle⟩ := hnear
    · exact ⟨⟨s.offset, f⟩, by simp, hback⟩
    · exact ⟨d, by simp [hd], hle⟩

end Grammar

/-- What the task is about has failed, and there is a chain that accounts for it. -/
def Task.Accounted (g : Grammar) (τ : Task) (s t : State) : Prop :=
  match τ with
  | .goal (.expr e) | .node e => ∃ ds, g.Accounts e s t ds
  | .goal (.rule id) => ∀ e, g.body? id = some (.tree e) → ∃ ds, g.Accounts e s t ds
  | .goal (.named _) | .loop _ _ | .script _ => True

namespace Grammar

variable {g : Grammar} {τ : Task} {e a : Expr} {ds : List Diagnostic} {s t u : State} {b : Bool}

/-- A test of one character that fails is all there is to the chain. -/
theorem chain_of_single {accept : Option Char → Bool} {f : Failure}
    (he : e.single? = some (accept, f)) (input : Array Char) (p : Nat) :
    g.Chain input e p [⟨p, f⟩] := by
  cases e <;> simp only [Expr.single?, Option.some.injEq, Prod.mk.injEq, reduceCtorEq] at he <;>
    obtain ⟨rfl, rfl⟩ := he
  · exact .char
  · exact .endOfInput
  · exact .range
  · exact .any

/-- A rule that does not exist has read nothing. -/
theorem Runs.offset_eq_of_missing {id : RuleId} (hid : g.body? id = none)
    (h : g.Runs (.goal (.rule id)) s b t) : t.offset = s.offset := by
  cases h with
  | rule_tree hid' => simp [hid] at hid'
  | rule_native hid' => simp [hid] at hid'
  | rule_missing => rfl

/-- A log that listens goes on listening. -/
theorem Runs.listens (hg : g.AllTrees) {goal : Goal} (h : g.Runs (.goal goal) s b t)
    (hs : s.log.tracking = true) : t.log.tracking = true :=
  (h.goal_logs hg).tracking.trans hs

/-- **With the log listening, every failure is accounted for.** -/
theorem Runs.accounted (hg : g.AllTrees) (h : g.Runs τ s b t) (hb : b = false)
    (hs : s.log.tracking = true) : τ.Accounted g s t := by
  -- what is put on record in the end lies behind the chain of the part that failed last
  induction h with
  | expr_fails _ ih =>
    obtain ⟨ds, hds⟩ := ih hb hs
    exact ⟨ds, hds.congr rfl rfl rfl rfl rfl⟩
  | rule_tree hid _ ih =>
    intro e he
    rw [hid, Option.some.injEq, Body.tree.injEq] at he
    subst he
    obtain ⟨ds, hds⟩ := ih hb hs
    exact ⟨ds, hds.congr rfl rfl rfl rfl rfl⟩
  | rule_native hid => exact absurd hid hg.body_ne_native
  | rule_missing hid => exact fun e he => by simp [hid] at he
  | named_known | named_unknown => trivial
  | text_fails =>
    exact ⟨_, accounts_record (.refl _) hs (.inl (Nat.le_succ _)) .text⟩
  | @single_fails e s accept f he =>
    exact ⟨_, accounts_record (.refl _) hs (.inl s.offset_advance_le) (chain_of_single he _ _)⟩
  | seq_first_fails ha ih =>
    have hlisten := ha.listens hg hs
    obtain ⟨ds, hds⟩ := ih rfl hs
    exact ⟨_, accounts_record hds.log hlisten (.inl (Nat.le_succ _))
      (.seq_first (ha.fails hg) hds.chain)⟩
  | seq_second_fails ha hb' _ ihb =>
    have hlisten := ha.listens hg hs
    obtain ⟨ds, hds⟩ := ihb rfl hlisten
    have hchain := hds.chain
    rw [(ha.reaches hg.nativesRead trivial).input] at hchain
    exact ⟨_, accounts_record ((ha.goal_logs hg).endsIn hds.log) (hb'.listens hg hlisten)
      (.inr hds.near) (.seq_second (ha.spans hg) hchain)⟩
  | @alt_fails a b s t u ha hb' _ ihb =>
    have hlisten := ha.listens hg hs
    obtain ⟨ds, hds⟩ := ihb rfl hlisten
    have hchain : g.Chain t.input b s.offset ds := hds.chain
    rw [(ha.reaches hg.nativesRead trivial).input] at hchain
    exact ⟨_, accounts_record ((ha.goal_logs hg).endsIn hds.log) (hb'.listens hg hlisten)
      (.inr hds.near) (.alt hchain)⟩
  | plus_fails ha ih =>
    have hlisten := ha.listens hg hs
    obtain ⟨ds, hds⟩ := ih rfl hs
    exact ⟨_, accounts_record hds.log hlisten (.inl (Nat.le_succ _)) (.plus hds.chain)⟩
  | ahead_fails ha ih =>
    have hlisten := ha.listens hg hs
    obtain ⟨ds, hds⟩ := ih rfl hs
    exact ⟨_, accounts_record hds.log hlisten (.inl (Nat.le_succ _)) (.ahead hds.chain)⟩
  | notAhead_fails ha =>
    have hlisten := ha.listens hg hs
    exact ⟨_, accounts_record (ha.goal_logs hg).endsIn_nil hlisten (.inl (Nat.le_succ _)) .notAhead⟩
  | @call_fails r id s t hr hrule ih =>
    rcases hid : g.body? id with _ | ⟨e | start⟩
    · have ho := hrule.offset_eq_of_missing hid
      have hnowhere (i : RuleId) (hi : r.id = some i) : g.body? i = none := by
        rw [hr, Option.some.injEq] at hi
        exact hi ▸ hid
      exact ⟨_, accounts_record (hrule.goal_logs hg).endsIn_nil (hrule.listens hg hs)
        (.inl (by omega)) (.call_nowhere hnowhere)⟩
    · obtain ⟨ds, hds⟩ := ih rfl hs e hid
      exact ⟨_, accounts_record hds.log (hrule.listens hg hs) (.inr hds.near)
        (.call hr hid hds.chain)⟩
    · exact absurd hid hg.body_ne_native
  | call_unbound hr =>
    exact ⟨_, accounts_record (.refl _) hs (.inl (Nat.le_succ _))
      (.call_nowhere fun id hid => by simp [hr] at hid)⟩
  | capture_fails _ ih =>
    obtain ⟨ds, hds⟩ := ih rfl hs
    exact ⟨ds, .capture hds.chain, hds.log, hds.near⟩
  | done | ask => trivial
  | _ => cases hb

end Grammar

end Peg
