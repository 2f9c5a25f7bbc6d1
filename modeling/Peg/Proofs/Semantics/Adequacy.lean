import Peg.Proofs.Grammar.Basic
import Peg.Proofs.Matching.Runs
import Peg.Proofs.Semantics.Derivation

/-!
# Runs and derivations

A run changes a state back and forth: a failure may leave the input wherever it happened to be,
captures are made and dropped, the log grows and is cut. A derivation knows of none of this. This
file shows that the two agree, for every grammar and every table that says what its rules mean
(`Peg.Grammar.Means`): what a run answers is a verdict that can be derived
(`Peg.Grammar.derives_of_runs`), and whatever can be derived is answered by a run
(`Peg.Grammar.runs_of_derives`).

`Peg.Verdict.Describes` says what a verdict tells of a run. Of a failure it does *not* tell where
the input was left, which is what makes the agreement worth proving: whoever goes on after a failure
has to come back to where it began on its own.
-/

namespace Peg

/-- **What a verdict tells of a run**: whether it matched and, if it did, where it ended and what it
captured. A failure captures nothing. -/
def Verdict.Describes (v : Verdict) (s : State) (b : Bool) (t : State) : Prop :=
  t.input = s.input ∧
    match v with
    | .fails => b = false ∧ t.captures = s.captures
    | .matches stop ranges =>
      b = true ∧ t.offset = stop ∧
        t.captures.toList = s.captures.toList ++ ranges.map fun r => Capture.ofRange r.1 r.2

/-- The state after a node was run, without the captures of a failure. -/
def State.settle (s : State) (b : Bool) (t : State) : State :=
  if b then t else t.dropCaptures s.captures.size

namespace Verdict

variable {s t u : State} {b : Bool} {p q : Nat} {cs ds : List (Nat × Nat)}

/-- Only the input, the offset and the captures count. -/
theorem Describes.congr {v : Verdict} {s' t' : State} (h : v.Describes s b t)
    (hs : s'.input = s.input) (hs' : s'.captures = s.captures) (ht : t'.input = t.input)
    (ho : t'.offset = t.offset) (ht' : t'.captures = t.captures) : v.Describes s' b t' := by
  unfold Describes at h ⊢
  rw [hs, hs', ht, ho, ht']
  exact h

/-- After a match, a match. -/
theorem Describes.trans (h : (Verdict.matches p cs).Describes s true t)
    (h' : (Verdict.matches q ds).Describes t b u) :
    (Verdict.matches q (cs ++ ds)).Describes s b u := by
  obtain ⟨hi, -, -, hc⟩ := h
  obtain ⟨hi', hb, ho, hc'⟩ := h'
  exact ⟨hi'.trans hi, hb, ho, by rw [hc', hc, List.map_append, List.append_assoc]⟩

/-- What an attempt captured is behind what was there before. -/
theorem Describes.captures_grow {v : Verdict} (h : v.Describes s b t) :
    s.captures.toList <+: t.captures.toList := by
  cases v with
  | fails => exact h.2.2 ▸ List.prefix_rfl
  | «matches» q cs => exact h.2.2.2 ▸ List.prefix_append _ _

/-- What describes an answer that was no is a failure. -/
theorem Describes.eq_fails {v : Verdict} (h : v.Describes s false t) : v = fails := by
  cases v with
  | fails => rfl
  | «matches» q cs => exact absurd h.2.1 (by decide)

/-- A failure that only added captures is a failure once they are dropped. -/
theorem describes_settle (hi : t.input = s.input) (hp : s.captures.toList <+: t.captures.toList) :
    fails.Describes s false (s.settle false t) := by
  obtain ⟨r, hr⟩ := hp
  refine ⟨hi, rfl, ?_⟩
  apply Array.toList_inj.mp
  simp [State.settle, ← hr]

/-- Whoever goes back to the start after a failure has an empty match. -/
theorem Describes.moveTo (h : fails.Describes s false t) :
    (Verdict.matches s.offset []).Describes s true (t.moveTo s.offset) :=
  ⟨h.1, rfl, rfl, by simp [h.2.2]⟩

/-- Looking ahead is undone: what was captured on the way is behind what was there before, and is
dropped. -/
theorem Describes.captures_restore {v : Verdict} (h : v.Describes s b t) :
    (t.restore s.snapshot).captures = s.captures := by
  obtain ⟨r, hr⟩ := h.captures_grow
  apply Array.toList_inj.mp
  simp [← hr]

/-- Whatever came of looking ahead, it may count as an empty match. -/
theorem Describes.restore {v : Verdict} (h : v.Describes s b t) :
    (Verdict.matches s.offset []).Describes s true (t.restore s.snapshot) :=
  ⟨h.1, rfl, rfl, by rw [h.captures_restore, List.map_nil, List.append_nil]⟩

/-- Whatever came of looking ahead, it may count as a failure. -/
theorem Describes.restore_fails {v : Verdict} (h : v.Describes s b t) (f : Failure) :
    fails.Describes s false (s.settle false ((t.restore s.snapshot).record s.offset f)) :=
  describes_settle h.1 (h.captures_restore ▸ List.prefix_rfl)

/-- A match that is captured has its range behind its own captures. -/
theorem Describes.push (h : (Verdict.matches q cs).Describes s true t) :
    (Verdict.matches q (cs ++ [(s.offset, q)])).Describes s true
      (t.push (Capture.ofRange s.offset t.offset)) := by
  obtain ⟨hi, -, ho, hc⟩ := h
  exact ⟨hi, rfl, ho, by simp [hc, ho]⟩

end Verdict

namespace Grammar

/-- **A table says what the rules of a grammar mean**: its trees are the trees of the grammar, and a
native rule is over at once and does what its verdict tells. -/
structure Means (g : Grammar) (rules : RuleId → Option Meaning) : Prop where
  /-- Trees mean themselves. -/
  tree : ∀ {id e}, g.body? id = some (.tree e) → rules id = some (.tree e)
  /-- A native rule asks for nothing, and its verdict describes what it does. -/
  native : ∀ {id start}, g.body? id = some (.native start) →
    ∃ f, rules id = some (.primitive f) ∧
      ∀ s, ∃ b t, start s = .done b t ∧ (f s.input s.offset).Describes s b t
  /-- There are no other rules. -/
  missing : ∀ {id}, g.body? id = none → rules id = none

/-! ### Every run has a derivation -/

section Sound

variable {g : Grammar} {rules : RuleId → Option Meaning}

/-- What a derivation has to explain of the run of a task. A repetition that begins at its mark is
the rest of a `star`, and a rule is what a call of it comes to. -/
def Explained (g : Grammar) (rules : RuleId → Option Meaning) (τ : Task) (s : State) (b : Bool)
    (t : State) : Prop :=
  match τ with
  | .goal (.expr e) =>
    g.Binds e → ∃ v, Derives rules s.input e s.offset v ∧ v.Describes s b t
  | .node e =>
    g.Binds e → ∃ v, Derives rules s.input e s.offset v ∧ v.Describes s b (s.settle b t)
  | .goal (.rule id) =>
    id < g.size → ∀ r : Reference, r.id = some id →
      ∃ v, Derives rules s.input (.call r) s.offset v ∧ v.Describes s b t
  | .loop a mark =>
    s.offset = mark → g.Binds a →
      ∃ v, Derives rules s.input (.star a) mark v ∧ v.Describes s b t
  | .goal (.named _) | .script _ => True

/-- What describes a run that matched is a match. -/
theorem exists_matches {D : Verdict → Prop} {s t : State}
    (h : ∃ v, D v ∧ v.Describes s true t) :
    ∃ cs, D (.matches t.offset cs) ∧ (Verdict.matches t.offset cs).Describes s true t := by
  obtain ⟨_ | ⟨q, cs⟩, hd, hv⟩ := h
  · exact absurd hv.2.1 (by decide)
  · obtain rfl : t.offset = q := hv.2.2.1
    exact ⟨cs, hd, hv⟩

/-- What describes a run that did not match is a failure. -/
theorem fails_of_exists {D : Verdict → Prop} {s t : State}
    (h : ∃ v, D v ∧ v.Describes s false t) : D .fails ∧ Verdict.fails.Describes s false t := by
  obtain ⟨v, hd, hv⟩ := h
  obtain rfl := hv.eq_fails
  exact ⟨hd, hv⟩

/-- A single character is read as its test says. -/
theorem derives_single {e : Expr} {accept : Option Char → Bool} {f : Failure} {s : State}
    (he : e.single? = some (accept, f)) :
    (accept s.reader.current? = true →
        Derives rules s.input e s.offset (.matches s.advance.offset [])) ∧
      (accept s.reader.current? = false → Derives rules s.input e s.offset .fails) := by
  have hcur : s.reader.current? = s.input[s.offset]? := rfl
  have hstep {c} (hc : s.input[s.offset]? = some c) : s.advance.offset = s.offset + 1 :=
    s.offset_advance_of_lt (Array.getElem?_eq_some_iff.mp hc).1
  rw [hcur]
  cases e with
  | char c =>
    obtain ⟨rfl, rfl⟩ : (· == some c) = accept ∧ _ = f := by simpa [Expr.single?] using he
    refine ⟨fun h => ?_, fun h => .char_fails (by simpa using h)⟩
    have hc : s.input[s.offset]? = some c := by simpa using h
    exact hstep hc ▸ .char_matches hc
  | endOfInput =>
    obtain ⟨rfl, rfl⟩ : (·.isNone) = accept ∧ _ = f := by simpa [Expr.single?] using he
    refine ⟨fun h => ?_, fun h => .end_fails (by simpa using h)⟩
    have hle : s.input.size ≤ s.offset := by simpa using h
    exact (s.offset_advance_of_le hle).symm ▸ .end_matches hle
  | range first last =>
    obtain ⟨rfl, rfl⟩ :
        (·.any fun c => first ≤ c && c ≤ last) = accept ∧ _ = f := by simpa [Expr.single?] using he
    rcases hc : s.input[s.offset]? with _ | c
    · exact ⟨fun h => by simp at h, fun _ => .range_fails fun c hc' => by simp [hc] at hc'⟩
    · refine ⟨fun h => ?_, fun h => .range_fails fun c' hc' => ?_⟩
      · exact hstep hc ▸ .range_matches hc (by simpa using h)
      · obtain rfl : c = c' := by simpa [hc] using hc'
        simpa using h
  | any =>
    obtain ⟨rfl, rfl⟩ : (·.isSome) = accept ∧ _ = f := by simpa [Expr.single?] using he
    refine ⟨fun h => ?_, fun h => .any_fails (by simpa using h)⟩
    have hlt : s.offset < s.input.size := by simpa using h
    exact (s.offset_advance_of_lt hlt).symm ▸ .any_matches hlt
  | _ => simp [Expr.single?] at he

variable (hg : g.Means rules) (hr : g.Resolved)
include hg hr

/-- **What a run answers can be derived.** -/
theorem explained_of_runs {τ : Task} {s : State} {b : Bool} {t : State} (h : g.Runs τ s b t) :
    g.Explained rules τ s b t := by
  -- in each case the parts are explained, and their verdicts are put together by one rule
  induction h with
  | expr_matches _ ih => exact ih
  | expr_fails _ ih => exact ih
  | @rule_tree id e s b t hid _ ih =>
    rintro - r hri
    obtain ⟨v, hd, hv⟩ := ih (hr.binds_of_body hid)
    exact ⟨v, .call_tree hri (hg.tree hid) hd, hv.congr rfl rfl rfl rfl rfl⟩
  | @rule_native id start s b t hid hrun _ =>
    rintro - r hri
    obtain ⟨f, hf, hstart⟩ := hg.native hid
    obtain ⟨b', t', hs, hv⟩ := hstart (s.emit (.enter (g.nameOf id) s.offset))
    rw [hs] at hrun
    cases hrun
    exact ⟨_, .call_primitive hri hf, hv.congr rfl rfl rfl rfl rfl⟩
  | @rule_missing id s hid =>
    intro hlt
    simp only [body?, Option.map_eq_none_iff, List.getElem?_eq_none_iff] at hid
    exact absurd hlt (Nat.not_lt.mpr hid)
  | named_known => trivial
  | named_unknown => trivial
  | text_matches h => exact fun _ => ⟨_, .text_matches h, rfl, rfl, rfl, by simp [State.settle]⟩
  | text_fails h =>
    exact fun _ => ⟨_, .text_fails h, Verdict.describes_settle rfl List.prefix_rfl⟩
  | @single_matches e s accept f he h =>
    exact fun _ => ⟨_, (derives_single he).1 h, s.input_advance, rfl, rfl, by simp [State.settle]⟩
  | @single_fails e s accept f he h =>
    exact fun _ => ⟨_, (derives_single he).2 h,
      Verdict.describes_settle s.input_advance List.prefix_rfl⟩
  | empty => exact fun _ => ⟨_, .empty, rfl, rfl, rfl, by simp [State.settle]⟩
  | seq_first_fails _ ih =>
    intro hb
    obtain ⟨hd, hf⟩ := fails_of_exists (ih (binds_seq.mp hb).1)
    exact ⟨_, .seq_first_fails hd, Verdict.describes_settle hf.1 hf.captures_grow⟩
  | seq_second_fails _ _ iha ihb =>
    intro hb
    obtain ⟨cs, hda, ha⟩ := exists_matches (iha (binds_seq.mp hb).1)
    obtain ⟨hdb, hf⟩ := fails_of_exists (ihb (binds_seq.mp hb).2)
    -- the captures of the first part are dropped with the failure of the second
    rw [ha.1] at hdb
    exact ⟨_, .seq_second_fails hda hdb,
      Verdict.describes_settle (hf.1.trans ha.1) (ha.captures_grow.trans hf.captures_grow)⟩
  | seq_matches _ _ iha ihb =>
    intro hb
    obtain ⟨cs, hda, ha⟩ := exists_matches (iha (binds_seq.mp hb).1)
    obtain ⟨ds, hdb, hb'⟩ := exists_matches (ihb (binds_seq.mp hb).2)
    rw [ha.1] at hdb
    exact ⟨_, .seq_matches hda hdb, ha.trans hb'⟩
  | alt_first _ ih =>
    intro hb
    obtain ⟨cs, hd, ha⟩ := exists_matches (ih (binds_alt.mp hb).1)
    exact ⟨_, .alt_first hd, ha⟩
  | alt_second _ _ iha ihb =>
    -- the second alternative is tried from where the choice began, whatever the first left behind
    intro hb
    obtain ⟨hda, hf⟩ := fails_of_exists (iha (binds_alt.mp hb).1)
    obtain ⟨ds, hdb, hb'⟩ := exists_matches (ihb (binds_alt.mp hb).2)
    rw [State.input_moveTo, hf.1] at hdb
    exact ⟨_, .alt_second hda hdb, hb'.congr hf.1.symm hf.2.2.symm rfl rfl rfl⟩
  | alt_fails _ _ iha ihb =>
    intro hb
    obtain ⟨hda, hf⟩ := fails_of_exists (iha (binds_alt.mp hb).1)
    obtain ⟨hdb, hf'⟩ := fails_of_exists (ihb (binds_alt.mp hb).2)
    rw [State.input_moveTo, hf.1] at hdb
    exact ⟨_, .alt_second hda hdb,
      Verdict.describes_settle (hf'.1.trans hf.1) (hf.captures_grow.trans hf'.captures_grow)⟩
  | opt_some _ ih =>
    intro hb
    obtain ⟨cs, hd, ha⟩ := exists_matches (ih (binds_opt.mp hb))
    exact ⟨_, .opt_some hd, ha⟩
  | opt_none _ ih =>
    intro hb
    obtain ⟨hd, hf⟩ := fails_of_exists (ih (binds_opt.mp hb))
    exact ⟨_, .opt_none hd, hf.moveTo⟩
  | star _ ih =>
    intro hb
    obtain ⟨cs, hd, ha⟩ := exists_matches (ih rfl (binds_star.mp hb))
    exact ⟨_, hd, ha.congr rfl rfl rfl rfl rfl⟩
  | plus_fails _ ih =>
    intro hb
    obtain ⟨hd, hf⟩ := fails_of_exists (ih (binds_plus.mp hb))
    exact ⟨_, .plus_fails hd, Verdict.describes_settle hf.1 hf.captures_grow⟩
  | plus_matches _ _ iha ihl =>
    intro hb
    obtain ⟨cs, hda, ha⟩ := exists_matches (iha (binds_plus.mp hb))
    obtain ⟨ds, hdl, hl⟩ := exists_matches (ihl rfl (binds_plus.mp hb))
    rw [State.input_track, ha.1] at hdl
    exact ⟨_, .plus_matches hda hdl, ha.trans (hl.congr rfl rfl rfl rfl rfl)⟩
  | loop_ends _ ih =>
    rintro rfl hb
    obtain ⟨hd, hf⟩ := fails_of_exists (ih hb)
    exact ⟨_, .star_ends hd, hf.moveTo⟩
  | @loop_still a mark s t _ ht ih =>
    -- the captures of a last round that reads nothing are kept
    rintro rfl hb
    obtain ⟨cs, hd, ha⟩ := exists_matches (ih hb)
    rw [ht] at hd ha
    exact ⟨_, .star_still hd, ha⟩
  | loop_more _ ht _ iha ihl =>
    rintro rfl hb
    obtain ⟨cs, hda, ha⟩ := exists_matches (iha hb)
    obtain ⟨ds, hdl, hl⟩ := exists_matches (ihl rfl hb)
    rw [ha.1] at hdl
    exact ⟨_, .star_more hda ht hdl, ha.trans hl⟩
  | ahead_matches _ ih =>
    intro hb
    obtain ⟨cs, hd, ha⟩ := exists_matches (ih (binds_ahead.mp hb))
    exact ⟨_, .ahead_matches hd, ha.restore⟩
  | ahead_fails _ ih =>
    intro hb
    obtain ⟨hd, hf⟩ := fails_of_exists (ih (binds_ahead.mp hb))
    exact ⟨_, .ahead_fails hd, hf.restore_fails .ahead⟩
  | notAhead_matches _ ih =>
    intro hb
    obtain ⟨hd, hf⟩ := fails_of_exists (ih (binds_notAhead.mp hb))
    exact ⟨_, .notAhead_matches hd, hf.restore⟩
  | notAhead_fails _ ih =>
    intro hb
    obtain ⟨cs, hd, ha⟩ := exists_matches (ih (binds_notAhead.mp hb))
    exact ⟨_, .notAhead_fails hd, ha.restore_fails .notAhead⟩
  | @call_matches r id s t hri _ ih =>
    intro hb
    obtain ⟨id', hid', hlt⟩ := binds_call.mp hb
    obtain rfl : id = id' := by simpa [hri] using hid'
    exact ih hlt r hri
  | @call_fails r id s t hri _ ih =>
    intro hb
    obtain ⟨id', hid', hlt⟩ := binds_call.mp hb
    obtain rfl : id = id' := by simpa [hri] using hid'
    obtain ⟨hd, hf⟩ := fails_of_exists (ih hlt r hri)
    exact ⟨_, hd, Verdict.describes_settle hf.1 hf.captures_grow⟩
  | call_unbound hri =>
    -- an expression without loose ends has no such call
    intro hb
    obtain ⟨id, hid, -⟩ := binds_call.mp hb
    simp [hri] at hid
  | capture_matches _ ih =>
    intro hb
    obtain ⟨cs, hd, ha⟩ := exists_matches (ih (binds_capture.mp hb))
    exact ⟨_, .capture_matches hd, ha.push⟩
  | capture_fails _ ih =>
    intro hb
    obtain ⟨hd, hf⟩ := fails_of_exists (ih (binds_capture.mp hb))
    exact ⟨_, .capture_fails hd, Verdict.describes_settle hf.1 hf.captures_grow⟩
  | done => trivial
  | ask => trivial

end Sound

end Grammar

/-! ### Every derivation has a run -/

/-- The task at the heart of an expression that is matched from an offset: for a repetition what is
left of it, which is where derivations go on, and the node otherwise. -/
def Expr.core (e : Expr) (p : Nat) : Task :=
  match e with
  | star a => .loop a p
  | e => .node e

namespace Grammar

section Complete

variable {g : Grammar} {rules : RuleId → Option Meaning} {input : Array Char}

/-- The tree that a rule means is its body. -/
theorem Means.body_of_tree (hg : g.Means rules) {id : RuleId} {e : Expr}
    (h : rules id = some (.tree e)) : g.body? id = some (.tree e) := by
  rcases hid : g.body? id with _ | ⟨e' | start⟩
  · simp [hg.missing hid] at h
  · obtain rfl : e' = e := by simpa [hg.tree hid] using h
    rfl
  · obtain ⟨f, hf, -⟩ := hg.native hid
    simp [hf] at h

/-- A rule that means a verdict is native, and its verdict describes it. -/
theorem Means.body_of_primitive (hg : g.Means rules) {id : RuleId}
    {f : Array Char → Nat → Verdict} (h : rules id = some (.primitive f)) :
    ∃ start, g.body? id = some (.native start) ∧
      ∀ s, ∃ b t, start s = .done b t ∧ (f s.input s.offset).Describes s b t := by
  rcases hid : g.body? id with _ | ⟨e' | start⟩
  · simp [hg.missing hid] at h
  · simp [hg.tree hid] at h
  · obtain ⟨f', hf, hstart⟩ := hg.native hid
    obtain rfl : f' = f := by simpa [hf] using h
    exact ⟨start, rfl, hstart⟩

/-- Whatever the state at the offset `p` of the input, the task is run and the verdict describes it
once the captures of a failure are dropped. -/
def Answers (g : Grammar) (τ : Task) (input : Array Char) (p : Nat) (v : Verdict) : Prop :=
  ∀ s : State, s.input = input → s.offset = p →
    ∃ b t, g.Runs τ s b t ∧ v.Describes s b (s.settle b t)

variable {p q : Nat} {cs : List (Nat × Nat)} {a e : Expr} {v : Verdict}

/-- A loop never fails. -/
theorem Runs.loop_true {mark : Nat} {s t : State} {b : Bool} (h : g.Runs (.loop a mark) s b t) :
    b = true := by
  cases h <;> rfl

/-- Matching an expression comes to what its core comes to. -/
theorem Answers.expr (h : g.Answers (e.core p) input p v) {s : State} (hi : s.input = input)
    (ho : s.offset = p) : ∃ b t, g.Runs (.goal (.expr e)) s b t ∧ v.Describes s b t := by
  have ofNode (h : g.Answers (.node e) input p v) :
      ∃ b t, g.Runs (.goal (.expr e)) s b t ∧ v.Describes s b t := by
    obtain ⟨_ | _, t, hrun, hv⟩ := h s hi ho
    · exact ⟨_, _, .expr_fails hrun, hv⟩
    · exact ⟨_, _, .expr_matches hrun, hv⟩
  cases e with
  | star a =>
    -- a repetition is its loop with the log muted
    obtain ⟨b, t, hrun, hv⟩ := h (s.track false) hi ho
    obtain rfl := hrun.loop_true
    subst ho
    exact ⟨_, _, .expr_matches (.star hrun), hv.congr rfl rfl rfl rfl rfl⟩
  | _ => exact ofNode h

/-- Matching an expression whose core matches. -/
theorem Answers.expr_true (h : g.Answers (e.core p) input p (.matches q cs)) {s : State}
    (hi : s.input = input) (ho : s.offset = p) :
    ∃ t, g.Runs (.goal (.expr e)) s true t ∧ (Verdict.matches q cs).Describes s true t := by
  obtain ⟨b, t, hrun, hv⟩ := h.expr hi ho
  obtain rfl := hv.2.1
  exact ⟨t, hrun, hv⟩

/-- Matching an expression whose core fails. -/
theorem Answers.expr_false (h : g.Answers (e.core p) input p .fails) {s : State}
    (hi : s.input = input) (ho : s.offset = p) :
    ∃ t, g.Runs (.goal (.expr e)) s false t ∧ Verdict.fails.Describes s false t := by
  obtain ⟨b, t, hrun, hv⟩ := h.expr hi ho
  obtain rfl := hv.2.1
  exact ⟨t, hrun, hv⟩

/-- What is left of a repetition that has come to `p`. -/
theorem Answers.loop_true (h : g.Answers (.loop a p) input p (.matches q cs)) {s : State}
    (hi : s.input = input) (ho : s.offset = p) :
    ∃ t, g.Runs (.loop a p) s true t ∧ (Verdict.matches q cs).Describes s true t := by
  obtain ⟨b, t, hrun, hv⟩ := h s hi ho
  obtain rfl := hrun.loop_true
  exact ⟨t, hrun, hv⟩

/-- A character is tested as its derivation says. -/
theorem answers_single (g : Grammar) (input : Array Char) (p : Nat)
    {accept : Option Char → Bool} {f : Failure} (he : e.single? = some (accept, f))
    (hn : e.core p = .node e) :
    (accept input[p]? = true →
        g.Answers (e.core p) input p (.matches (if p < input.size then p + 1 else p) [])) ∧
      (accept input[p]? = false → g.Answers (e.core p) input p .fails) := by
  rw [hn]
  constructor <;> rintro h s rfl rfl
  · exact ⟨true, s.advance, .single_matches he h, s.input_advance, rfl, s.offset_advance,
      by simp [State.settle]⟩
  · exact ⟨false, _, .single_fails he h,
      Verdict.describes_settle s.input_advance List.prefix_rfl⟩

/-- A call comes to what the rule comes to. -/
theorem exists_call {r : Reference} {id : RuleId} (hr : r.id = some id) {s t : State} {b : Bool}
    (h : g.Runs (.goal (.rule id)) s b t) (hv : v.Describes s b t) :
    ∃ b t, g.Runs (.node (.call r)) s b t ∧ v.Describes s b (s.settle b t) := by
  cases b with
  | true => exact ⟨true, _, .call_matches hr h, hv⟩
  | false =>
    obtain rfl := hv.eq_fails
    exact ⟨false, _, .call_fails hr h, Verdict.describes_settle hv.1 hv.captures_grow⟩

/-- **Whatever can be derived is answered by a run.** -/
theorem answers_of_derives (hg : g.Means rules) (h : Derives rules input e p v) :
    g.Answers (e.core p) input p v := by
  -- the state varies from part to part, so the induction is for every state at the offset
  induction h with
  | empty =>
    intro s hi ho
    exact ⟨true, s, .empty, rfl, rfl, ho, by simp [State.settle]⟩
  | text_matches h =>
    rintro s rfl rfl
    exact ⟨true, _, .text_matches h, rfl, rfl, rfl, by simp [State.settle]⟩
  | text_fails h =>
    rintro s rfl rfl
    exact ⟨false, _, .text_fails h, Verdict.describes_settle rfl List.prefix_rfl⟩
  | @char_matches c p h =>
    have hlt : p < input.size := (Array.getElem?_eq_some_iff.mp h).1
    have hc := (answers_single g input p (e := .char c) rfl rfl).1 (by simp [h])
    rwa [if_pos hlt] at hc
  | @char_fails c p h => exact (answers_single g input _ (e := .char c) rfl rfl).2 (by simpa using h)
  | @range_matches first last c p h hc =>
    have hlt : p < input.size := (Array.getElem?_eq_some_iff.mp h).1
    have hr := (answers_single g input p (e := .range first last) rfl rfl).1 (by simp [h, hc])
    rwa [if_pos hlt] at hr
  | @range_fails first last p h =>
    refine (answers_single g input _ (e := .range first last) rfl rfl).2 ?_
    rcases hc : input[p]? with _ | c
    · rfl
    · simpa using h c hc
  | @any_matches p h =>
    have ha := (answers_single g input p (e := .any) rfl rfl).1 (by simp [h])
    rwa [if_pos h] at ha
  | any_fails h => exact (answers_single g input _ (e := .any) rfl rfl).2 (by simpa using h)
  | @end_matches p h =>
    have he := (answers_single g input p (e := .endOfInput) rfl rfl).1 (by simpa using h)
    rwa [if_neg (Nat.not_lt.mpr h)] at he
  | end_fails h => exact (answers_single g input _ (e := .endOfInput) rfl rfl).2 (by simpa using h)
  | seq_matches _ _ iha ihb =>
    intro s hi ho
    obtain ⟨t, hta, hva⟩ := iha.expr_true hi ho
    obtain ⟨u, htb, hvb⟩ := ihb.expr_true (hva.1.trans hi) hva.2.2.1
    exact ⟨true, u, .seq_matches hta htb, hva.trans hvb⟩
  | seq_first_fails _ iha =>
    intro s hi ho
    obtain ⟨t, hta, hva⟩ := iha.expr_false hi ho
    exact ⟨false, _, .seq_first_fails hta, Verdict.describes_settle hva.1 hva.captures_grow⟩
  | seq_second_fails _ _ iha ihb =>
    intro s hi ho
    obtain ⟨t, hta, hva⟩ := iha.expr_true hi ho
    obtain ⟨u, htb, hvb⟩ := ihb.expr_false (hva.1.trans hi) hva.2.2.1
    exact ⟨false, _, .seq_second_fails hta htb,
      Verdict.describes_settle (hvb.1.trans hva.1) (hva.captures_grow.trans hvb.captures_grow)⟩
  | alt_first _ iha =>
    intro s hi ho
    obtain ⟨t, hta, hva⟩ := iha.expr_true hi ho
    exact ⟨true, t, .alt_first hta, hva⟩
  | @alt_second a b p v _ _ iha ihb =>
    intro s hi ho
    obtain ⟨t, hta, hva⟩ := iha.expr_false hi ho
    -- wherever the failure left the input, the choice goes back to where it began
    obtain ⟨c, u, htb, hvb⟩ := ihb.expr (s := t.moveTo s.offset) (hva.1.trans hi) ho
    cases c with
    | true => exact ⟨true, _, .alt_second hta htb, hvb.congr hva.1.symm hva.2.2.symm rfl rfl rfl⟩
    | false =>
      obtain rfl := hvb.eq_fails
      exact ⟨false, _, .alt_fails hta htb,
        Verdict.describes_settle (hvb.1.trans hva.1) (hva.captures_grow.trans hvb.captures_grow)⟩
  | opt_some _ iha =>
    intro s hi ho
    obtain ⟨t, hta, hva⟩ := iha.expr_true hi ho
    exact ⟨true, t, .opt_some hta, hva⟩
  | opt_none _ iha =>
    rintro s hi rfl
    obtain ⟨t, hta, hva⟩ := iha.expr_false hi rfl
    exact ⟨true, _, .opt_none hta, hva.moveTo⟩
  | star_ends _ iha =>
    rintro s hi rfl
    obtain ⟨t, hta, hva⟩ := iha.expr_false hi rfl
    exact ⟨true, _, .loop_ends hta, hva.moveTo⟩
  | star_still _ iha =>
    intro s hi ho
    obtain ⟨t, hta, hva⟩ := iha.expr_true hi ho
    exact ⟨true, t, .loop_still hta hva.2.2.1, hva⟩
  | star_more _ hq _ iha ihs =>
    intro s hi ho
    obtain ⟨t, hta, hva⟩ := iha.expr_true hi ho
    obtain ⟨u, hts, hvs⟩ := Answers.loop_true ihs (hva.1.trans hi) hva.2.2.1
    obtain rfl := hva.2.2.1
    exact ⟨true, u, .loop_more hta hq hts, hva.trans hvs⟩
  | plus_matches _ _ iha ihs =>
    intro s hi ho
    obtain ⟨t, hta, hva⟩ := iha.expr_true hi ho
    obtain ⟨u, hts, hvs⟩ :=
      Answers.loop_true ihs (s := t.track false) (hva.1.trans hi) hva.2.2.1
    obtain rfl := hva.2.2.1
    exact ⟨true, _, .plus_matches hta hts, hva.trans (hvs.congr rfl rfl rfl rfl rfl)⟩
  | plus_fails _ iha =>
    intro s hi ho
    obtain ⟨t, hta, hva⟩ := iha.expr_false hi ho
    exact ⟨false, _, .plus_fails hta, Verdict.describes_settle hva.1 hva.captures_grow⟩
  | ahead_matches _ iha =>
    rintro s hi rfl
    obtain ⟨t, hta, hva⟩ := iha.expr_true hi rfl
    exact ⟨true, _, .ahead_matches hta, hva.restore⟩
  | ahead_fails _ iha =>
    intro s hi ho
    obtain ⟨t, hta, hva⟩ := iha.expr_false hi ho
    exact ⟨false, _, .ahead_fails hta, hva.restore_fails .ahead⟩
  | notAhead_matches _ iha =>
    rintro s hi rfl
    obtain ⟨t, hta, hva⟩ := iha.expr_false hi rfl
    exact ⟨true, _, .notAhead_matches hta, hva.restore⟩
  | notAhead_fails _ iha =>
    intro s hi ho
    obtain ⟨t, hta, hva⟩ := iha.expr_true hi ho
    exact ⟨false, _, .notAhead_fails hta, hva.restore_fails .notAhead⟩
  | @call_tree r id e p v hr hid _ ihe =>
    intro s hi ho
    obtain ⟨b, t, hte, hve⟩ := ihe.expr (s := s.emit (.enter (g.nameOf id) s.offset)) hi ho
    exact exists_call hr (.rule_tree (hg.body_of_tree hid) hte) (hve.congr rfl rfl rfl rfl rfl)
  | @call_primitive r id f p hr hid =>
    rintro s rfl rfl
    obtain ⟨start, hbody, hstart⟩ := hg.body_of_primitive hid
    obtain ⟨b, t, hdone, hve⟩ := hstart (s.emit (.enter (g.nameOf id) s.offset))
    have hscript : g.Runs (.script (start (s.emit (.enter (g.nameOf id) s.offset))))
        (s.emit (.enter (g.nameOf id) s.offset)) b t := hdone ▸ .done
    exact exists_call hr (.rule_native hbody hscript) (hve.congr rfl rfl rfl rfl rfl)
  | capture_matches _ iha =>
    rintro s hi rfl
    obtain ⟨t, hta, hva⟩ := iha.expr_true hi rfl
    exact ⟨true, _, .capture_matches hta, hva.push⟩
  | capture_fails _ iha =>
    intro s hi ho
    obtain ⟨t, hta, hva⟩ := iha.expr_false hi ho
    exact ⟨false, t, .capture_fails hta, Verdict.describes_settle hva.1 hva.captures_grow⟩

/-- **What is answered can be derived.** -/
theorem derives_of_runs (hg : g.Means rules) (hr : g.Resolved) (hb : g.Binds e) {s t : State}
    {b : Bool} (h : g.Runs (.goal (.expr e)) s b t) :
    ∃ v, Derives rules s.input e s.offset v ∧ v.Describes s b t :=
  explained_of_runs hg hr h hb

/-- **What can be derived is answered.** -/
theorem runs_of_derives (hg : g.Means rules) {s : State}
    (h : Derives rules s.input e s.offset v) :
    ∃ b t, g.Runs (.goal (.expr e)) s b t ∧ v.Describes s b t :=
  (answers_of_derives hg h).expr rfl rfl

/-- What matches does not fail. -/
theorem Means.not_fails (hg : g.Means rules) (h : Derives rules input e p (.matches q cs)) :
    ¬Derives rules input e p .fails := by
  intro hf
  obtain ⟨b, t, hrun, hd⟩ := runs_of_derives hg (s := { reader := { input, offset := p } }) h
  obtain ⟨b', t', hrun', hd'⟩ := runs_of_derives hg (s := { reader := { input, offset := p } }) hf
  have hb := (hrun.unique hrun').1
  rw [hd.2.1, hd'.2.1] at hb
  exact absurd hb (by decide)

end Complete

end Grammar

end Peg
