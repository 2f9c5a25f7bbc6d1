import Peg.Proofs.Matching.Endless

/-!
# What is put on record

Matching an expression only ever puts diagnostics behind those that were on record before
(`Peg.Log.GoesOn`). It switches the log off and on again and cuts it back on the way, but never to
less than there was when it began. So cutting the log back to its length at some time gives the log of
that time (`Peg.Log.GoesOn.cutTo_eq`), and letting a log listen again that was muted meanwhile gives the
log as it was before it was muted (`Peg.Log.GoesOn.listen_eq`). What is added lies between the offset
where the expression began and the end of the input, like the offset where it leaves the input
(`Peg.Grammar.Runs.logs`).

The offsets to which it goes back on the way lie there too. Whoever goes back goes back to where it
began, or to where the last round of a repetition ended (`Peg.Grammar.Rewinds`), and these are offsets
at which something was started. All of this is put together in `Peg.Grammar.evaluate_goes_on`.
-/

namespace Peg

namespace Log

/-- **The second log goes on from the first**: it listens if the first one does, and what it has more
are diagnostics at the end, of offsets from `p` to `q`. A muted log stays as it is. -/
structure GoesOn (p q : Nat) (l l' : Log) : Prop where
  tracking : l'.tracking = l.tracking
  records : ∃ ds, l'.records.toList = l.records.toList ++ ds ∧
    ∀ d ∈ ds, p ≤ d.position ∧ d.position ≤ q
  muted : l.tracking = false → l' = l

namespace GoesOn

variable {p p' q q' : Nat} {l l' l'' : Log}

theorem refl (p q : Nat) (l : Log) : GoesOn p q l l :=
  ⟨rfl, ⟨[], by simp⟩, fun _ => rfl⟩

theorem trans (h : GoesOn p q l l') (h' : GoesOn p q l' l'') : GoesOn p q l l'' where
  tracking := h'.tracking.trans h.tracking
  records := by
    obtain ⟨ds, hl, hds⟩ := h.records
    obtain ⟨es, hl', hes⟩ := h'.records
    refine ⟨ds ++ es, by rw [hl', hl, List.append_assoc], fun d hd => ?_⟩
    rcases List.mem_append.mp hd with hd | hd
    · exact hds d hd
    · exact hes d hd
  muted hl := (h'.muted (h.tracking.trans hl)).trans (h.muted hl)

theorem mono (h : GoesOn p q l l') (hp : p' ≤ p) (hq : q ≤ q') : GoesOn p' q' l l' where
  tracking := h.tracking
  records := by
    obtain ⟨ds, hl, hds⟩ := h.records
    exact ⟨ds, hl, fun d hd => ⟨hp.trans (hds d hd).1, (hds d hd).2.trans hq⟩⟩
  muted := h.muted

theorem add {n : Nat} (hp : p ≤ n) (hq : n ≤ q) (f : Failure) : GoesOn p q l (l.add n f) := by
  cases hl : l.tracking with
  | false =>
    rw [Log.add, hl]
    exact refl p q l
  | true =>
    refine ⟨by simp [Log.add, hl], ⟨[⟨n, f⟩], by simp [Log.add, hl], fun d hd => ?_⟩, fun hmuted => ?_⟩
    · obtain rfl := List.mem_singleton.mp hd
      exact ⟨hp, hq⟩
    · simp [hl] at hmuted

/-- **A log is cut back to what it was.** -/
theorem cutTo_eq (h : GoesOn p q l l') : l'.cutTo l.records.size = l := by
  obtain ⟨ds, hds, -⟩ := h.records
  have hrecords : l'.records.shrink l.records.size = l.records := by
    apply Array.toList_inj.mp
    simp [hds]
  rw [cutTo, hrecords, h.tracking]

/-- **What happens while a log is muted leaves no trace in it.** -/
theorem listen_eq (h : GoesOn p q { l with tracking := false } l') :
    { l' with tracking := l.tracking } = l := by
  rw [h.muted rfl]

end GoesOn

end Log

/-- The log of the second state goes on from that of the first, with diagnostics from the offset of the
first state on. -/
def State.Logs (s t : State) : Prop := s.log.GoesOn s.offset (max s.input.size s.offset) t.log

namespace State.Logs

variable {s t u : State}

theorem of_log_eq (h : t.log = s.log) : s.Logs t := by
  rw [Logs, h]
  exact .refl _ _ _

/-- Of the second state only the log counts. -/
theorem congr {t' : State} (h : s.Logs t) (ht : t'.log = t.log) : s.Logs t' := by
  rw [Logs, ht]
  exact h

/-- What is logged further on is logged in between. -/
theorem trans (h : s.Logs t) (hr : s.Reaches t) (h' : t.Logs u) : s.Logs u := by
  refine Log.GoesOn.trans h (Log.GoesOn.mono h' hr.le ?_)
  have := hr.le_max
  rw [hr.input]
  omega

/-- So is what is logged in a second attempt from where the first one began. -/
theorem again (h : s.Logs t) (hi : t.input = s.input) (h' : (t.moveTo s.offset).Logs u) :
    s.Logs u :=
  trans (t := t.moveTo s.offset) (h.congr rfl) (.of_offset_eq hi rfl) h'

/-- The failure of what began at the first state is put on record in the second. -/
theorem record (h : s.Logs t) (f : Failure) : s.Logs (t.record s.offset f) :=
  Log.GoesOn.trans h (.add (Nat.le_refl _) (Nat.le_max_right _ _) f)

end State.Logs

namespace Grammar

variable {g : Grammar} {τ τ' : Task} {s s' t u : State} {b : Bool}

/-- **What a run puts on record** comes behind what was there before, and lies between the offset where
the run began and the end of the input. -/
theorem Runs.logs (hg : g.AllTrees) (h : g.Runs τ s b t) (hf : τ.Fits s)
    (hτ : ∀ c, τ ≠ .script c) : s.Logs t := by
  have hn := hg.nativesRead
  induction h with
  | expr_matches _ ih => exact ih hf nofun
  | expr_fails _ ih => exact (ih hf nofun).congr rfl
  | rule_tree _ _ ih => exact (ih trivial nofun).congr rfl
  | rule_native hid => exact absurd hid hg.body_ne_native
  | rule_missing => exact .of_log_eq rfl
  | named_known _ _ ih => exact ih trivial nofun
  | named_unknown => exact .of_log_eq rfl
  | text_matches => exact .of_log_eq rfl
  | text_fails => exact State.Logs.record (.of_log_eq rfl) _
  | single_matches => exact .of_log_eq rfl
  | single_fails => exact State.Logs.record (.of_log_eq rfl) _
  | empty => exact .of_log_eq rfl
  | seq_first_fails _ ih => exact ((ih trivial nofun).congr rfl).record _
  | seq_second_fails ha _ iha ihb =>
    exact ((iha trivial nofun).trans (ha.reaches hn trivial) (ihb trivial nofun)).record _
  | seq_matches ha _ iha ihb =>
    exact (iha trivial nofun).trans (ha.reaches hn trivial) (ihb trivial nofun)
  | alt_first _ ih => exact ih trivial nofun
  | alt_second ha _ iha ihb =>
    -- the log is cut back to what it was when the choice began
    have hlogs := (iha trivial nofun).again (ha.reaches hn trivial).input (ihb trivial nofun)
    exact .of_log_eq hlogs.cutTo_eq
  | alt_fails ha _ iha ihb =>
    exact ((iha trivial nofun).again (ha.reaches hn trivial).input (ihb trivial nofun)).record _
  | opt_some _ ih => exact ih trivial nofun
  | opt_none _ ih => exact (ih trivial nofun).congr rfl
  | star _ ih => exact .of_log_eq (ih rfl nofun).listen_eq
  | plus_fails _ ih => exact ((ih trivial nofun).congr rfl).record _
  | plus_matches _ _ iha ihl => exact (iha trivial nofun).congr (ihl rfl nofun).listen_eq
  | loop_ends _ ih => exact (ih trivial nofun).congr rfl
  | loop_still _ _ ih => exact ih trivial nofun
  | loop_more ha _ _ iha ihl =>
    exact (iha trivial nofun).trans (ha.reaches hn trivial) (ihl rfl nofun)
  | ahead_matches _ ih => exact (ih trivial nofun).congr rfl
  | ahead_fails _ ih => exact ((ih trivial nofun).congr rfl).record _
  | notAhead_matches _ ih => exact (ih trivial nofun).congr rfl
  | notAhead_fails _ ih => exact ((ih trivial nofun).congr rfl).record _
  | call_matches _ _ ih => exact ih trivial nofun
  | call_fails _ _ ih => exact (ih trivial nofun).record _
  | call_unbound => exact State.Logs.record (.of_log_eq rfl) _
  | capture_matches _ ih => exact (ih trivial nofun).congr rfl
  | capture_fails _ ih => exact ih trivial nofun
  | done => exact absurd rfl (hτ _)
  | ask => exact absurd rfl (hτ _)

theorem Runs.goal_logs (hg : g.AllTrees) {goal : Goal} (h : g.Runs (.goal goal) s b t) :
    s.log.GoesOn s.offset (max s.input.size s.offset) t.log :=
  h.logs hg trivial nofun

theorem Runs.loop_logs (hg : g.AllTrees) {a : Expr} {mark : Nat} (h : g.Runs (.loop a mark) s b t)
    (hm : s.offset = mark) : s.log.GoesOn s.offset (max s.input.size s.offset) t.log :=
  h.logs hg hm nofun

/-! ### Going back -/

/-- **The task goes back to an offset**, for one of the reasons there are to go back: a text does not
come next, a part of it has failed, it was only looking ahead, or its repetition is over. -/
inductive Rewinds (g : Grammar) : Task → State → Nat → Prop
  | text {x s} (h : ¬x.toList <+: s.reader.rest) : g.Rewinds (.node (.text x)) s s.offset
  | seq {a b s t} (h : g.Runs (.goal (.expr a)) s false t) :
      g.Rewinds (.node (.seq a b)) s s.offset
  | plus {a s t} (h : g.Runs (.goal (.expr a)) s false t) : g.Rewinds (.node (.plus a)) s s.offset
  | alt {a b s t} (h : g.Runs (.goal (.expr a)) s false t) :
      g.Rewinds (.node (.alt a b)) s s.offset
  | opt {a s t} (h : g.Runs (.goal (.expr a)) s false t) : g.Rewinds (.node (.opt a)) s s.offset
  | ahead {a s b t} (h : g.Runs (.goal (.expr a)) s b t) : g.Rewinds (.node (.ahead a)) s s.offset
  | notAhead {a s b t} (h : g.Runs (.goal (.expr a)) s b t) :
      g.Rewinds (.node (.notAhead a)) s s.offset
  | loop_ends {a mark s t} (h : g.Runs (.goal (.expr a)) s false t) : g.Rewinds (.loop a mark) s mark
  | loop_still {a mark s t} (h : g.Runs (.goal (.expr a)) s true t) (ht : t.offset = mark) :
      g.Rewinds (.loop a mark) s mark

/-- **The input is put back to an offset** while the goal is attempted. -/
def GoesBack (g : Grammar) (goal : Goal) (s : State) (offset : Nat) : Prop :=
  ∃ τ u, Relation.ReflTransGen g.Opens (.goal goal, s) (τ, u) ∧ g.Rewinds τ u offset

/-- Whatever goes back goes back to where it was started. -/
theorem Rewinds.offset_eq {n : Nat} (h : g.Rewinds τ s n) (hf : τ.Fits s) : n = s.offset := by
  cases h with
  | loop_ends => exact hf.symm
  | loop_still => exact hf.symm
  | _ => rfl

/-- The input is only put back to offsets that lie ahead of where the goal began. -/
theorem reaches_of_goesBack (hn : g.NativesRead) {goal : Goal} {n : Nat} (h : g.GoesBack goal s n) :
    s.offset ≤ n ∧ n ≤ max s.input.size s.offset := by
  obtain ⟨τ, u, hopens, hback⟩ := h
  obtain ⟨hf, hr⟩ := reaches_of_opens hn hopens trivial
  rw [hback.offset_eq hf]
  exact ⟨hr.le, hr.le_max⟩

/-- **The log goes on, and so does the input.** Take a grammar of trees, and a state that is not past
the end of the input. However the evaluation of an expression ends, the log listens or is muted as
before, and what was on record is still there, in front of diagnostics of offsets between where the
expression began and the end of the input; nothing is put on record if the log was muted. The input is
left at an offset in between, too, and so are all offsets to which it is put back on the way. -/
theorem evaluate_goes_on (hg : g.AllTrees) (e : Expr) (s : State) (hs : s.offset ≤ s.input.size) :
    (∀ b t, g.evaluate (.expr e) s = some (b, t) →
      t.log.tracking = s.log.tracking ∧
        (∃ ds, t.log.records.toList = s.log.records.toList ++ ds ∧
          ∀ d ∈ ds, s.offset ≤ d.position ∧ d.position ≤ s.input.size) ∧
        (s.log.tracking = false → t.log = s.log) ∧
        t.input = s.input ∧ s.offset ≤ t.offset ∧ t.offset ≤ s.input.size) ∧
      ∀ n, g.GoesBack (.expr e) s n → s.offset ≤ n ∧ n ≤ s.input.size := by
  have hmax : max s.input.size s.offset = s.input.size := Nat.max_eq_left hs
  refine ⟨fun b t h => ?_, fun n h => ?_⟩
  · have hrun := hg.evaluate_iff_runs.mp h
    have hreach := hrun.reaches hg.nativesRead trivial
    have hlogs := hrun.goal_logs hg
    have hle := hreach.le_max
    rw [hmax] at hlogs hle
    exact ⟨hlogs.tracking, hlogs.records, hlogs.muted, hreach.input, hreach.le, hle⟩
  · have hback := reaches_of_goesBack hg.nativesRead h
    rwa [hmax] at hback

/-- `ws <- (' ' / ';')*`. -/
def padded : Grammar where
  rules := [⟨"ws", .tree (.star (.alt (.char ' ') (.char ';')))⟩]
  root := some 0

/-- `(ws '.')?`. -/
def dotted : Expr := .opt (.seq (.call { name := "ws", id := some 0 }) (.char '.'))

/-- Behind an `x` and a failure that was put on record there. -/
def behind : State where
  reader := { input := #['x', ' ', ' '], offset := 1 }
  log := { records := #[⟨0, .any⟩] }

/-- The blanks are given back, since there is no dot behind them, and two diagnostics are left. With the
log muted there are none. -/
theorem evaluate_goes_on_padded :
    padded.AllTrees ∧ behind.offset ≤ behind.input.size ∧
      (∃ t, padded.evaluate (.expr dotted) behind = some (true, t) ∧
        ∃ ds, t.log.records.toList = ⟨0, .any⟩ :: ds ∧ ds = [⟨3, .char '.'⟩, ⟨1, .sequence⟩] ∧
          ∀ d ∈ ds, 1 ≤ d.position ∧ d.position ≤ 3) ∧
      (∃ t, padded.evaluate (.expr dotted) (behind.track false) = some (true, t) ∧
        t.log = (behind.track false).log) ∧
      padded.GoesBack (.expr dotted) behind 1 ∧ 1 ≤ behind.input.size := by
  have hg : padded.AllTrees := by simp [AllTrees, padded, Body.tree?]
  have hs : behind.offset ≤ behind.input.size := by decide
  obtain ⟨t, ht, hrecords⟩ : ∃ t, padded.evaluate (.expr dotted) behind = some (true, t) ∧
      t.log.records.toList = [⟨0, .any⟩, ⟨3, .char '.'⟩, ⟨1, .sequence⟩] := ⟨_, rfl, rfl⟩
  obtain ⟨u, hu⟩ : ∃ u, padded.evaluate (.expr dotted) (behind.track false) = some (true, u) :=
    ⟨_, rfl⟩
  obtain ⟨hlistening, hback⟩ := evaluate_goes_on hg dotted behind hs
  obtain ⟨ds, hds, hplaces⟩ := (hlistening true t ht).2.1
  have hmuted := ((evaluate_goes_on hg dotted (behind.track false) hs).1 true u hu).2.2.1 rfl
  have hopt : padded.GoesBack (.expr dotted) behind 1 := by
    obtain ⟨v, hv⟩ : ∃ v, padded.attempt 8
        (.expr (.seq (.call { name := "ws", id := some 0 }) (.char '.'))) behind = (some false, v) :=
      ⟨_, rfl⟩
    exact ⟨_, _, .single Starts.node.opens, .opt (runs_of_attempt hv)⟩
  refine ⟨hg, hs, ⟨t, ht, ds, hds, ?_, hplaces⟩, ⟨u, hu, hmuted⟩, hopt, (hback 1 hopt).2⟩
  have hboth := hrecords.symm.trans hds
  simpa [behind] using hboth.symm

end Grammar

end Peg
