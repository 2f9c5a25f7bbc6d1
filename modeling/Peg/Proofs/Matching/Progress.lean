import Peg.Proofs.Grammar.Basic
import Peg.Proofs.Grammar.Nullable
import Peg.Proofs.Matching.Starts

/-!
# Reading goes forwards

However an attempt ends, it leaves the input at an offset that is not before the one where it began
and not past the end (`Peg.Grammar.Runs.reaches`); going back is only ever going back to where
something began. An attempt that succeeds where it began is one of something nullable
(`Peg.Grammar.Runs.nullable`). Here the end of the input is special: it is found there without
reading anything, so at the end of the input the verdicts that count it as nothing are the ones to
ask.

Native rules could do anything. What is said here holds if each of them is over at once, goes
forwards too and reads something whenever it matches (`Peg.Grammar.NativesRead`).
-/

namespace Peg

/-- The second state may be reached from the first by reading on. -/
structure State.Reaches (s t : State) : Prop where
  /-- The input is the same. -/
  input : t.input = s.input
  /-- The offset is not before that of the first. -/
  le : s.offset ≤ t.offset
  /-- The end of the input is not passed. -/
  le_max : t.offset ≤ max s.input.size s.offset

namespace State.Reaches

variable {s t u : State}

theorem of_offset_eq (hi : t.input = s.input) (ho : t.offset = s.offset) : s.Reaches t :=
  ⟨hi, by omega, by omega⟩

theorem refl (s : State) : s.Reaches s := .of_offset_eq rfl rfl

theorem trans (h : s.Reaches t) (h' : t.Reaches u) : s.Reaches u := by
  obtain ⟨hi, hle, hmax⟩ := h
  obtain ⟨hi', hle', hmax'⟩ := h'
  rw [hi] at hmax'
  exact ⟨hi'.trans hi, by omega, by omega⟩

/-- Only the input and the offset count. -/
theorem congr {s' t' : State} (h : s.Reaches t) (hs : s'.input = s.input)
    (hso : s'.offset = s.offset) (ht : t'.input = t.input) (hto : t'.offset = t.offset) :
    s'.Reaches t' :=
  ⟨by rw [ht, hs, h.input], by rw [hto, hso]; exact h.le, by rw [hto, hso, hs]; exact h.le_max⟩

/-- Where something was read there was something to read. -/
theorem lt_size (h : s.Reaches t) (hlt : s.offset < t.offset) : s.offset < s.input.size := by
  have := h.le_max
  omega

theorem advance (s : State) : s.Reaches s.advance := by
  rcases Nat.lt_or_ge s.offset s.input.size with hlt | hge
  · have ho := s.offset_advance_of_lt hlt
    exact ⟨s.input_advance, by omega, by omega⟩
  · exact .of_offset_eq s.input_advance (s.offset_advance_of_le hge)

theorem text {x : String} (h : x.toList <+: s.reader.rest) :
    s.Reaches (s.moveTo (s.offset + x.length)) := by
  have hle : x.toList.length ≤ s.input.size - s.offset := by
    simpa [Reader.rest, State.input, State.offset] using h.length_le
  rw [String.length_toList] at hle
  have ho : (s.moveTo (s.offset + x.length)).offset = s.offset + x.length := rfl
  exact ⟨rfl, by omega, by omega⟩

end State.Reaches

namespace Grammar

/-- **Every native rule is over at once, goes forwards, and reads something if it matches.** -/
def NativesRead (g : Grammar) : Prop :=
  ∀ id start, g.body? id = some (.native start) →
    ∀ s, ∃ b t, start s = .done b t ∧ s.Reaches t ∧ (b = true → s.offset < t.offset)

theorem AllTrees.nativesRead {g : Grammar} (h : g.AllTrees) : g.NativesRead :=
  fun _ _ hid => absurd hid h.body_ne_native

end Grammar

/-- What is known of the tasks that are started: a repetition stands where its last round ended, and
a native rule is over. -/
def Task.Fits : Task → State → Prop
  | .loop _ mark, s => s.offset = mark
  | .script c, s => ∃ b t, c = .done b t ∧ s.Reaches t ∧ (b = true → s.offset < t.offset)
  | .goal _, _ | .node _, _ => True

/-- A native rule that is over asks for nothing. -/
theorem Task.not_fits_ask {goal : Goal} {r s : State} {resume : Bool → State → Script} :
    ¬(Task.script (.ask goal r resume)).Fits s := by
  rintro ⟨b, t, hc, -⟩
  cases hc

namespace Grammar

variable {g : Grammar} {τ τ' : Task} {s s' t : State} {b : Bool}

/-- **No attempt ends before where it began or past the end of the input.** -/
theorem Runs.reaches (hn : g.NativesRead) (h : g.Runs τ s b t) (hf : τ.Fits s) : s.Reaches t := by
  -- a failure may leave the input ahead, but whoever goes on goes back to where it began
  induction h with
  | expr_matches _ ih => exact ih hf
  | expr_fails _ ih => exact (ih hf).congr rfl rfl rfl rfl
  | rule_tree _ _ ih => exact (ih trivial).congr rfl rfl rfl rfl
  | rule_native hid _ ih => exact (ih (hn _ _ hid _)).congr rfl rfl rfl rfl
  | rule_missing => exact .of_offset_eq rfl rfl
  | named_known _ _ ih => exact ih trivial
  | named_unknown => exact .refl _
  | text_matches h => exact .text h
  | text_fails => exact .of_offset_eq rfl rfl
  | single_matches => exact .advance _
  | single_fails => exact (State.Reaches.advance _).congr rfl rfl rfl rfl
  | empty => exact .refl _
  | seq_first_fails _ ih => exact .of_offset_eq (ih trivial).input rfl
  | seq_second_fails _ _ iha ihb =>
    exact ((iha trivial).trans (ihb trivial)).congr rfl rfl rfl rfl
  | seq_matches _ _ iha ihb => exact (iha trivial).trans (ihb trivial)
  | alt_first _ ih => exact ih trivial
  | alt_second _ _ iha ihb =>
    exact (ihb trivial).congr (iha trivial).input.symm rfl rfl rfl
  | alt_fails _ _ iha ihb =>
    exact (ihb trivial).congr (iha trivial).input.symm rfl rfl rfl
  | opt_some _ ih => exact ih trivial
  | opt_none _ ih => exact .of_offset_eq (ih trivial).input rfl
  | star _ ih => exact (ih rfl).congr rfl rfl rfl rfl
  | plus_fails _ ih => exact .of_offset_eq (ih trivial).input rfl
  | plus_matches _ _ iha ihl =>
    exact (iha trivial).trans ((ihl rfl).congr rfl rfl rfl rfl)
  | loop_ends _ ih => exact .of_offset_eq (ih trivial).input hf.symm
  | loop_still _ _ ih => exact ih trivial
  | loop_more _ _ _ iha ihl => exact (iha trivial).trans (ihl rfl)
  | ahead_matches _ ih => exact .of_offset_eq (ih trivial).input rfl
  | ahead_fails _ ih => exact .of_offset_eq (ih trivial).input rfl
  | notAhead_matches _ ih => exact .of_offset_eq (ih trivial).input rfl
  | notAhead_fails _ ih => exact .of_offset_eq (ih trivial).input rfl
  | call_matches _ _ ih => exact ih trivial
  | call_fails _ _ ih => exact (ih trivial).congr rfl rfl rfl rfl
  | call_unbound => exact .of_offset_eq rfl rfl
  | capture_matches _ ih => exact (ih trivial).congr rfl rfl rfl rfl
  | capture_fails _ ih => exact ih trivial
  | done =>
    obtain ⟨b, t, hc, hr, -⟩ := hf
    cases hc
    exact hr
  | ask => exact absurd hf Task.not_fits_ask

/-- What a task starts fits, and is started no earlier in the input than the task. -/
theorem Starts.fits (hn : g.NativesRead) (h : g.Starts τ s τ' s') (hf : τ.Fits s) :
    τ'.Fits s' ∧ s.Reaches s' := by
  cases h with
  | native hid => exact ⟨hn _ _ hid _, .of_offset_eq rfl rfl⟩
  | seq_second h => exact ⟨trivial, h.reaches hn trivial⟩
  | alt_second h => exact ⟨trivial, .of_offset_eq (h.reaches hn trivial).input rfl⟩
  | star => exact ⟨rfl, .of_offset_eq rfl rfl⟩
  | plus_rest h => exact ⟨rfl, (h.reaches hn trivial).congr rfl rfl rfl rfl⟩
  | loop_more h => exact ⟨rfl, h.reaches hn trivial⟩
  | ask => exact absurd hf Task.not_fits_ask
  | resume => exact absurd hf Task.not_fits_ask
  | _ => exact ⟨trivial, .of_offset_eq rfl rfl⟩

end Grammar

/-- Whether what the task is about may succeed without reading anything. A native rule that is over
has read something if it matched. -/
def Task.nullable (g : Grammar) (ends : Bool) : Task → Bool
  | .goal (.expr e) | .node e => e.nullable (g.nullable ends) ends
  | .goal (.rule id) => (g.nullable ends).getD id false
  | .goal (.named name) => (g.find? name).any fun id => (g.nullable ends).getD id false
  | .loop _ _ => true
  | .script _ => false

namespace Grammar

variable {g : Grammar} {τ : Task} {s t : State} {b : Bool} {ends : Bool}

/-- A test that succeeds without reading anything is one for the end of the input. -/
theorem nullable_of_single {e : Expr} {accept : Option Char → Bool} {f : Failure}
    (he : e.single? = some (accept, f)) (h : accept s.reader.current? = true)
    (ho : s.advance.offset = s.offset) (hends : ends = true ∨ s.offset < s.input.size)
    (v : List Bool) : e.nullable v ends = true := by
  have hge : s.input.size ≤ s.offset := by
    refine Nat.le_of_not_lt fun hlt => ?_
    have := s.offset_advance_of_lt hlt
    omega
  have hnone : s.reader.current? = none := Array.getElem?_eq_none hge
  rw [hnone] at h
  cases e <;> simp only [Expr.single?, Option.some.injEq, Prod.mk.injEq, reduceCtorEq] at he <;>
    obtain ⟨rfl, rfl⟩ := he
  case endOfInput => exact hends.resolve_right (Nat.not_lt.mpr hge)
  all_goals simp at h

/-- **Only what is nullable succeeds where it began.** -/
theorem Runs.nullable (hn : g.NativesRead) (h : g.Runs τ s b t) (hf : τ.Fits s) (hb : b = true)
    (ho : t.offset = s.offset) (hends : ends = true ∨ s.offset < s.input.size) :
    τ.nullable g ends = true := by
  induction h with
  | expr_matches _ ih => exact ih hf hb ho hends
  | rule_tree hid _ ih => exact (g.getD_nullable ends hid).trans (ih trivial hb ho hends)
  | rule_native hid _ ih => exact absurd (ih (hn _ _ hid _) hb ho hends) (by simp [Task.nullable])
  | named_known hid _ ih => simpa [Task.nullable, hid] using ih trivial hb ho hends
  | @text_matches x s =>
    have hx : x.length = 0 := by simpa using ho
    simpa [Task.nullable, Expr.nullable] using hx
  | single_matches he h => exact nullable_of_single he h ho hends _
  | empty => rfl
  | @seq_matches a b s t u ha hb' iha ihb =>
    -- neither part has read anything
    have hst := ha.reaches hn trivial
    have htu := hb'.reaches hn trivial
    have hto : t.offset = s.offset := by have := hst.le; have := htu.le; omega
    have hna := iha trivial rfl hto hends
    have hnb := ihb trivial rfl (ho.trans hto.symm) (by rwa [hst.input, hto])
    simp only [Task.nullable, Expr.nullable, Bool.and_eq_true]
    exact ⟨hna, hnb⟩
  | alt_first _ ih =>
    simp only [Task.nullable, Expr.nullable, Bool.or_eq_true]
    exact .inl (ih trivial hb ho hends)
  | alt_second ha _ _ ih =>
    simp only [Task.nullable, Expr.nullable, Bool.or_eq_true]
    refine .inr (ih trivial rfl ho ?_)
    rwa [State.input_moveTo, (ha.reaches hn trivial).input]
  | opt_some => rfl
  | opt_none => rfl
  | star => rfl
  | @plus_matches a s t u ha hl iha _ =>
    -- nor has the first round here
    have hst := ha.reaches hn trivial
    have htu := hl.reaches hn rfl
    have hto : t.offset = s.offset := by
      have := hst.le
      have : t.offset ≤ u.offset := htu.le
      have : u.offset = s.offset := ho
      omega
    exact iha trivial rfl hto hends
  | loop_ends => rfl
  | loop_still => rfl
  | loop_more => rfl
  | ahead_matches => rfl
  | notAhead_matches => rfl
  | call_matches hr _ ih =>
    simp only [Task.nullable, Expr.nullable, hr]
    exact ih trivial hb ho hends
  | capture_matches _ ih => exact ih trivial hb ho hends
  | done =>
    obtain ⟨b, t, hc, -, hlt⟩ := hf
    cases hc
    have := hlt hb
    omega
  | ask => exact absurd hf Task.not_fits_ask
  | _ => exact absurd hb (by decide)

end Grammar

end Peg
