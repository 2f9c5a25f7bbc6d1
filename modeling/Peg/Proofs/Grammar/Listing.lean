import Mathlib.Data.List.Forall2
import Peg.Proofs.Command
import Peg.Proofs.Expr.Twins

/-!
# What a shown grammar says

A grammar is shown rule by rule, a line each: the name, an arrow and the expression. A procedure has no
expression and is shown as `<native>`, which is how the capture of a call of a rule `native` is written
too (`Peg.Definition.shown`). Names are words, so a line can be taken apart, and the lines are read one
after the other (`Peg.Grammar.listing_eq_iff`).

So what is shown says which rules there are and what is read of each of them, and no more
(`Peg.Expr.written_exact`). It does not say whether an option is looked for or the looking is optional,
which is not the same (`Peg.Expr.written_twice`).
-/

namespace Peg

namespace Definition

/-- The expression that a rule is shown as. -/
def shown (d : Definition) : Expr :=
  match d.body with
  | .tree e => e
  | .native _ => .capture (.call { name := "native" })

/-- The rule and those it calls have names that are written as one word. -/
def Named (d : Definition) : Prop := IsWord d.name ∧ ∀ e, d.body = .tree e → e.Named

theorem Named.shown {d : Definition} (h : d.Named) : d.shown.Named := by
  rcases hbody : d.body with e | start
  · simpa [Definition.shown, hbody] using h.2 e hbody
  · have hnative : (Expr.call { name := "native" }).Named :=
      Expr.named_call.mpr ⟨⟨by decide, by simp [isWord]⟩, by decide⟩
    rw [Definition.shown, hbody]
    exact hnative

theorem written_eq (d : Definition) : d.written = d.name ++ " <- " ++ d.shown.written := by
  rcases hbody : d.body with e | start
  · simp only [written, shown, hbody]
  · simp only [written, shown, hbody]
    rfl

/-- The characters of the line that the rule is shown on. -/
def line (d : Definition) : List Char :=
  d.name.toList ++ ' ' :: '<' :: '-' :: ' ' :: (d.shown.chars ++ ['\n'])

theorem toList_line (d : Definition) : (Command.line d.written).toList = d.line := by
  simp [Command.line, written_eq, line, Expr.toList_written]

/-- **A line is read in one way**, whatever comes behind it. -/
theorem line_append_inj {d d' : Definition} {x y : List Char} (hd : d.Named) (hd' : d'.Named)
    (h : d.line ++ x = d'.line ++ y) :
    (d.name = d'.name ∧ d.shown.reading = d'.shown.reading) ∧ x = y := by
  rw [line, line, List.append_assoc, List.append_assoc] at h
  -- a blank is no letter
  obtain ⟨hname, hrest⟩ := Text.append_inj_of_kind hd.1.2 hd'.1.2 (by simp [isWord])
    (by simp [isWord]) h
  have hexpr : d.shown.chars ++ '\n' :: x = d'.shown.chars ++ '\n' :: y := by simpa using hrest
  obtain ⟨hshown, hx⟩ := Expr.chars_append_inj hd.shown hd'.shown (Expr.ends_cons (by decide))
    (Expr.ends_cons (by decide)) hexpr
  exact ⟨⟨String.toList_inj.mp hname, hshown⟩, (List.cons.inj hx).2⟩

end Definition

namespace Grammar

/-- What a command prints that shows the grammar. -/
def listing (g : Grammar) : String :=
  ((Command.parser { showGrammar := true } (.ok g)).run.run "").2

/-- Printing line after line puts the lines behind what was printed before. -/
theorem run_forIn_print (rules : List Definition) (out : String) :
    ∃ out', ((forIn rules PUnit.unit fun d _ => do
        Command.print d.written; pure (.yield PUnit.unit) : Command PUnit).run.run out) =
          (.ok PUnit.unit, out') ∧
      out'.toList = out.toList ++ rules.flatMap Definition.line := by
  induction rules generalizing out with
  | nil => exact ⟨out, rfl, by simp⟩
  | cons d rules ih =>
    rw [List.forIn_cons, List.flatMap_cons, ← List.append_assoc, ← d.toList_line, ← String.toList_append]
    exact ih (out ++ Command.line d.written)

theorem toList_listing (g : Grammar) :
    g.listing.toList = g.rules.flatMap Definition.line ++ ['\n'] := by
  obtain ⟨out, hrun, hout⟩ := run_forIn_print g.rules ""
  have hlisting : g.listing = out ++ Command.line "" := by
    have hsettings : (Command.settings { showGrammar := true }).run.run "" = (.ok {}, "") := rfl
    have hbuilt : (Command.orFail .grammar (.ok g)).run.run "" = (.ok g, "") := rfl
    rw [listing, Command.parser]
    simp only [Command.run_bind, hsettings, hbuilt, if_true, hrun]
    rfl
  rw [hlisting, String.toList_append, hout]
  simp [Command.line]

/-- The rules of the grammar and those they call have names that are written as one word. -/
def Named (g : Grammar) : Prop := ∀ d ∈ g.rules, d.Named

/-- The lines of a listing are read one after the other. -/
theorem lines_inj {rules rules' : List Definition} (h : ∀ d ∈ rules, d.Named)
    (h' : ∀ d ∈ rules', d.Named)
    (heq : rules.flatMap Definition.line ++ ['\n'] = rules'.flatMap Definition.line ++ ['\n']) :
    List.Forall₂ (fun d d' => d.name = d'.name ∧ d.shown.reading = d'.shown.reading)
      rules rules' := by
  -- no rule is shown on an empty line
  have hends {d : Definition} (hd : d.Named) (x : List Char) : d.line ++ x ≠ ['\n'] := by
    rw [Definition.line, List.append_assoc]
    exact hd.1.append_ne_cons (by decide)
  induction rules generalizing rules' with
  | nil =>
    cases rules' with
    | nil => exact .nil
    | cons d' rules' =>
      rw [List.flatMap_cons, List.append_assoc] at heq
      exact absurd heq.symm (hends (List.forall_mem_cons.mp h').1 _)
  | cons d rules ih =>
    obtain ⟨hd, hrules⟩ := List.forall_mem_cons.mp h
    rw [List.flatMap_cons, List.append_assoc] at heq
    cases rules' with
    | nil => exact absurd heq (hends hd _)
    | cons d' rules' =>
      obtain ⟨hd', hrules'⟩ := List.forall_mem_cons.mp h'
      rw [List.flatMap_cons, List.append_assoc] at heq
      obtain ⟨hline, hrest⟩ := Definition.line_append_inj hd hd' heq
      exact .cons hline (ih hrules hrules' hrest)

/-- **Grammars are shown alike exactly when they have rules of the same names, one after the other, and
the same is read of each.** -/
theorem listing_eq_iff {g g' : Grammar} (h : g.Named) (h' : g'.Named) :
    g.listing = g'.listing ↔
      List.Forall₂ (fun d d' => d.name = d'.name ∧ d.shown.reading = d'.shown.reading)
        g.rules g'.rules := by
  rw [← String.toList_inj, toList_listing, toList_listing]
  refine ⟨lines_inj h h', fun hrules => ?_⟩
  have hlines (d d' : Definition) (hd : d.name = d'.name ∧ d.shown.reading = d'.shown.reading) :
      d.line = d'.line := by
    have hshown : d.shown.written = d'.shown.written := by
      rw [← Expr.written_reading, hd.2, Expr.written_reading]
    rw [Definition.line, Definition.line, hd.1, ← Expr.toList_written, hshown, Expr.toList_written]
  have hmap : g.rules.map Definition.line = g'.rules.map Definition.line := by
    rw [← List.forall₂_eq_eq_eq, List.forall₂_map_left_iff, List.forall₂_map_right_iff]
    exact hrules.imp hlines
  rw [List.flatMap_def, List.flatMap_def, hmap]

end Grammar

namespace Expr

/-- **What is written is what is read.** An expression is written like another exactly when the same is
read of them, where a mark behind an expression binds tighter than one in front of it. No other is written
like it, up to where its calls lead, exactly if it has marks on both sides nowhere; and if no option and no
repetition in it is one of looking ahead, no other of this kind is. A grammar that is shown has the rules
that are read line by line. -/
theorem written_exact {a : Expr} (ha : a.Named) :
    (∀ b : Expr, b.Named → (a.written = b.written ↔ a.reading = b.reading)) ∧
    (a.OneSided ↔ ∀ b : Expr, b.Named → a.written = b.written → a.unbound = b.unbound) ∧
    (a.Grouped → ∀ b : Expr, b.Named → b.Grouped →
      (a.written = b.written ↔ a.unbound = b.unbound)) ∧
    ∀ g g' : Grammar, g.Named → g'.Named →
      (g.listing = g'.listing ↔
        List.Forall₂ (fun d d' => d.name = d'.name ∧ d.shown.reading = d'.shown.reading)
          g.rules g'.rules) := by
  refine ⟨fun b => written_eq_iff ha, oneSided_iff ha, fun hga b hb hgb => ?_,
    fun g g' => Grammar.listing_eq_iff⟩
  rw [written_eq_iff ha hb, reading_eq_unbound hga, reading_eq_unbound hgb]

/-- Digits behind a sign that is optional, where the rule called leads somewhere. -/
def signed (id : Option RuleId) : Expr := seq (opt (char '-')) (plus (call { name := "digit", id }))

theorem named_signed (id : Option RuleId) : (signed id).Named := by
  refine named_seq.mpr ⟨by simp [Named, references, nodes], ?_⟩
  exact named_call.mpr ⟨⟨by simp, by simp [isWord]⟩, by simp⟩

theorem written_exact_signed :
    (signed none).Named ∧ (signed none).OneSided ∧
      (signed none).written = (signed (some 1)).written ∧
      (signed none).written ≠ (seq (char '-') (signed none)).written := by
  have hnamed := named_signed none
  have hsided : (signed none).OneSided := by
    simp [OneSided, signed, nodes, marksBefore, marksBehind]
  obtain ⟨hreading, honly, -⟩ := written_exact hnamed
  refine ⟨hnamed, hsided, (hreading _ (named_signed (some 1))).mpr rfl, fun h => ?_⟩
  have hlonger : (seq (char '-') (signed none)).Named :=
    named_seq.mpr ⟨by simp [Named, references, nodes], hnamed⟩
  exact absurd (honly.mp hsided _ hlonger h) (by decide)

/-- Two rules that are shown alike: `a` may look that no `x` comes next, and `b` looks that there is not
even an optional `x`. -/
def twice : Draft where
  rules := [⟨"a", .tree (opt (notAhead (text "x")))⟩, ⟨"b", .tree (notAhead (opt (text "x")))⟩]

/-- **It is not written what an option is one of.** Two expressions are written `!"x"?` that are not the
same, up to where their calls lead or otherwise. A grammar may have both; the one matches whatever comes
next, and the other nothing. A procedure, too, is written like an expression. -/
theorem written_twice :
    let a := opt (notAhead (text "x"))
    let b := notAhead (opt (text "x"))
    (a.Named ∧ b.Named ∧ a.written = b.written ∧ a.unbound ≠ b.unbound) ∧
    twice.build = .ok { rules := twice.rules, root := some 0 } ∧
    (∃ p, (Parser.mk { rules := twice.rules, root := some 0 } {}).parseFrom "a" "" = .ok p ∧
      p.outcome.matched = true) ∧
    (∃ p, (Parser.mk { rules := twice.rules, root := some 0 } {}).parseFrom "b" "" = .ok p ∧
      p.outcome.matched = false) ∧
    ∀ start, (Definition.mk "a" (.native start)).written =
      (Definition.mk "a" (.tree (capture (call { name := "native" })))).written := by
  refine ⟨⟨?_, ?_, rfl, by decide⟩, rfl, ⟨_, rfl, rfl⟩, ⟨_, rfl, rfl⟩, fun _ => rfl⟩
  · simp [Named, references, nodes]
  · simp [Named, references, nodes]

end Expr

end Peg
