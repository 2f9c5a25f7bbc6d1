import Peg.Command.Basic

/-!
# How commands may end

A command answers or fails, and prints on the way. `Peg.Command.Always` says that it ends in a certain
way whatever has been printed before, and is proved of a command along the way in which it is put
together.
-/

namespace Peg.Command

variable {α β : Type} {c : Command α} {Q : Except CommandError α → Prop}

/-- Whatever has been printed, the command answers or fails in such a way. -/
def Always (c : Command α) (Q : Except CommandError α → Prop) : Prop := ∀ out, Q (c.run.run out).1

theorem Always.mono {Q' : Except CommandError α → Prop} (h : c.Always Q) (hQ : ∀ r, Q r → Q' r) :
    c.Always Q' :=
  fun out => hQ _ (h out)

theorem always_pure {a : α} (h : Q (.ok a)) : Always (pure a) Q := fun _ => h

/-- One command after another: the second begins with the answer of the first and prints behind it. -/
theorem run_bind (f : α → Command β) (out : String) :
    (c >>= f).run.run out =
      match c.run.run out with
      | (.ok a, out') => (f a).run.run out'
      | (.error e, out') => (.error e, out') := by
  simp only [ExceptT.run_bind, StateT.run_bind]
  rcases c.run.run out with ⟨_ | _, _⟩ <;> rfl

theorem always_bind {f : α → Command β} {Q : Except CommandError β → Prop}
    (h : c.Always fun
      | .ok a => (f a).Always Q
      | .error e => Q (.error e)) : Always (c >>= f) Q := by
  intro out
  have hc := h out
  rw [run_bind]
  rcases hr : c.run.run out with ⟨e | a, out'⟩
  · rwa [hr] at hc
  · rw [hr] at hc
    exact hc out'

theorem always_print (text : String) : (print text).Always (· = .ok ()) := fun _ => rfl

theorem always_orFail {ε : Type} {wrap : ε → CommandError} {x : Except ε α} :
    (orFail wrap x).Always fun r =>
      (∃ a, x = .ok a ∧ r = .ok a) ∨ ∃ e, x = .error e ∧ r = .error (wrap e) := by
  intro out
  cases x with
  | ok a => exact .inl ⟨a, rfl, rfl⟩
  | error e => exact .inr ⟨e, rfl, rfl⟩

/-- Printing line after line does not fail. -/
theorem always_forIn {γ : Type} (items : List γ) (write : γ → String) :
    Always (forIn items PUnit.unit fun x _ => do print (write x); pure (.yield PUnit.unit))
      (· = .ok PUnit.unit) := by
  induction items with
  | nil => exact always_pure rfl
  | cons x items ih =>
    rw [List.forIn_cons]
    have hround : Always (do print (write x); pure (ForInStep.yield PUnit.unit))
        (· = .ok (.yield ())) := by
      refine always_bind ((always_print _).mono ?_)
      rintro _ rfl
      exact always_pure rfl
    refine always_bind (hround.mono ?_)
    rintro _ rfl
    exact ih

/-- Only a file with settings that cannot be used makes the settings fail. -/
theorem always_settings (o : Options) : (settings o).Always fun
    | .ok _ => True
    | .error e =>
      ∃ path, (∃ reason, e = .unreadable path reason) ∨ ∃ reason, e = .malformed path reason := by
  unfold settings
  split
  · exact always_pure trivial
  · rename_i path source _
    refine always_bind (always_orFail.mono ?_)
    rintro _ (⟨text, -, rfl⟩ | ⟨e, -, rfl⟩)
    · refine always_orFail.mono ?_
      rintro _ (⟨settings, -, rfl⟩ | ⟨e, -, rfl⟩)
      · trivial
      · exact ⟨path, .inr ⟨e, rfl⟩⟩
    · exact ⟨path, .inl ⟨e, rfl⟩⟩

/-- The parser that a command works with has the grammar that was built. -/
theorem always_parser_grammar (o : Options) (built : Except Defect Grammar) : (parser o built).Always fun
    | .ok p => built = .ok p.grammar
    | .error e => e ≠ .noExpression := by
  unfold parser
  refine always_bind ((always_settings o).mono ?_)
  rintro (e | settings) h
  · rintro rfl
    obtain ⟨path, ⟨reason, h⟩ | ⟨reason, h⟩⟩ := h <;> cases h
  · refine always_bind (always_orFail.mono ?_)
    rintro _ (⟨grammar, rfl, rfl⟩ | ⟨d, -, rfl⟩)
    · dsimp only
      split
      · refine always_bind ((always_forIn _ _).mono ?_)
        rintro _ rfl
        refine always_bind ((always_print _).mono ?_)
        rintro _ rfl
        exact always_pure rfl
      · exact always_pure rfl
    · exact nofun

/-- What is printed in the end does not fail. -/
theorem always_finish (o : Options) (r : Reader) (outcome : Outcome) (summary : Option String) :
    (finish o r outcome summary).Always (· = .ok outcome.matched) := by
  unfold finish
  split
  · refine always_bind ((always_print _).mono ?_)
    rintro _ rfl
    exact always_pure rfl
  · refine always_bind ((always_forIn _ id).mono ?_)
    rintro _ rfl
    exact always_pure rfl

end Peg.Command
