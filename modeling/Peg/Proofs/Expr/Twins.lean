import Peg.Proofs.Expr.Reading
import Peg.Proofs.Grammar.Binding
import Peg.Proofs.Grammar.Build

/-!
# Expressions that are written alike

What is read where an expression is written need not be the expression, and where it is, another one may
be written like it. It is the expression, up to where the calls lead, if no option and no repetition in it
is one of looking ahead (`Peg.Expr.reading_eq_unbound`). And no other is written like it exactly if marks
stand on one side only, of whatever they stand at (`Peg.Expr.oneSided_iff`): what is read with marks on one
side only can only have been written so (`Peg.Expr.OneSided.reading_eq`), and of two marks on different
sides it is not written which was put on first (`Peg.Expr.hasTwin_of_marks`).
-/

namespace Peg

namespace Expr

variable {a b e : Expr}

/-! ### Expressions that are read as they are -/

/-- The expression with calls that lead nowhere. -/
def unbound (e : Expr) : Expr := e.bind fun _ => none

/-- Whether the expression is one that looks ahead. -/
def looksAhead : Expr → Bool
  | ahead _ | notAhead _ => true
  | _ => false

/-- Whether the expression is an option or a repetition of one that looks ahead. -/
def repeatsAhead : Expr → Bool
  | opt a | star a | plus a => a.looksAhead
  | _ => false

/-- **No option and no repetition in the expression is one of looking ahead.** -/
def Grouped (e : Expr) : Prop := ∀ n ∈ e.nodes, n.repeatsAhead = false

theorem inside_eq {f : Expr → Expr} (h : a.looksAhead = false) : a.inside f = f a := by
  cases a with
  | ahead a | notAhead a => cases h
  | _ => rfl

theorem looksAhead_unbound (e : Expr) : e.unbound.looksAhead = e.looksAhead := by
  cases e <;> rfl

/-- **A grouped expression is read as it is**, with calls that lead nowhere. -/
theorem reading_eq_unbound (h : e.Grouped) : e.reading = e.unbound := by
  -- a mark is put behind what does not look ahead
  have hmark {f : Expr → Expr} {a : Expr} (htop : a.looksAhead = false)
      (ih : a.reading = a.unbound) : a.reading.inside f = f a.unbound := by
    rw [ih, inside_eq (a.looksAhead_unbound.trans htop)]
  induction e with
  | seq a b iha ihb =>
    obtain ⟨ha, hb⟩ := List.forall_mem_append.mp (List.forall_mem_cons.mp h).2
    exact congrArg₂ seq (iha ha) (ihb hb)
  | alt a b iha ihb =>
    obtain ⟨ha, hb⟩ := List.forall_mem_append.mp (List.forall_mem_cons.mp h).2
    exact congrArg₂ alt (iha ha) (ihb hb)
  | opt a ih =>
    obtain ⟨htop, ha⟩ := List.forall_mem_cons.mp h
    exact hmark htop (ih ha)
  | star a ih =>
    obtain ⟨htop, ha⟩ := List.forall_mem_cons.mp h
    exact hmark htop (ih ha)
  | plus a ih =>
    obtain ⟨htop, ha⟩ := List.forall_mem_cons.mp h
    exact hmark htop (ih ha)
  | ahead a ih => exact congrArg ahead (ih (List.forall_mem_cons.mp h).2)
  | notAhead a ih => exact congrArg notAhead (ih (List.forall_mem_cons.mp h).2)
  | capture a ih => exact congrArg capture (ih (List.forall_mem_cons.mp h).2)
  | _ => rfl

/-! ### Expressions that are written in one way -/

/-- **Nothing in the expression has marks on both sides.** -/
def OneSided (e : Expr) : Prop := ∀ n ∈ e.nodes, n.marksBefore = [] ∨ n.marksBehind = []

theorem marksBefore_unbound (e : Expr) : e.unbound.marksBefore = e.marksBefore := by
  induction e with
  | opt a ih => exact ih
  | star a ih => exact ih
  | plus a ih => exact ih
  | ahead a ih => exact congrArg ('&' :: ·) ih
  | notAhead a ih => exact congrArg ('!' :: ·) ih
  | _ => rfl

theorem marksBehind_unbound (e : Expr) : e.unbound.marksBehind = e.marksBehind := by
  induction e with
  | opt a ih => exact congrArg (· ++ ['?']) ih
  | star a ih => exact congrArg (· ++ ['*']) ih
  | plus a ih => exact congrArg (· ++ ['+']) ih
  | ahead a ih => exact ih
  | notAhead a ih => exact ih
  | _ => rfl

theorem OneSided.unbound (h : e.OneSided) : e.unbound.OneSided := by
  intro n hn
  rw [Expr.unbound, nodes_bind, List.mem_map] at hn
  obtain ⟨n, hn, rfl⟩ := hn
  have hsides := h n hn
  rwa [← n.marksBefore_unbound, ← n.marksBehind_unbound] at hsides

/-- Where no marks stand on both sides, no option and no repetition is one of looking ahead. -/
theorem OneSided.grouped (h : e.OneSided) : e.Grouped := by
  intro n hn
  have hsides := h n hn
  cases n with
  | opt a | star a | plus a =>
    cases a with
    | ahead a | notAhead a => simp [marksBefore, marksBehind] at hsides
    | _ => rfl
  | _ => rfl

section Behind

variable {f : Expr → Expr} {mark : Char} (hf : ∀ a, (f a).marksBehind = a.marksBehind ++ [mark])
include hf

theorem marksBehind_inside (e : Expr) : (e.inside f).marksBehind = e.marksBehind ++ [mark] := by
  induction e with
  | ahead a ih => exact ih
  | notAhead a ih => exact ih
  | _ => exact hf _

/-- A mark behind what looks ahead makes two sides. -/
theorem OneSided.looksAhead_eq_false (h : (e.inside f).OneSided) : e.looksAhead = false := by
  cases e with
  | ahead a =>
    have hsides := h (ahead (a.inside f)) List.mem_cons_self
    simp [marksBefore, marksBehind, marksBehind_inside hf] at hsides
  | notAhead a =>
    have hsides := h (notAhead (a.inside f)) List.mem_cons_self
    simp [marksBefore, marksBehind, marksBehind_inside hf] at hsides
  | _ => rfl

end Behind

/-- **What is read with marks on one side only was written so.** -/
theorem OneSided.reading_eq (h : e.reading.OneSided) : e.reading = e.unbound := by
  -- a mark behind it was put behind what does not look ahead
  have hmark {f : Expr → Expr} {mark : Char} {a : Expr}
      (hf : ∀ a, (f a).marksBehind = a.marksBehind ++ [mark])
      (hnodes : ∀ a, (f a).nodes = f a :: a.nodes) (h : (a.reading.inside f).OneSided)
      (ih : a.reading.OneSided → a.reading = a.unbound) : a.reading.inside f = f a.unbound := by
    have hinside := inside_eq (f := f) (h.looksAhead_eq_false hf)
    rw [hinside] at h ⊢
    rw [ih fun n hn => h n (hnodes a.reading ▸ List.mem_cons_of_mem _ hn)]
  induction e with
  | seq a b iha ihb =>
    obtain ⟨ha, hb⟩ := List.forall_mem_append.mp (List.forall_mem_cons.mp h).2
    exact congrArg₂ seq (iha ha) (ihb hb)
  | alt a b iha ihb =>
    obtain ⟨ha, hb⟩ := List.forall_mem_append.mp (List.forall_mem_cons.mp h).2
    exact congrArg₂ alt (iha ha) (ihb hb)
  | opt a ih => exact hmark (fun _ => rfl) (fun _ => rfl) h ih
  | star a ih => exact hmark (fun _ => rfl) (fun _ => rfl) h ih
  | plus a ih => exact hmark (fun _ => rfl) (fun _ => rfl) h ih
  | ahead a ih => exact congrArg ahead (ih (List.forall_mem_cons.mp h).2)
  | notAhead a ih => exact congrArg notAhead (ih (List.forall_mem_cons.mp h).2)
  | capture a ih => exact congrArg capture (ih (List.forall_mem_cons.mp h).2)
  | _ => rfl

/-- Another expression is written like this one. -/
def HasTwin (a : Expr) : Prop :=
  ∃ b : Expr, b.references = a.references ∧ b.written = a.written ∧ b.unbound ≠ a.unbound

namespace HasTwin

theorem marked (mark : Char) (h : a.HasTwin) : (a.marked mark).HasTwin := by
  obtain ⟨b, hreferences, hwritten, hne⟩ := h
  refine ⟨b.marked mark, ?_, ?_, ?_⟩
  · unfold Expr.marked
    split <;> exact hreferences
  · unfold Expr.marked
    split <;> simp [written, hwritten]
  · unfold Expr.marked
    split <;> simpa [Expr.unbound, bind] using hne

theorem capture (h : a.HasTwin) : (capture a).HasTwin := by
  obtain ⟨b, hreferences, hwritten, hne⟩ := h
  exact ⟨.capture b, hreferences, by rw [written, hwritten, written],
    fun heq => hne (Expr.capture.inj heq)⟩

theorem seq (h : a.HasTwin ∨ b.HasTwin) : (seq a b).HasTwin := by
  rcases h with ⟨a', hreferences, hwritten, hne⟩ | ⟨b', hreferences, hwritten, hne⟩
  · exact ⟨.seq a' b, by rw [references_seq, references_seq, hreferences],
      by rw [written, written, hwritten], fun heq => hne (Expr.seq.inj heq).1⟩
  · exact ⟨.seq a b', by rw [references_seq, references_seq, hreferences],
      by rw [written, written, hwritten], fun heq => hne (Expr.seq.inj heq).2⟩

theorem alt (h : a.HasTwin ∨ b.HasTwin) : (alt a b).HasTwin := by
  rcases h with ⟨a', hreferences, hwritten, hne⟩ | ⟨b', hreferences, hwritten, hne⟩
  · exact ⟨.alt a' b, by rw [references_alt, references_alt, hreferences],
      by rw [written, written, hwritten], fun heq => hne (Expr.alt.inj heq).1⟩
  · exact ⟨.alt a b', by rw [references_alt, references_alt, hreferences],
      by rw [written, written, hwritten], fun heq => hne (Expr.alt.inj heq).2⟩

end HasTwin

/-- Of two marks on different sides it is not written which one was put on first. -/
theorem hasTwin_of_marks {front behind : Char} (hfront : front ∈ ['&', '!'])
    (hbehind : behind ∈ ['?', '*', '+']) (c : Expr) :
    ((c.marked front).marked behind).HasTwin ∧ ((c.marked behind).marked front).HasTwin := by
  suffices ((c.marked front).marked behind).references = ((c.marked behind).marked front).references ∧
      ((c.marked front).marked behind).written = ((c.marked behind).marked front).written ∧
      ((c.marked front).marked behind).unbound ≠ ((c.marked behind).marked front).unbound from
    ⟨⟨_, this.1.symm, this.2.1.symm, this.2.2.symm⟩, ⟨_, this⟩⟩
  simp only [List.mem_cons, List.not_mem_nil, or_false] at hfront hbehind
  rcases hfront with rfl | rfl <;> rcases hbehind with rfl | rfl | rfl <;>
    exact ⟨rfl, by simp [marked, written, String.append_assoc], by simp [marked, unbound, bind]⟩

/-- What has marks in front of it and none behind looks ahead. -/
theorem exists_front (h : a.marksBefore ≠ []) (h' : a.marksBehind = []) :
    ∃ front ∈ ['&', '!'], ∃ c : Expr, a = c.marked front := by
  cases a with
  | ahead c => exact ⟨'&', by simp, c, rfl⟩
  | notAhead c => exact ⟨'!', by simp, c, rfl⟩
  | opt c | star c | plus c => simp [marksBehind] at h'
  | _ => exact absurd rfl h

/-- What has marks behind it and none in front is an option or a repetition. -/
theorem exists_behind (h : a.marksBehind ≠ []) (h' : a.marksBefore = []) :
    ∃ behind ∈ ['?', '*', '+'], ∃ c : Expr, a = c.marked behind := by
  cases a with
  | opt c => exact ⟨'?', by simp, c, rfl⟩
  | star c => exact ⟨'*', by simp, c, rfl⟩
  | plus c => exact ⟨'+', by simp, c, rfl⟩
  | ahead c | notAhead c => simp [marksBefore] at h'
  | _ => exact absurd rfl h

theorem OneSided.marked_behind {behind : Char} (ha : a.OneSided) (h : a.marksBefore = [])
    (hbehind : behind ∈ ['?', '*', '+']) : (a.marked behind).OneSided := by
  simp only [List.mem_cons, List.not_mem_nil, or_false] at hbehind
  rcases hbehind with rfl | rfl | rfl <;> exact List.forall_mem_cons.mpr ⟨.inl h, ha⟩

theorem OneSided.marked_front {front : Char} (ha : a.OneSided) (h : a.marksBehind = [])
    (hfront : front ∈ ['&', '!']) : (a.marked front).OneSided := by
  simp only [List.mem_cons, List.not_mem_nil, or_false] at hfront
  rcases hfront with rfl | rfl <;> exact List.forall_mem_cons.mpr ⟨.inr h, ha⟩

/-- A mark is the second of two on different sides, or what it is put on has a twin. -/
theorem hasTwin_marked_behind {behind : Char} (hbehind : behind ∈ ['?', '*', '+'])
    (ih : ¬a.OneSided → a.HasTwin) (h : ¬(a.marked behind).OneSided) : (a.marked behind).HasTwin := by
  by_cases ha : a.OneSided
  · have hbefore : a.marksBefore ≠ [] := fun hnil => h (ha.marked_behind hnil hbehind)
    have hnone : a.marksBehind = [] := (ha a a.mem_nodes_self).resolve_left hbefore
    obtain ⟨front, hfront, c, rfl⟩ := exists_front hbefore hnone
    exact (hasTwin_of_marks hfront hbehind c).1
  · exact (ih ha).marked behind

theorem hasTwin_marked_front {front : Char} (hfront : front ∈ ['&', '!'])
    (ih : ¬a.OneSided → a.HasTwin) (h : ¬(a.marked front).OneSided) : (a.marked front).HasTwin := by
  by_cases ha : a.OneSided
  · have hsome : a.marksBehind ≠ [] := fun hnil => h (ha.marked_front hnil hfront)
    have hnone : a.marksBefore = [] := (ha a a.mem_nodes_self).resolve_right hsome
    obtain ⟨behind, hbehind, c, rfl⟩ := exists_behind hsome hnone
    exact (hasTwin_of_marks hfront hbehind c).2
  · exact (ih ha).marked front

/-- **What has marks on both sides has a twin.** -/
theorem hasTwin_of_not_oneSided (h : ¬e.OneSided) : e.HasTwin := by
  induction e with
  | seq a b iha ihb =>
    refine .seq (or_iff_not_imp_left.mpr fun ha => ihb fun hb => ?_)
    have ha : a.OneSided := of_not_not (mt iha ha)
    exact h (List.forall_mem_cons.mpr ⟨.inl rfl, List.forall_mem_append.mpr ⟨ha, hb⟩⟩)
  | alt a b iha ihb =>
    refine .alt (or_iff_not_imp_left.mpr fun ha => ihb fun hb => ?_)
    have ha : a.OneSided := of_not_not (mt iha ha)
    exact h (List.forall_mem_cons.mpr ⟨.inl rfl, List.forall_mem_append.mpr ⟨ha, hb⟩⟩)
  | opt a ih => exact hasTwin_marked_behind (by simp : '?' ∈ ['?', '*', '+']) ih h
  | star a ih => exact hasTwin_marked_behind (by simp : '*' ∈ ['?', '*', '+']) ih h
  | plus a ih => exact hasTwin_marked_behind (by simp : '+' ∈ ['?', '*', '+']) ih h
  | ahead a ih => exact hasTwin_marked_front (by simp : '&' ∈ ['&', '!']) ih h
  | notAhead a ih => exact hasTwin_marked_front (by simp : '!' ∈ ['&', '!']) ih h
  | capture a ih =>
    exact .capture (ih fun ha => h (List.forall_mem_cons.mpr ⟨.inl rfl, ha⟩))
  | _ => exact absurd (List.forall_mem_singleton.mpr (.inl rfl)) h

/-- **An expression is written in one way exactly if it has no marks on both sides anywhere**, up to
where its calls lead. -/
theorem oneSided_iff (ha : a.Named) :
    a.OneSided ↔ ∀ b : Expr, b.Named → a.written = b.written → a.unbound = b.unbound := by
  constructor
  · intro h b hb heq
    have hreading : a.unbound = b.reading :=
      (reading_eq_unbound h.grouped).symm.trans ((written_eq_iff ha hb).mp heq)
    have hsided : b.reading.OneSided := hreading ▸ h.unbound
    rw [hreading, hsided.reading_eq]
  · intro h
    by_contra hsides
    obtain ⟨b, hreferences, hwritten, hne⟩ := hasTwin_of_not_oneSided hsides
    have hb : b.Named := fun r hr => ha r (hreferences ▸ hr)
    exact hne (h b hb hwritten.symm).symm

end Expr

end Peg
