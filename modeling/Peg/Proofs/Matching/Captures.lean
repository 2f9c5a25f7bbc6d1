import Peg.Proofs.Matching.Progress
import Peg.Proofs.Matching.Rollback

/-!
# What a match captures

A run that succeeds puts new captures behind those there were, and they are ranges between the offset
where it began and the one where it ended, nested like brackets: of two of them either the earlier one
ends before the later one begins, or the later one was completed around it (`Peg.Nested`). That is the
main statement, `Peg.Grammar.Runs.collects`. What failed on the way has left nothing behind
(`Peg.Grammar.Runs.keeps`), so only the parts that matched count.
-/

namespace Peg

/-- **The ranges lie between the two offsets and are nested**, inner ones and earlier ones first. -/
structure Nested (p q : Nat) (cs : List (Nat × Nat)) : Prop where
  le : p ≤ q
  within : ∀ r ∈ cs, p ≤ r.1 ∧ r.1 ≤ r.2 ∧ r.2 ≤ q
  pairwise : cs.Pairwise fun a b => a.2 ≤ b.1 ∨ (b.1 ≤ a.1 ∧ a.2 ≤ b.2)

namespace Nested

variable {p q r : Nat} {cs ds : List (Nat × Nat)}

theorem nil (h : p ≤ q) : Nested p q [] := ⟨h, by simp, .nil⟩

/-- Ranges up to an offset are disjoint from ranges from it on. -/
theorem append (h : Nested p q cs) (h' : Nested q r ds) : Nested p r (cs ++ ds) where
  le := Nat.le_trans h.le h'.le
  within c hc := by
    have hpq := h.le
    have hqr := h'.le
    rcases List.mem_append.mp hc with hc | hc
    · have := h.within c hc
      omega
    · have := h'.within c hc
      omega
  pairwise := by
    refine List.pairwise_append.mpr ⟨h.pairwise, h'.pairwise, fun a ha b hb => .inl ?_⟩
    have := h.within a ha
    have := h'.within b hb
    omega

/-- The range around all others is completed after them. -/
theorem around (h : Nested p q cs) : Nested p q (cs ++ [(p, q)]) where
  le := h.le
  within c hc := by
    rcases List.mem_append.mp hc with hc | hc
    · exact h.within c hc
    · obtain rfl := List.mem_singleton.mp hc
      exact ⟨Nat.le_refl _, h.le, Nat.le_refl _⟩
  pairwise := by
    refine List.pairwise_append.mpr ⟨h.pairwise, List.pairwise_singleton _ _, fun a ha b hb => ?_⟩
    obtain rfl := List.mem_singleton.mp hb
    have := h.within a ha
    exact .inr ⟨this.1, this.2.2⟩

end Nested

/-- The second state has more captures than the first, nested ones between the two offsets. -/
def State.Collects (s t : State) : Prop :=
  ∃ cs, t.captures.toList = s.captures.toList ++ cs.map (fun r => Capture.ofRange r.1 r.2) ∧
    Nested s.offset t.offset cs

namespace State

variable {s t u : State}

theorem Collects.of_captures_eq (hc : t.captures = s.captures) (ho : s.offset ≤ t.offset) :
    s.Collects t :=
  ⟨[], by simp [hc], .nil ho⟩

theorem Collects.trans (h : s.Collects t) (h' : t.Collects u) : s.Collects u := by
  obtain ⟨cs, hcs, hn⟩ := h
  obtain ⟨ds, hds, hn'⟩ := h'
  exact ⟨cs ++ ds, by rw [hds, hcs, List.map_append, List.append_assoc], hn.append hn'⟩

/-- Only the offset and the captures count. -/
theorem Collects.congr {s' t' : State} (h : s.Collects t) (hs : s'.captures = s.captures)
    (hso : s'.offset = s.offset) (ht : t'.captures = t.captures) (hto : t'.offset = t.offset) :
    s'.Collects t' := by
  obtain ⟨cs, hcs, hn⟩ := h
  exact ⟨cs, by rw [ht, hs, hcs], by rwa [hso, hto]⟩

/-- Behind what was captured comes the range of all of it. -/
theorem Collects.push (h : s.Collects t) :
    s.Collects (t.push (Capture.ofRange s.offset t.offset)) := by
  obtain ⟨cs, hcs, hn⟩ := h
  exact ⟨cs ++ [(s.offset, t.offset)], by simp [hcs], hn.around⟩

end State

namespace Grammar

variable {g : Grammar} {τ : Task} {s t : State}

/-- **What a match captures are nested ranges** between the offset where it began and the one where it
ended. -/
theorem Runs.collects (hg : g.AllTrees) (h : g.Runs τ s true t) (hf : τ.Fits s)
    (hτ : ∀ c, τ ≠ .script c) : s.Collects t := by
  have hn := hg.nativesRead
  have hspare := hg.nativesSpare
  generalize hb : true = b at h
  -- the offsets go forwards, so whoever goes on captures behind what was captured before
  induction h with
  | expr_matches _ ih => exact ih hf nofun hb
  | rule_tree _ _ ih => exact (ih trivial nofun hb).congr rfl rfl rfl rfl
  | rule_native hid => exact absurd hid hg.body_ne_native
  | named_known _ _ ih => exact ih trivial nofun hb
  | text_matches => exact .of_captures_eq rfl (Nat.le_add_right _ _)
  | single_matches => exact .of_captures_eq rfl (State.Reaches.advance _).le
  | empty => exact .of_captures_eq rfl (Nat.le_refl _)
  | seq_matches _ _ iha ihb => exact (iha trivial nofun rfl).trans (ihb trivial nofun rfl)
  | alt_first _ ih => exact ih trivial nofun hb
  | alt_second ha _ _ ihb => exact (ihb trivial nofun rfl).congr (ha.keeps hspare).symm rfl rfl rfl
  | opt_some _ ih => exact ih trivial nofun hb
  | opt_none ha => exact .of_captures_eq (ha.keeps hspare) (Nat.le_refl _)
  | star _ ih => exact (ih rfl nofun rfl).congr rfl rfl rfl rfl
  | plus_matches _ _ iha ihl =>
    exact (iha trivial nofun rfl).trans ((ihl rfl nofun rfl).congr rfl rfl rfl rfl)
  | loop_ends ha => exact .of_captures_eq (ha.keeps hspare) (Nat.le_of_eq hf)
  | loop_still _ _ ih => exact ih trivial nofun hb
  | loop_more _ _ _ iha ihl => exact (iha trivial nofun rfl).trans (ihl rfl nofun rfl)
  | ahead_matches ha =>
    exact .of_captures_eq (State.captures_restore_of_isPrefix (ha.keeps hspare).isPrefix)
      (Nat.le_refl _)
  | notAhead_matches ha =>
    exact .of_captures_eq (State.captures_restore_of_isPrefix (ha.keeps hspare).isPrefix)
      (Nat.le_refl _)
  | call_matches _ _ ih => exact ih trivial nofun hb
  | capture_matches _ ih => exact (ih trivial nofun rfl).push
  | done => exact absurd rfl (hτ _)
  | ask => exact absurd rfl (hτ _)
  | _ => cases hb

end Grammar

end Peg
