import Peg.Proofs.Grammar.Basic
import Peg.Proofs.Language.Outlook

/-!
# Decisions by the next character

An ordered choice takes the first alternative that works and a repetition takes as much as it can.
Neither is a loss where the next character alone decides: it tells which alternative it has to be,
and whether there is another round. This file makes that precise, in a way that can be computed
(`Peg.Expr.decided`), and shows that an expression decided in this way matches every word that it
spells (`Peg.derives_of_spells`).

`Peg.Expr.predict` says what may come next where an expression begins, given what may come after it.
For the rules it calls it looks a number of calls ahead (`Peg.Outlook.ofRule`), and expects anything
beyond. What may come after each rule is a table that is checked wherever the rule is called.

A choice that has come to its second alternative has seen the first one fail. To know that it does
fail there, and does not go on without end, is what the hypothesis `total` is for: every expression
has some verdict everywhere. A match would be a spelling, and there is none that begins with this
character.
-/

namespace Peg

namespace Expr

/-- What may come next where the expression begins, if `F` may come after it. -/
def predict (look : RuleId → Outlook → Outlook) : Expr → Outlook → Outlook
  | seq a b, F => a.predict look (b.predict look F)
  | alt a b, F => (a.predict look F).union (b.predict look F)
  | text x, F =>
    match x.toList with
    | [] => F
    | c :: _ => .range c c
  | char c, _ => .range c c
  | endOfInput, _ => { ends := true }
  | range first last, _ => .range first last
  | any, _ => .characters
  | opt a, F => F.union (a.predict look F)
  | star a, F => F.union (a.predict look .everything)
  | plus a, _ => a.predict look .everything
  | ahead _, F => F
  | notAhead a, F => F.except a
  | call r, F => (r.id.map (look · F)).getD {}
  | capture a, F => a.predict look F
  | empty, F => F

/-- One character of a class, put together from characters and ranges. -/
def isClass : Expr → Bool
  | char _ | range _ _ | any => true
  | alt a b => a.isClass && b.isClass
  | seq _ _ | text _ | endOfInput | opt _ | star _ | plus _ | ahead _ | notAhead _ | call _
  | capture _ | empty => false

/-- **The next character decides** among the alternatives and about the repetitions, if `F` may come
after the expression. -/
def decided (look : RuleId → Outlook → Outlook) (follow : RuleId → Outlook) :
    Expr → Outlook → Bool
  | seq a b, F => a.decided look follow (b.predict look F) && b.decided look follow F
  | alt a b, F => a.decided look follow F && b.decided look follow F &&
      (a.predict look .everything).apart (b.predict look F)
  | opt a, F => a.decided look follow F && (a.predict look .everything).apart F
  | star a, F | plus a, F =>
      a.decided look follow (F.union (a.predict look .everything)) &&
        (a.predict look .everything).apart F
  | ahead a, _ => a.decided look follow .everything
  | notAhead a, _ => a.isClass
  | call r, F => r.id.all fun id => F.within (follow id)
  | capture a, F => a.decided look follow F
  | text _, _ | char _, _ | endOfInput, _ | range _ _, _ | any, _ | empty, _ => true

end Expr

/-- What may come next where a rule begins, as far as can be told by looking `n` calls ahead. -/
def Outlook.ofRule (rules : RuleId → Option Meaning) : Nat → RuleId → Outlook → Outlook
  | 0, _, _ => .everything
  | n + 1, id, F =>
    match rules id with
    | some (.tree e) => e.predict (ofRule rules n) F
    | _ => .everything

variable {g : Grammar} {rules : RuleId → Option Meaning} {follow : RuleId → Outlook}
  {input : Array Char} {e a : Expr} {n p : Nat} {w r : List Char} {F : Outlook}

/-- Where a spelling begins, its first character was predicted. -/
theorem Spells.predict (h : Spells rules e w r) (hF : F.Has r.head?) :
    (e.predict (.ofRule rules n) F).Has (w ++ r).head? := by
  induction h generalizing F n with
  | empty => exact hF
  | @text x r =>
    rw [Expr.predict]
    split
    · rename_i hx
      rwa [hx, List.nil_append]
    · rename_i c cs hx
      rw [hx]
      exact Outlook.has_range ⟨Char.le_refl c, Char.le_refl c⟩
  | @char c => exact Outlook.has_range ⟨Char.le_refl c, Char.le_refl c⟩
  | range h => exact Outlook.has_range h
  | any => exact Outlook.has_characters _
  | endOfInput => rfl
  | seq _ _ iha ihb =>
    rw [List.append_assoc]
    exact iha (ihb hF)
  | alt_left _ ih => exact Outlook.has_union.mpr (.inl (ih hF))
  | alt_right _ ih => exact Outlook.has_union.mpr (.inr (ih hF))
  | opt_nil => exact Outlook.has_union.mpr (.inl hF)
  | opt _ ih => exact Outlook.has_union.mpr (.inr (ih hF))
  | star_nil => exact Outlook.has_union.mpr (.inl hF)
  | star_cons _ _ _ iha _ =>
    rw [List.append_assoc]
    exact Outlook.has_union.mpr (.inr (iha (Outlook.has_everything _)))
  | plus _ _ iha _ =>
    rw [List.append_assoc]
    exact iha (Outlook.has_everything _)
  | ahead => exact hF
  | notAhead h => exact Outlook.has_except hF h
  | call_tree hr hid _ ih =>
    rw [Expr.predict, hr, Option.map_some, Option.getD_some]
    cases n with
    | zero =>
      -- too far down to tell
      exact Outlook.has_everything _
    | succ n =>
      rw [Outlook.ofRule, hid]
      exact ih hF
  | call_one hr hid _ =>
    rw [Expr.predict, hr, Option.map_some, Option.getD_some]
    cases n with
    | zero => exact Outlook.has_everything _
    | succ n =>
      rw [Outlook.ofRule, hid]
      exact Outlook.has_everything _
  | capture _ ih => exact ih hF

/-- A class fails where the next character is not accepted. -/
theorem Expr.fails_of_isClass (ha : a.isClass = true)
    (h : ∀ c, input[p]? = some c → a.accepts c = false) : Derives rules input a p .fails := by
  induction a with
  | char c =>
    refine .char_fails fun hc => ?_
    simpa [accepts] using h c hc
  | range first last => exact .range_fails fun c hc => by simpa [accepts] using h c hc
  | any =>
    refine .any_fails (Nat.le_of_not_lt fun hp => ?_)
    simpa [accepts] using h _ (Array.getElem?_eq_getElem hp)
  | alt a b iha ihb =>
    obtain ⟨ha, hb⟩ : a.isClass = true ∧ b.isClass = true := by simpa [isClass] using ha
    have h' (c : Char) (hc : input[p]? = some c) : a.accepts c = false ∧ b.accepts c = false := by
      simpa [accepts] using h c hc
    exact .alt_second (iha ha fun c hc => (h' c hc).1) (ihb hb fun c hc => (h' c hc).2)
  | _ => simp [isClass] at ha

section Complete

variable (hrules : ReadsOne rules) (hg : ∀ id e, rules id = some (.tree e) → g.Binds e)
  (total : ∀ e p, g.Binds e → ∃ v, Derives rules input e p v)
  (hd : ∀ id e, rules id = some (.tree e) → e.decided (.ofRule rules n) follow (follow id) = true)

include hrules total

/-- An expression fails where what comes next is apart from what it may begin with. -/
theorem fails_of_apart (ha : g.Binds a)
    (h : (a.predict (.ofRule rules n) .everything).apart F = true)
    (hF : F.Has (input.toList.drop p).head?) : Derives rules input a p .fails := by
  obtain ⟨_ | ⟨q, cs⟩, hv⟩ := total a p ha
  · exact hv
  · -- a match would be a spelling that begins with what comes next
    obtain ⟨w, hw, hs⟩ := hv.spells hrules
    have hfirst := hs.predict (n := n) (Outlook.has_everything _)
    rw [← hw.2] at hfirst
    exact absurd hF (Outlook.not_has_of_apart h hfirst)

include hg hd

/-- **An expression that is decided by the next character matches every word it spells**, as long as
what comes after it is what may come after it. -/
theorem derives_of_spells (h : Spells rules e w r)
    (he : e.decided (.ofRule rules n) follow F = true) (hF : F.Has r.head?) (hb : g.Binds e)
    (hp : input.toList.drop p = w ++ r) :
    ∃ cs, Derives rules input e p (.matches (p + w.length) cs) := by
  induction h generalizing F p with
  | empty => exact ⟨[], .empty⟩
  | @text x r =>
    rw [String.length_toList]
    exact ⟨[], .text_matches ⟨r, hp.symm⟩⟩
  | char => exact ⟨[], .char_matches (getElem?_of_drop hp)⟩
  | range h => exact ⟨[], .range_matches (getElem?_of_drop hp) h⟩
  | any => exact ⟨[], .any_matches (Array.getElem?_eq_some_iff.mp (getElem?_of_drop hp)).1⟩
  | endOfInput => exact ⟨[], .end_matches (by simpa using hp)⟩
  | seq _ hsb iha ihb =>
    obtain ⟨hda, hdb⟩ := Bool.and_eq_true_iff.mp he
    obtain ⟨hba, hbb⟩ := Grammar.binds_seq.mp hb
    rw [List.append_assoc] at hp
    obtain ⟨cs, ha⟩ := iha hda (hsb.predict hF) hba hp
    obtain ⟨ds, hb⟩ := ihb hdb hF hbb (drop_append hp)
    rw [List.length_append, ← Nat.add_assoc]
    exact ⟨cs ++ ds, .seq_matches ha hb⟩
  | alt_left _ ih =>
    obtain ⟨hd, -⟩ := Bool.and_eq_true_iff.mp he
    obtain ⟨cs, ha⟩ := ih (Bool.and_eq_true_iff.mp hd).1 hF (Grammar.binds_alt.mp hb).1 hp
    exact ⟨cs, .alt_first ha⟩
  | alt_right hs ih =>
    obtain ⟨hd, hapart⟩ := Bool.and_eq_true_iff.mp he
    obtain ⟨hba, hbb⟩ := Grammar.binds_alt.mp hb
    -- what the second alternative begins with is nothing that the first one begins with
    have hfails := fails_of_apart hrules total hba hapart (hp ▸ hs.predict hF)
    obtain ⟨cs, hb⟩ := ih (Bool.and_eq_true_iff.mp hd).2 hF hbb hp
    exact ⟨cs, .alt_second hfails hb⟩
  | opt_nil =>
    obtain ⟨-, hapart⟩ := Bool.and_eq_true_iff.mp he
    exact ⟨[], .opt_none (fails_of_apart hrules total (Grammar.binds_opt.mp hb) hapart (hp ▸ hF))⟩
  | opt _ ih =>
    obtain ⟨hd, -⟩ := Bool.and_eq_true_iff.mp he
    obtain ⟨cs, ha⟩ := ih hd hF (Grammar.binds_opt.mp hb) hp
    exact ⟨cs, .opt_some ha⟩
  | star_nil =>
    obtain ⟨-, hapart⟩ := Bool.and_eq_true_iff.mp he
    exact ⟨[], .star_ends (fails_of_apart hrules total (Grammar.binds_star.mp hb) hapart (hp ▸ hF))⟩
  | star_cons hu _ hs iha ihs =>
    obtain ⟨hd, -⟩ := Bool.and_eq_true_iff.mp he
    rw [List.append_assoc] at hp
    -- after a round comes another one or what comes after the repetition
    obtain ⟨cs, ha⟩ := iha hd (hs.predict hF) (Grammar.binds_star.mp hb) hp
    obtain ⟨ds, hs⟩ := ihs he hF hb (drop_append hp)
    rw [List.length_append, ← Nat.add_assoc]
    refine ⟨cs ++ ds, .star_more ha ?_ hs⟩
    have := List.length_pos_iff.mpr hu
    omega
  | plus _ hs iha ihs =>
    obtain ⟨hd, -⟩ := Bool.and_eq_true_iff.mp he
    have hba := Grammar.binds_plus.mp hb
    rw [List.append_assoc] at hp
    obtain ⟨cs, ha⟩ := iha hd (hs.predict hF) hba hp
    obtain ⟨ds, hs⟩ := ihs he hF (Grammar.binds_star.mpr hba) (drop_append hp)
    rw [List.length_append, ← Nat.add_assoc]
    exact ⟨cs ++ ds, .plus_matches ha hs⟩
  | ahead _ ih =>
    obtain ⟨cs, ha⟩ := ih he (Outlook.has_everything _) (Grammar.binds_ahead.mp hb) hp
    exact ⟨[], .ahead_matches ha⟩
  | notAhead h =>
    refine ⟨[], .notAhead_matches (Expr.fails_of_isClass he fun c hc => h c ?_)⟩
    rw [← hc, ← head?_drop_toList, hp, List.nil_append]
  | call_tree hr hid _ ih =>
    rw [Expr.decided, hr, Option.all_some] at he
    -- what may come after the rule is what the table says, so its own tree is decided
    obtain ⟨cs, he⟩ := ih (hd _ _ hid) (Outlook.has_of_within he hF) (hg _ _ hid) hp
    exact ⟨cs, .call_tree hr hid he⟩
  | call_one hr hid hc =>
    have hone := Verdict.one_of_accepts (getElem?_of_drop hp) hc
    exact ⟨[], hone ▸ .call_primitive hr hid⟩
  | capture _ ih =>
    obtain ⟨cs, ha⟩ := ih he hF (Grammar.binds_capture.mp hb) hp
    exact ⟨_, .capture_matches ha⟩

end Complete

end Peg
