import Peg.Proofs.Semantics.Spelling

/-!
# What may come next

At some point of an input there comes a character next, or the end of the input. A `Peg.Outlook` is a
set of such possibilities: the characters are given as ranges of code points, so that it can be
computed with. Two questions are asked of outlooks, whether they are apart and whether one is within
another, and both may be answered by "no" too often, but never by "yes" when it is not so.
-/

namespace Peg

/-- What may come next. -/
structure Outlook where
  /-- The characters, as ranges of code points. -/
  ranges : List (Nat × Nat) := []
  /-- Whether the input may end. -/
  ends : Bool := false

namespace Outlook

/-- The character, or the end of the input, is among what may come next. -/
def Has (s : Outlook) : Option Char → Prop
  | none => s.ends = true
  | some c => ∃ r ∈ s.ranges, r.1 ≤ c.toNat ∧ c.toNat ≤ r.2

/-- Any character. -/
def characters : Outlook := { ranges := [(0, 0x10ffff)] }

/-- Any character and the end of the input. -/
def everything : Outlook := { characters with ends := true }

/-- The characters between two others, both included. -/
def range (first last : Char) : Outlook := { ranges := [(first.toNat, last.toNat)] }

/-- One of the characters. -/
def oneOf (cs : List Char) : Outlook := { ranges := cs.map fun c => (c.toNat, c.toNat) }

/-- What one of two outlooks has. -/
def union (s t : Outlook) : Outlook :=
  { ranges := s.ranges ++ t.ranges, ends := s.ends || t.ends }

/-- The code points of a range that lie before `first` or after `last`. -/
def cut (first last : Nat) (r : Nat × Nat) : List (Nat × Nat) :=
  (if r.1 < first then [(r.1, min r.2 (first - 1))] else []) ++
    if last < r.2 then [(max r.1 (last + 1), r.2)] else []

/-- Without the characters between two others. -/
def without (s : Outlook) (first last : Char) : Outlook :=
  { s with ranges := s.ranges.flatMap (cut first.toNat last.toNat) }

/-- Without the characters that the expression accepts. -/
def except (s : Outlook) : Expr → Outlook
  | .char c => s.without c c
  | .range first last => s.without first last
  | .any => { ends := s.ends }
  | .alt a b => (s.except a).except b
  | .seq _ _ | .text _ | .endOfInput | .opt _ | .star _ | .plus _ | .ahead _ | .notAhead _
  | .call _ | .capture _ | .empty => s

/-- Nothing is in both outlooks. -/
def apart (s t : Outlook) : Bool :=
  !(s.ends && t.ends) && s.ranges.all fun a => t.ranges.all fun b => a.2 < b.1 || b.2 < a.1

/-- All that is in the first outlook is in the second. -/
def within (s t : Outlook) : Bool :=
  (!s.ends || t.ends) && s.ranges.all fun a => t.ranges.any fun b => b.1 ≤ a.1 && a.2 ≤ b.2

variable {s t : Outlook} {o : Option Char} {c first last : Char}

theorem toNat_le (c : Char) : c.toNat ≤ 0x10ffff := by
  rcases c.valid with h | h
  · exact Nat.le_trans (Nat.le_of_lt h) (by decide)
  · exact Nat.le_of_lt_succ h.2

theorem has_characters (c : Char) : characters.Has (some c) :=
  ⟨_, List.mem_singleton_self _, Nat.zero_le _, toNat_le c⟩

theorem has_everything (o : Option Char) : everything.Has o := by
  cases o with
  | none => rfl
  | some c => exact has_characters c

theorem has_range (h : first ≤ c ∧ c ≤ last) : (range first last).Has (some c) :=
  ⟨_, List.mem_singleton_self _, h⟩

theorem has_union : (s.union t).Has o ↔ s.Has o ∨ t.Has o := by
  cases o with
  | none => simp [Has, union]
  | some c => simp [Has, union, or_and_right, exists_or]

theorem has_without (h : s.Has o) (hc : ∀ c, o = some c → ¬(first ≤ c ∧ c ≤ last)) :
    (s.without first last).Has o := by
  cases o with
  | none => exact h
  | some c =>
    obtain ⟨r, hr, hle, hle'⟩ := h
    -- it is in what is left of its range on the one side or on the other
    have hout : ¬(first.toNat ≤ c.toNat ∧ c.toNat ≤ last.toNat) := hc c rfl
    by_cases hlt : c.toNat < first.toNat
    · refine ⟨(r.1, min r.2 (first.toNat - 1)), List.mem_flatMap.mpr ⟨r, hr, ?_⟩, hle, by omega⟩
      simp [cut, show r.1 < first.toNat by omega]
    · refine ⟨(max r.1 (last.toNat + 1), r.2), List.mem_flatMap.mpr ⟨r, hr, ?_⟩, by omega, hle'⟩
      simp [cut, show last.toNat < r.2 by omega]

theorem has_except {a : Expr} (h : s.Has o) (ha : ∀ c, o = some c → a.accepts c = false) :
    (s.except a).Has o := by
  induction a generalizing s with
  | char d =>
    refine has_without h fun c hc hd => ?_
    have := ha c hc
    rw [Expr.accepts, beq_eq_false_iff_ne] at this
    exact this (Char.le_antisymm hd.2 hd.1)
  | range first last => exact has_without h fun c hc hr => by simpa [Expr.accepts, hr] using ha c hc
  | any =>
    cases o with
    | none => exact h
    | some c => simpa [Expr.accepts] using ha c rfl
  | alt a b iha ihb =>
    have hab (c : Char) (hc : o = some c) : a.accepts c = false ∧ b.accepts c = false := by
      simpa [Expr.accepts] using ha c hc
    exact ihb (iha h fun c hc => (hab c hc).1) fun c hc => (hab c hc).2
  | _ => exact h

theorem not_has_of_apart (h : s.apart t = true) (hs : s.Has o) : ¬t.Has o := by
  simp only [apart, Bool.and_eq_true, Bool.not_eq_true', List.all_eq_true, Bool.or_eq_true,
    decide_eq_true_eq] at h
  intro ht
  cases o with
  | none => simp [show s.ends = true from hs, show t.ends = true from ht] at h
  | some c =>
    obtain ⟨a, ha, hac⟩ := hs
    obtain ⟨b, hb, hbc⟩ := ht
    have := h.2 a ha b hb
    omega

theorem has_of_within (h : s.within t = true) (hs : s.Has o) : t.Has o := by
  simp only [within, Bool.and_eq_true, Bool.or_eq_true, Bool.not_eq_true', List.all_eq_true,
    List.any_eq_true, decide_eq_true_eq] at h
  cases o with
  | none => simpa [Has, show s.ends = true from hs] using h.1
  | some c =>
    obtain ⟨a, ha, hac⟩ := hs
    obtain ⟨b, hb, hab⟩ := h.2 a ha
    exact ⟨b, hb, by omega⟩

end Outlook

end Peg
