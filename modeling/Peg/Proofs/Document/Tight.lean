import Peg.Proofs.Document.Language

/-!
# Tight values

A JSON value may have blanks around it where it begins and ends with a bracket. Without them it is
*tight* (`Peg.Document.Tight`), and every value is a tight one with blanks around it
(`Peg.Document.padded_form`).

Inside a tight array there is nothing but blanks, or there are tight values with commas between them
and blanks around each (`Peg.Document.array_iff`), and likewise for the members of an object
(`Peg.Document.object_iff`). In this form it does not matter which of two tokens the blanks between
them belong to.
-/

namespace Peg

namespace Document

variable {w : List Char}

/-- Neither the first character nor the last is a blank. -/
def Tight (w : List Char) : Prop :=
  (∃ c, w.head? = some c ∧ isBlank c = false) ∧ ∃ c, w.getLast? = some c ∧ isBlank c = false

/-- Between two characters that are no blanks. -/
theorem tight_between {c d : Char} (hc : isBlank c = false) (hd : isBlank d = false)
    (y : List Char) : Tight (c :: (y ++ [d])) :=
  ⟨⟨c, rfl, hc⟩, d, by simp [List.getLast?_cons], hd⟩

/-- Characters that are no blanks. -/
theorem tight_of_forall (hne : w ≠ []) (h : ∀ c ∈ w, isBlank c = false) : Tight w :=
  ⟨⟨w.head hne, List.head?_eq_some_head hne, h _ (List.head_mem hne)⟩,
    w.getLast hne, List.getLast?_eq_some_getLast hne, h _ (List.getLast_mem hne)⟩

/-- A tight word has no blanks around it. -/
theorem Tight.eq_nil {u v x : List Char} (h : Tight (u ++ (x ++ v))) (hu : Blank u) (hv : Blank v) :
    u = [] ∧ v = [] := by
  obtain ⟨⟨c, hc, hcb⟩, d, hd, hdb⟩ := h
  constructor
  · rcases u with _ | ⟨c', u⟩
    · rfl
    · obtain rfl : c' = c := by simpa using hc
      exact absurd (hu c' List.mem_cons_self) (by simp [hcb])
  · rcases v.eq_nil_or_concat with rfl | ⟨v, d', rfl⟩
    · rfl
    · obtain rfl : d' = d := by simpa [← List.append_assoc] using hd
      exact absurd (hv d' (by simp)) (by simp [hdb])

/-- A word of the language with blanks around it. -/
def Padded (V : List Char → Prop) (w : List Char) : Prop :=
  ∃ u c v, w = u ++ (c ++ v) ∧ Blank u ∧ Blank v ∧ V c

namespace Padded

variable {V V' : List Char → Prop} {u : List Char}

theorem of (h : V w) : Padded V w := ⟨[], w, [], by simp, blank_nil, blank_nil, h⟩

theorem append_left (hu : Blank u) (h : Padded V w) : Padded V (u ++ w) := by
  obtain ⟨b, c, b', rfl, hb, hb', hc⟩ := h
  exact ⟨u ++ b, c, b', by simp, hu.append hb, hb', hc⟩

theorem append_right (h : Padded V w) (hu : Blank u) : Padded V (w ++ u) := by
  obtain ⟨b, c, b', rfl, hb, hb', hc⟩ := h
  exact ⟨b, c, b' ++ u, by simp, hb, hb'.append hu, hc⟩

end Padded

/-! ### Items with commas between them -/

/-- Padded words of the language with commas between them. -/
inductive Commas (V : List Char → Prop) : List Char → Prop
  | one {p} (hp : Padded V p) : Commas V p
  | more {p y} (hp : Padded V p) (hy : Commas V y) : Commas V (p ++ ',' :: y)

/-- What stands between brackets: blanks, or items with commas between them. -/
def Inside (V : List Char → Prop) (y : List Char) : Prop := Blank y ∨ Commas V y

section Separated

variable {V : List Char → Prop} {item : Form Symbol}

/-- Blanks may be added after the last item. -/
theorem Commas.append_right {y b : List Char} (h : Commas V y) (hb : Blank b) :
    Commas V (y ++ b) := by
  induction h with
  | one hp => exact .one (hp.append_right hb)
  | more hp _ ih =>
    rw [List.append_assoc]
    exact .more hp ih

/-- The blanks before a comma go to the item before it. -/
theorem commas_flatten {p : List Char} (hp : Padded V p) {ms : List (List Char)}
    (hms : ∀ m ∈ ms, ∃ b q, m = b ++ ',' :: q ∧ Blank b ∧ Padded V q) :
    Commas V (p ++ ms.flatten) := by
  induction ms generalizing p with
  | nil => simpa using Commas.one hp
  | cons m ms ih =>
    obtain ⟨⟨b, q, rfl, hb, hq⟩, hms'⟩ := List.forall_mem_cons.mp hms
    simpa using Commas.more (hp.append_right hb) (ih hq hms')

theorem valueSeparator_iff :
    Yields productions (.ref .valueSeparator) w ↔ ∃ u v, w = u ++ ',' :: v ∧ Blank u ∧ Blank v := by
  rw [Yields.ref_iff, productions, mark_iff]

theorem separated_iff :
    Yields productions (.separated (.ref .valueSeparator) item) w ↔
      ∃ (v : List Char) (ms : List (List Char)), w = v ++ ms.flatten ∧ Yields productions item v ∧
        ∀ m ∈ ms, ∃ b b' v, m = b ++ ',' :: (b' ++ v) ∧ Blank b ∧ Blank b' ∧
          Yields productions item v := by
  have hitem (m : List Char) : Yields productions (.seq (.ref .valueSeparator) item) m ↔
      ∃ b b' v, m = b ++ ',' :: (b' ++ v) ∧ Blank b ∧ Blank b' ∧ Yields productions item v := by
    simp only [Yields.seq_iff, valueSeparator_iff]
    constructor
    · rintro ⟨_, v, rfl, ⟨b, b', rfl, hb, hb'⟩, hv⟩
      exact ⟨b, b', v, by simp, hb, hb', hv⟩
    · rintro ⟨b, b', v, rfl, hb, hb', hv⟩
      exact ⟨b ++ ',' :: b', v, by simp, ⟨b, b', rfl, hb, hb'⟩, hv⟩
  simp only [Form.separated, Yields.seq_iff (a := item), Yields.many_iff, hitem]
  constructor
  · rintro ⟨v, _, rfl, hv, ms, rfl, hms⟩
    exact ⟨v, ms, rfl, hv, hms⟩
  · rintro ⟨v, ms, rfl, hv, hms⟩
    exact ⟨v, _, rfl, hv, ms, rfl, hms⟩

/-- Blanks may be added before the first item and after the last one. -/
theorem commas_of_separated (hitem : ∀ v, Yields productions item v → Padded V v) {b b' : List Char}
    (hb : Blank b) (hb' : Blank b')
    (h : Yields productions (.separated (.ref .valueSeparator) item) w) :
    Commas V (b ++ (w ++ b')) := by
  obtain ⟨v, ms, rfl, hv, hms⟩ := separated_iff.mp h
  have hcommas : Commas V (b ++ v ++ ms.flatten) := by
    refine commas_flatten (.append_left hb (hitem v hv)) fun m hm => ?_
    obtain ⟨l, l', v, rfl, hl, hl', hv⟩ := hms m hm
    exact ⟨l, l' ++ v, rfl, hl, .append_left hl' (hitem v hv)⟩
  simpa using hcommas.append_right hb'

/-- The blanks around the items go to the separators. -/
theorem separated_of_commas (hV : ∀ v, V v → Yields productions item v) {y : List Char}
    (h : Commas V y) :
    ∃ b w b', y = b ++ (w ++ b') ∧ Blank b ∧ Blank b' ∧
      Yields productions (.separated (.ref .valueSeparator) item) w := by
  induction h with
  | one hp =>
    obtain ⟨b, c, b', rfl, hb, hb', hc⟩ := hp
    exact ⟨b, c, b', rfl, hb, hb', separated_iff.mpr ⟨c, [], by simp, hV c hc, by simp⟩⟩
  | more hp _ ih =>
    obtain ⟨b, c, l, rfl, hb, hl, hc⟩ := hp
    -- the blanks around the comma: those after the item before it and those before the next one
    obtain ⟨l', _, b', rfl, hl', hb', hw⟩ := ih
    obtain ⟨v, ms, rfl, hv, hms⟩ := separated_iff.mp hw
    refine ⟨b, c ++ (l ++ ',' :: (l' ++ v)) ++ ms.flatten, b', by simp, hb, hb', ?_⟩
    refine separated_iff.mpr ⟨c, (l ++ ',' :: (l' ++ v)) :: ms, by simp, hV c hc, ?_⟩
    exact List.forall_mem_cons.mpr ⟨⟨l, l', v, rfl, hl, hl', hv⟩, hms⟩

end Separated

/-! ### Brackets -/

section Brackets

variable {V : List Char → Prop} {item : Form Symbol} {n first last : Symbol} {o c : Char}

/-- Items between brackets. -/
def bracketed (first last : Symbol) (item : Form Symbol) : Form Symbol :=
  .seq (.ref first) (.seq (.opt (.separated (.ref .valueSeparator) item)) (.ref last))

theorem bracketed_iff (hn : productions n = bracketed first last item)
    (ho : productions first = mark o) (hc : productions last = mark c) :
    Yields productions (.ref n) w ↔
      ∃ u b x b' v, w = u ++ ((o :: (b ++ (x ++ b') ++ [c])) ++ v) ∧ (Blank u ∧ Blank v) ∧
        (Blank b ∧ Blank b') ∧
        (x = [] ∨ Yields productions (.separated (.ref .valueSeparator) item) x) := by
  simp only [Yields.ref_iff (n := n), hn, bracketed, Yields.seq_iff, Yields.opt_iff,
    Yields.ref_iff (n := first), Yields.ref_iff (n := last), ho, hc, mark_iff]
  constructor
  · rintro ⟨_, _, rfl, ⟨u, b, rfl, hu, hb⟩, x, _, rfl, hx, b', v, rfl, hb', hv⟩
    exact ⟨u, b, x, b', v, by simp, ⟨hu, hv⟩, ⟨hb, hb'⟩, hx⟩
  · rintro ⟨u, b, x, b', v, rfl, ⟨hu, hv⟩, ⟨hb, hb'⟩, hx⟩
    exact ⟨u ++ o :: b, x ++ (b' ++ c :: v), by simp, ⟨u, b, rfl, hu, hb⟩, x, _, rfl, hx, b', v,
      rfl, hb', hv⟩

/-- What stands between brackets may lose the blanks around it. -/
theorem padded_bracketed (hn : productions n = bracketed first last item)
    (ho : productions first = mark o) (hc : productions last = mark c) (hob : isBlank o = false)
    (hcb : isBlank c = false) (h : Yields productions (.ref n) w) :
    Padded (fun v => Yields productions (.ref n) v ∧ Tight v) w := by
  obtain ⟨u, b, x, b', v, rfl, ⟨hu, hv⟩, hb, hx⟩ := (bracketed_iff hn ho hc).mp h
  refine ⟨u, _, v, rfl, hu, hv, (bracketed_iff hn ho hc).mpr ?_, tight_between hob hcb _⟩
  exact ⟨[], b, x, b', [], by simp, ⟨blank_nil, blank_nil⟩, hb, hx⟩

/-- A tight word begins with its bracket. -/
theorem head_bracketed (hn : productions n = bracketed first last item)
    (ho : productions first = mark o) (hc : productions last = mark c)
    (h : Yields productions (.ref n) w) (ht : Tight w) : ∃ t, w = o :: t := by
  obtain ⟨u, b, x, b', v, rfl, ⟨hu, hv⟩, -⟩ := (bracketed_iff hn ho hc).mp h
  obtain ⟨rfl, rfl⟩ := ht.eq_nil hu hv
  exact ⟨_, rfl⟩

/-- **Tight brackets** have blanks between them, or items with commas between them. -/
theorem tight_bracketed_iff (hn : productions n = bracketed first last item)
    (ho : productions first = mark o) (hc : productions last = mark c) (hob : isBlank o = false)
    (hcb : isBlank c = false) (hitem : ∀ v, Yields productions item v → Padded V v)
    (hV : ∀ v, V v → Yields productions item v) :
    Yields productions (.ref n) w ∧ Tight w ↔ ∃ y, w = o :: (y ++ [c]) ∧ Inside V y := by
  rw [bracketed_iff hn ho hc]
  constructor
  · rintro ⟨⟨u, b, x, b', v, rfl, ⟨hu, hv⟩, ⟨hb, hb'⟩, hx⟩, ht⟩
    -- a tight word has no blanks outside its brackets
    obtain ⟨rfl, rfl⟩ := ht.eq_nil hu hv
    refine ⟨b ++ (x ++ b'), by simp, ?_⟩
    rcases hx with rfl | hx
    · exact .inl (hb.append hb')
    · exact .inr (commas_of_separated hitem hb hb' hx)
  · rintro ⟨y, rfl, hy | hy⟩
    · exact ⟨⟨[], y, [], [], [], by simp, ⟨blank_nil, blank_nil⟩, ⟨hy, blank_nil⟩, .inl rfl⟩,
        tight_between hob hcb y⟩
    · obtain ⟨b, x, b', rfl, hb, hb', hx⟩ := separated_of_commas hV hy
      exact ⟨⟨[], b, x, b', [], by simp, ⟨blank_nil, blank_nil⟩, ⟨hb, hb'⟩, .inr hx⟩,
        tight_between hob hcb _⟩

end Brackets

/-! ### The kinds of values -/

theorem tight_string (h : Yields productions (.ref .string) w) : Tight w := by
  simp only [Yields.ref_iff (n := Symbol.string), productions, Yields.seq_iff, Yields.word_iff] at h
  obtain ⟨_, _, rfl, rfl, y, _, rfl, -, rfl⟩ := h
  exact tight_between (by decide) (by decide) y

/-- A number begins with a sign or a digit. -/
theorem head_number (h : Yields productions (.ref .number) w) :
    ∃ c t, w = c :: t ∧ (c = '-' ∨ '0' ≤ c ∧ c ≤ '9') := by
  have hint {i : List Char} (h : Yields productions (.ref .int) i) :
      ∃ c t, i = c :: t ∧ ('0' ≤ c ∧ c ≤ '9') := by
    simp only [Yields.ref_iff (n := Symbol.int), productions, Form.range, Yields.alt_iff, Yields.seq_iff,
      Yields.word_iff, Yields.one_iff] at h
    rcases h with rfl | ⟨_, t, rfl, ⟨c, rfl, hc⟩, -⟩
    · exact ⟨'0', [], rfl, by decide, by decide⟩
    · simp only [Bool.and_eq_true, decide_eq_true_eq] at hc
      exact ⟨c, t, rfl, Char.le_trans (by decide) hc.1, hc.2⟩
  simp only [Yields.ref_iff (n := Symbol.number), productions, Yields.seq_iff, Yields.opt_iff,
    Yields.word_iff] at h
  obtain ⟨s, _, rfl, hs, i, t, rfl, hi, -⟩ := h
  obtain ⟨c, i, rfl, hc⟩ := hint hi
  rcases hs with rfl | rfl
  · exact ⟨c, i ++ t, rfl, .inr hc⟩
  · exact ⟨'-', c :: (i ++ t), rfl, .inl rfl⟩

/-- There is no blank in a number. -/
theorem tight_number (h : Yields productions (.ref .number) w) : Tight w := by
  obtain ⟨c, t, rfl, -⟩ := head_number h
  refine tight_of_forall (List.cons_ne_nil c t) (Yields.forall_mem (P := fun c => isBlank c = false)
    (S := (· ∈ [Symbol.number, .int, .frac, .exp])) ?_ (by simp [Form.Over]) h)
  -- the blanks all come before the digits
  have hdigit (c : Char) (hc : '0' ≤ c) (hc' : c ≤ '9') : isBlank c = false := by
    refine Bool.eq_false_iff.mpr fun hb => ?_
    have hb : c = ' ' ∨ c = '\t' ∨ c = '\n' ∨ c = '\r' := by simpa [isBlank] using hb
    rcases hb with rfl | rfl | rfl | rfl <;> revert hc <;> decide
  have hrange (first : Char) (hf : '0' ≤ first) (c : Char)
      (hc : (decide (first ≤ c) && decide (c ≤ '9')) = true) : isBlank c = false := by
    simp only [Bool.and_eq_true, decide_eq_true_eq] at hc
    exact hdigit c (Char.le_trans hf hc.1) hc.2
  intro n hn
  simp only [List.mem_cons, List.not_mem_nil, or_false] at hn
  rcases hn with rfl | rfl | rfl | rfl
  · simp [productions, Form.Over, isBlank]
  · exact ⟨by simp [Form.Over, isBlank], hrange _ (by decide), hrange _ (by decide)⟩
  · exact ⟨by simp [Form.Over, isBlank], hrange _ (by decide), hrange _ (by decide)⟩
  · refine ⟨?_, ?_, hrange _ (by decide), hrange _ (by decide)⟩ <;> simp [Form.Over, isBlank]

theorem tight_boolean (h : Yields productions Kind.boolean.form w) : Tight w := by
  rcases Yields.alt_iff.mp h with h | h <;> obtain rfl := Yields.word_iff.mp h
  · exact tight_between (by decide) (by decide) ['r', 'u']
  · exact tight_between (by decide) (by decide) ['a', 'l', 's']

theorem tight_null (h : Yields productions Kind.null.form w) : Tight w := by
  obtain rfl := Yields.word_iff.mp h
  exact tight_between (by decide) (by decide) ['u', 'l']

/-- **Every value is a tight value with blanks around it**, and of the same kind. -/
theorem padded_form {k : Kind} (h : Yields productions k.form w) :
    Padded (fun v => Yields productions k.form v ∧ Tight v) w := by
  cases k with
  | object => exact padded_bracketed rfl rfl rfl (by decide) (by decide) h
  | array => exact padded_bracketed rfl rfl rfl (by decide) (by decide) h
  | string => exact .of ⟨h, tight_string h⟩
  | number => exact .of ⟨h, tight_number h⟩
  | boolean => exact .of ⟨h, tight_boolean h⟩
  | null => exact .of ⟨h, tight_null h⟩

/-- **The first character tells the kind** of a tight value. -/
theorem kind_of_tight {k : Kind} (h : Yields productions k.form w) (ht : Tight w) :
    ∃ c t, w = c :: t ∧ kind c = k.name := by
  cases k with
  | object =>
    obtain ⟨t, rfl⟩ := head_bracketed rfl rfl rfl h ht
    exact ⟨_, t, rfl, rfl⟩
  | array =>
    obtain ⟨t, rfl⟩ := head_bracketed rfl rfl rfl h ht
    exact ⟨_, t, rfl, rfl⟩
  | string =>
    simp only [Kind.form, Yields.ref_iff (n := Symbol.string), productions, Yields.seq_iff,
      Yields.word_iff] at h
    obtain ⟨_, _, rfl, rfl, -⟩ := h
    exact ⟨_, _, rfl, rfl⟩
  | number =>
    obtain ⟨c, t, rfl, hc⟩ := head_number h
    refine ⟨c, t, rfl, ?_⟩
    unfold kind
    -- no other kind begins with a sign or a digit
    split
    case h_7 => rfl
    all_goals revert hc; decide
  | boolean =>
    simp only [Kind.form, Yields.alt_iff, Yields.word_iff] at h
    rcases h with rfl | rfl <;> exact ⟨_, _, rfl, rfl⟩
  | null =>
    obtain rfl := Yields.word_iff.mp h
    exact ⟨_, _, rfl, rfl⟩

/-- A value without blanks around it. -/
def TightValue (v : List Char) : Prop := Yields productions (.ref .value) v ∧ Tight v

theorem padded_value (h : Yields productions (.ref .value) w) : Padded TightValue w := by
  obtain ⟨k, hk⟩ := value_iff.mp h
  obtain ⟨u, c, v, hw, hu, hv, hc, ht⟩ := padded_form hk
  exact ⟨u, c, v, hw, hu, hv, value_iff.mpr ⟨k, hc⟩, ht⟩

/-- A text is a tight value with blanks around it. -/
theorem text_iff : Yields productions (.ref .text) w ↔ Padded TightValue w := by
  simp only [Yields.ref_iff (n := Symbol.text), productions, Yields.seq_iff, ws_iff]
  constructor
  · rintro ⟨u, _, rfl, hu, v, w, rfl, hv, hw⟩
    exact .append_left hu ((padded_value hv).append_right hw)
  · rintro ⟨u, v, w, rfl, hu, hw, hv⟩
    exact ⟨u, v ++ w, rfl, hu, v, w, rfl, hv.1, hw⟩

/-- A member of an object, without blanks around it. -/
def TightMember (m : List Char) : Prop :=
  ∃ s b b' v, m = s ++ (b ++ ':' :: (b' ++ v)) ∧ Yields productions (.ref .string) s ∧
    (Blank b ∧ Blank b') ∧ TightValue v

theorem member_iff :
    Yields productions (.ref .member) w ↔
      ∃ s b b' v, w = s ++ (b ++ ':' :: (b' ++ v)) ∧ Yields productions (.ref .string) s ∧
        (Blank b ∧ Blank b') ∧ Yields productions (.ref .value) v := by
  simp only [Yields.ref_iff (n := Symbol.member), Yields.ref_iff (n := Symbol.nameSeparator),
    productions, Yields.seq_iff, mark_iff]
  constructor
  · rintro ⟨s, _, rfl, hs, _, v, rfl, ⟨b, b', rfl, hb, hb'⟩, hv⟩
    exact ⟨s, b, b', v, by simp, hs, ⟨hb, hb'⟩, hv⟩
  · rintro ⟨s, b, b', v, rfl, hs, ⟨hb, hb'⟩, hv⟩
    exact ⟨s, _, rfl, hs, b ++ ':' :: b', v, by simp, ⟨b, b', rfl, hb, hb'⟩, hv⟩

theorem TightMember.yields (h : TightMember w) : Yields productions (.ref .member) w := by
  obtain ⟨s, b, b', v, rfl, hs, hb, hv⟩ := h
  exact member_iff.mpr ⟨s, b, b', v, rfl, hs, hb, hv.1⟩

theorem padded_member (h : Yields productions (.ref .member) w) : Padded TightMember w := by
  obtain ⟨s, b, b', v, rfl, hs, ⟨hb, hb'⟩, hv⟩ := member_iff.mp h
  obtain ⟨u, c, u', rfl, hu, hu', hc⟩ := padded_value hv
  refine ⟨[], s ++ (b ++ ':' :: (b' ++ u ++ c)), u', by simp, blank_nil, hu', ?_⟩
  exact ⟨s, b, b' ++ u, c, rfl, hs, ⟨hb, hb'.append hu⟩, hc⟩

/-- **Tight arrays.** -/
theorem array_iff :
    Yields productions (.ref .array) w ∧ Tight w ↔
      ∃ y, w = '[' :: (y ++ [']']) ∧ Inside TightValue y :=
  tight_bracketed_iff rfl rfl rfl (by decide) (by decide) (fun _ => padded_value) fun _ h => h.1

/-- **Tight objects.** -/
theorem object_iff :
    Yields productions (.ref .object) w ∧ Tight w ↔
      ∃ y, w = '\x7b' :: (y ++ ['\x7d']) ∧ Inside TightMember y :=
  tight_bracketed_iff rfl rfl rfl (by decide) (by decide) (fun _ => padded_member)
    fun _ => TightMember.yields

end Document

end Peg
