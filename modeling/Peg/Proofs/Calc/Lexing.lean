import Peg.Proofs.Calc.Language

/-!
# Words as rows of tokens

An arithmetic expression is a row of tokens with blanks between them, and it can be taken apart in
one way only (`Peg.Calc.Lexes.unique`): a token that is no number is a character that no number
contains, and a number goes on for as long as there are digits and points. Blanks are counted with
the token before them, so a word that is lexed does not begin with one. Of two words that are lexed,
the one may be put behind the other unless it would continue a number (`Peg.Calc.Lexes.append`), and
a word may be cut between any two of its tokens (`Peg.Calc.Lexes.of_append`).
-/

namespace Peg

namespace Calc

variable {c : Char} {u v w : List Char} {t t' : Token} {ts us : List Token}

namespace Token

/-- The characters of a token. -/
def chars (t : Token) : List Char := t.text.toList

/-- Whether the token is a number. -/
def isNumber : Token → Bool
  | number _ => true
  | plus | minus | times | divide | opening | closing => false

/-- A number has the text of a number. -/
def Valid : Token → Prop
  | number s => Numeral s.toList
  | plus | minus | times | divide | opening | closing => True

theorem Valid.numeral (h : t.Valid) (ht : t.isNumber = true) : Numeral t.chars := by
  cases t with
  | number s => exact h
  | _ => cases ht

/-- A token that is no number is one character, and none that a number contains. -/
theorem exists_chars (ht : t.isNumber = false) :
    ∃ c ∈ ['+', '-', '*', '/', '(', ')'], t.chars = [c] := by
  cases t with
  | number s => cases ht
  | _ => exact ⟨_, by decide, rfl⟩

theorem isNumeric_eq_false (hc : c ∈ ['+', '-', '*', '/', '(', ')']) : isNumeric c = false := by
  simp only [List.mem_cons, List.not_mem_nil, or_false] at hc
  rcases hc with rfl | rfl | rfl | rfl | rfl | rfl <;> rfl

/-- A token begins with a character, which is no blank. -/
theorem Valid.exists_cons (h : t.Valid) : ∃ c r, t.chars = c :: r ∧ c ≠ ' ' := by
  by_cases ht : t.isNumber = true
  · obtain ⟨c, r, hcr, hc⟩ := (h.numeral ht).exists_cons
    refine ⟨c, r, hcr, ?_⟩
    rintro rfl
    cases hc
  · obtain ⟨c, hmem, hc⟩ := exists_chars (by simpa using ht)
    refine ⟨c, [], hc, ?_⟩
    rintro rfl
    revert hmem
    decide

/-- No blank is part of a token. -/
theorem Valid.ne_blank (h : t.Valid) : ∀ c ∈ t.chars, c ≠ ' ' := by
  rintro c hc rfl
  by_cases ht : t.isNumber = true
  · cases (h.numeral ht).isNumeric _ hc
  · obtain ⟨c, hmem, heq⟩ := exists_chars (by simpa using ht)
    rw [heq, List.mem_singleton] at hc
    subst hc
    revert hmem
    decide

/-- A token is the one that is written like it. -/
theorem ofText_text (h : t.Valid) : ofText t.text = t := by
  cases t with
  | number s =>
    -- none of the other texts begins with a digit
    obtain ⟨c, r, hs, hc⟩ := Numeral.exists_cons h
    have hne (x : String) (hx : ∀ d ∈ x.toList, d.isDigit = false) : s ≠ x := by
      rintro rfl
      have := hx c (hs ▸ List.mem_cons_self)
      simp [hc] at this
    rw [text, ofText]
    · exact hne "+" (by simp)
    · exact hne "-" (by simp)
    · exact hne "*" (by simp)
    · exact hne "/" (by simp)
    · exact hne "(" (by simp)
    · exact hne ")" (by simp)
  | _ => rfl

theorem Valid.eq_of_chars (h : t.Valid) (h' : t'.Valid) (heq : t.chars = t'.chars) : t = t' := by
  rw [← ofText_text h, String.toList_inj.mp heq, ofText_text h']

end Token

/-- The word does not go on with a character that a number may contain. -/
def Stops (w : List Char) : Prop := ∀ c, w.head? = some c → isNumeric c = false

theorem stops_nil : Stops [] := nofun

@[simp]
theorem stops_cons : Stops (c :: w) ↔ isNumeric c = false := by
  simp [Stops]

theorem Stops.append (h : Stops u) (h' : Stops v) : Stops (u ++ v) := by
  cases u with
  | nil => exact h'
  | cons c u => exact stops_cons.mpr (stops_cons.mp h)

theorem Stops.of_append (h : Stops (u ++ v)) : Stops u := by
  cases u with
  | nil => exact stops_nil
  | cons c u => exact stops_cons.mpr (stops_cons.mp h)

/-- **The word is a row of tokens**, each with blanks behind it, and no number goes on behind its
token. -/
inductive Lexes : List Char → List Token → Prop
  | nil : Lexes [] []
  | cons {t b w ts} (ht : t.Valid) (hb : Blank b) (hstop : t.isNumber = true → Stops (b ++ w))
      (h : Lexes w ts) : Lexes (t.chars ++ (b ++ w)) (t :: ts)

/-! ### There is one way to take a word apart -/

/-- A number is what there is of digits and points. -/
theorem takeWhile_chars (ht : t.isNumber = true) (h : t.Valid) (hw : Stops w) :
    (t.chars ++ w).takeWhile isNumeric = t.chars := by
  rw [List.takeWhile_append_of_pos (h.numeral ht).isNumeric]
  cases w with
  | nil => simp
  | cons c w => simp [stops_cons.mp hw]

/-- The token at the front of a word is determined. -/
theorem chars_eq_of_append (h : t.Valid) (h' : t'.Valid) (hu : t.isNumber = true → Stops u)
    (hv : t'.isNumber = true → Stops v) (heq : t.chars ++ u = t'.chars ++ v) :
    t.chars = t'.chars := by
  -- where one of the two is no number, no number begins
  have mixed {t t' : Token} {u v : List Char} (h : t.Valid) (ht : t.isNumber = true)
      (ht' : t'.isNumber = false) (heq : t.chars ++ u = t'.chars ++ v) : False := by
    obtain ⟨c, hmem, hc⟩ := Token.exists_chars ht'
    obtain ⟨d, r, hd, hdigit⟩ := (h.numeral ht).exists_cons
    rw [hc, hd] at heq
    obtain ⟨rfl, -⟩ := List.cons.inj heq
    have := Token.isNumeric_eq_false hmem
    simp [isNumeric, hdigit] at this
  rcases ht : t.isNumber with _ | _ <;> rcases ht' : t'.isNumber with _ | _
  · obtain ⟨c, -, hc⟩ := Token.exists_chars ht
    obtain ⟨d, -, hd⟩ := Token.exists_chars ht'
    rw [hc, hd] at heq ⊢
    rw [(List.cons.inj heq).1]
  · exact (mixed h' ht' ht heq.symm).elim
  · exact (mixed h ht ht' heq).elim
  · rw [← takeWhile_chars ht h (hu ht), heq, takeWhile_chars ht' h' (hv ht')]

namespace Lexes

/-- Blanks in front of a row of tokens are all the blanks there are in front. -/
theorem dropWhile_append {b : List Char} (h : Lexes w ts) (hb : Blank b) :
    (b ++ w).dropWhile (· == ' ') = w := by
  rw [List.dropWhile_append_of_pos (by simpa [Blank] using hb)]
  cases h with
  | nil => rfl
  | cons ht =>
    obtain ⟨c, r, hc, hne⟩ := ht.exists_cons
    rw [hc, List.cons_append, List.dropWhile_cons_of_neg (by simpa using hne)]

/-- **A word is a row of tokens in one way.** -/
theorem unique (h : Lexes w ts) (h' : Lexes w us) : ts = us := by
  induction h generalizing us with
  | nil =>
    generalize hw : ([] : List Char) = w at h'
    cases h' with
    | nil => rfl
    | cons ht =>
      obtain ⟨c, r, hc, -⟩ := ht.exists_cons
      simp [hc] at hw
  | @cons t b w ts ht hb hstop h ih =>
    generalize hw : t.chars ++ (b ++ w) = w' at h'
    cases h' with
    | nil =>
      obtain ⟨c, r, hc, -⟩ := ht.exists_cons
      simp [hc] at hw
    | @cons t' b' w' us ht' hb' hstop' h' =>
      have hchars := chars_eq_of_append ht ht' hstop hstop' hw
      obtain rfl := ht.eq_of_chars ht' hchars
      have hrest : b ++ w = b' ++ w' := List.append_cancel_left hw
      obtain rfl : w = w' := by
        rw [← h.dropWhile_append hb, hrest, h'.dropWhile_append hb']
      rw [ih h']

/-- Blanks in front make no difference. -/
theorem unique_of_append {b b' : List Char} (h : Lexes w ts) (h' : Lexes v us) (hb : Blank b)
    (hb' : Blank b') (heq : b ++ w = b' ++ v) : ts = us := by
  obtain rfl : w = v := by
    rw [← h.dropWhile_append hb, heq, h'.dropWhile_append hb']
  exact h.unique h'

/-! ### Putting words together and cutting them -/

/-- What begins with a token that is no number does not continue one. -/
theorem stops (h : Lexes w (t :: ts)) (ht : t.isNumber = false) : Stops w := by
  generalize hts : t :: ts = us at h
  cases h with
  | nil => exact stops_nil
  | cons =>
    obtain ⟨rfl, -⟩ := List.cons.inj hts
    obtain ⟨c, hmem, hc⟩ := Token.exists_chars ht
    rw [hc]
    exact stops_cons.mpr (Token.isNumeric_eq_false hmem)

/-- Two words may be joined where the second does not continue a number. -/
theorem append (h : Lexes u ts) (h' : Lexes v us) (hv : Stops v) : Lexes (u ++ v) (ts ++ us) := by
  induction h with
  | nil => exact h'
  | cons ht hb hstop _ ih =>
    rw [List.append_assoc, List.append_assoc, List.cons_append]
    refine .cons ht hb (fun hn => ?_) ih
    rw [← List.append_assoc]
    exact (hstop hn).append hv

/-- **A word may be cut between two tokens.** -/
theorem of_append (h : Lexes w (ts ++ us)) : ∃ u v, w = u ++ v ∧ Lexes u ts ∧ Lexes v us := by
  induction ts generalizing w with
  | nil => exact ⟨[], w, rfl, .nil, h⟩
  | cons t ts ih =>
    cases h with
    | @cons _ b w _ ht hb hstop h =>
      obtain ⟨u, v, rfl, hu, hv⟩ := ih h
      refine ⟨t.chars ++ (b ++ u), v, by simp, .cons ht hb (fun hn => ?_) hu, hv⟩
      have := hstop hn
      rw [← List.append_assoc] at this
      exact this.of_append

/-- A word of one token. -/
theorem singleton {b : List Char} (ht : t.Valid) (hb : Blank b) : Lexes (t.chars ++ b) [t] := by
  rw [← List.append_nil b]
  refine .cons ht hb (fun _ => ?_) .nil
  cases b with
  | nil => exact stops_nil
  | cons c b => exact stops_cons.mpr (by rw [hb c List.mem_cons_self]; rfl)

theorem of_singleton (h : Lexes w [t]) : ∃ b, w = t.chars ++ b ∧ Blank b ∧ t.Valid := by
  cases h with
  | cons ht hb _ h =>
    cases h
    exact ⟨_, by rw [List.append_nil], hb, ht⟩

theorem of_cons (h : Lexes w (t :: ts)) :
    ∃ b v, w = t.chars ++ (b ++ v) ∧ Blank b ∧ t.Valid ∧ Lexes v ts := by
  cases h with
  | cons ht hb _ h => exact ⟨_, _, rfl, hb, ht, h⟩

/-- The characters that are no blanks are those of the tokens. -/
theorem flatten_chars (h : Lexes w ts) : (ts.map Token.chars).flatten = w.filter (· != ' ') := by
  induction h with
  | nil => rfl
  | @cons t b w ts ht hb _ _ ih =>
    have hchars : t.chars.filter (· != ' ') = t.chars :=
      List.filter_eq_self.mpr fun c hc => bne_iff_ne.mpr (ht.ne_blank c hc)
    have hblank : b.filter (· != ' ') = [] :=
      List.filter_eq_nil_iff.mpr fun c hc => by simpa using hb c hc
    rw [List.map_cons, List.flatten_cons, ih, List.filter_append, List.filter_append, hchars,
      hblank, List.nil_append]

/-- **Tokens with a space between any two are lexed into these tokens.** -/
theorem join (hts : ∀ t ∈ ts, t.Valid) : Lexes ([' '].intercalate (ts.map Token.chars)) ts := by
  induction ts with
  | nil => exact .nil
  | cons t ts ih =>
    obtain ⟨ht, hts⟩ := List.forall_mem_cons.mp hts
    cases ts with
    | nil => simpa using singleton ht blank_nil
    | cons t' ts =>
      rw [List.map_cons, List.map_cons, List.intercalate_cons_cons, List.append_assoc]
      exact .cons ht (by simp [Blank]) (fun _ => stops_cons.mpr rfl) (ih hts)

end Lexes

end Calc

end Peg
