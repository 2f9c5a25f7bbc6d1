import Peg.Calc.Token
import Peg.Decimal.Digits
import Peg.Proofs.Language.Form

/-!
# The language of arithmetic expressions

The context-free grammar of arithmetic expressions as it is documented, without the order among
alternatives and without the captures. The end of the input that a program asks for is the end of
its word.

A number is a row of digits, perhaps with a point and another row behind it
(`Peg.Calc.numeral_iff`). Its characters, the digits and the point, occur in no other token, and
that is what tells where a number ends.
-/

namespace Peg

namespace Calc

/-- The symbols of the grammar. -/
inductive Symbol
  | program | expr | term | unary | factor | number | ws
deriving DecidableEq

/-- Words of the given symbol with operators between them. -/
def operandsOf (n : Symbol) (operators : List Char) : Form Symbol :=
  .seq (.ref n) (.many (.seq (.oneOf operators) (.seq (.ref .ws) (.ref n))))

/-- **The grammar of arithmetic expressions.** -/
def productions : Symbol → Form Symbol
  | .program => .seq (.ref .ws) (.ref .expr)
  | .expr => operandsOf .term ['+', '-']
  | .term => operandsOf .unary ['*', '/']
  | .unary => .alt (.seq (.word ['-']) (.seq (.ref .ws) (.ref .unary))) (.ref .factor)
  | .factor =>
    .seq
      (.alt (.ref .number)
        (.seq (.word ['(']) (.seq (.ref .ws) (.seq (.ref .expr) (.word [')'])))))
      (.ref .ws)
  | .number => .seq (.some (.range '0' '9')) (.opt (.seq (.word ['.']) (.some (.range '0' '9'))))
  | .ws => .many (.word [' '])

variable {c : Char} {u v w : List Char}

/-! ### Blanks -/

/-- Nothing but blanks. -/
def Blank (w : List Char) : Prop := ∀ c ∈ w, c = ' '

theorem blank_nil : Blank [] := by simp [Blank]

theorem ws_iff : Yields productions (.ref .ws) w ↔ Blank w := by
  rw [Yields.ref_iff, productions, Yields.many_iff]
  constructor
  · rintro ⟨ws, rfl, hws⟩ c hc
    obtain ⟨u, hu, hcu⟩ := List.mem_flatten.mp hc
    obtain rfl := Yields.word_iff.mp (hws u hu)
    exact List.mem_singleton.mp hcu
  · intro hw
    refine ⟨w.map fun c => [c], ?_, fun u hu => ?_⟩
    · rw [← List.flatMap_def, List.flatMap_singleton']
    · obtain ⟨c, hc, rfl⟩ := List.mem_map.mp hu
      exact Yields.word_iff.mpr (by rw [hw c hc])

/-! ### Putting words together -/

section Words

variable {n : Symbol} {operators : List Char} {b : List Char}

theorem yields_operand (h : Yields productions (.ref n) w) :
    Yields productions (operandsOf n operators) w := by
  rw [← List.append_nil w]
  exact .seq h .many_nil

theorem yields_operands (hu : Yields productions (operandsOf n operators) u) (hc : c ∈ operators)
    (hb : Blank b) (hv : Yields productions (.ref n) v) :
    Yields productions (operandsOf n operators) (u ++ c :: (b ++ v)) :=
  hu.seq_many_append (.seq (.one (by simpa using hc)) (.seq (ws_iff.mpr hb) hv))

theorem yields_term (h : Yields productions (.ref .unary) w) : Yields productions (.ref .term) w :=
  .ref (yields_operand h)

theorem yields_expr (h : Yields productions (.ref .term) w) : Yields productions (.ref .expr) w :=
  .ref (yields_operand h)

theorem yields_minus (hb : Blank b) (h : Yields productions (.ref .unary) w) :
    Yields productions (.ref .unary) ('-' :: (b ++ w)) :=
  .ref (.alt_left (.seq .word (.seq (ws_iff.mpr hb) h)))

theorem yields_number (hw : Yields productions (.ref .number) w) (hb : Blank b) :
    Yields productions (.ref .unary) (w ++ b) :=
  .ref (.alt_right (.ref (.seq (.alt_left hw) (ws_iff.mpr hb))))

theorem yields_parentheses {b' : List Char} (hb : Blank b) (h : Yields productions (.ref .expr) w)
    (hb' : Blank b') : Yields productions (.ref .unary) ('(' :: (b ++ (w ++ ')' :: b'))) := by
  have hinner : Yields productions (.seq (.word ['(']) (.seq (.ref .ws)
      (.seq (.ref .expr) (.word [')'])))) ('(' :: (b ++ (w ++ [')']))) :=
    .seq (u := ['(']) .word (.seq (ws_iff.mpr hb) (.seq h .word))
  have hfactor : Yields productions (.ref .factor) ('(' :: (b ++ (w ++ [')'])) ++ b') :=
    .ref (.seq (.alt_right hinner) (ws_iff.mpr hb'))
  have hunary : Yields productions (.ref .unary) ('(' :: (b ++ (w ++ [')'])) ++ b') :=
    .ref (.alt_right hfactor)
  simpa using hunary

end Words

/-! ### Numbers -/

/-- The texts of numbers. -/
def Numeral (w : List Char) : Prop := Yields productions (.ref .number) w

/-- Whether the character may occur in a number. -/
def isNumeric (c : Char) : Bool := c.isDigit || c == '.'

theorem isDigit_iff : c.isDigit = true ↔ '0' ≤ c ∧ c ≤ '9' := by
  simp [Char.isDigit, Char.le_def]

theorem digits_iff : Yields productions (.some (.range '0' '9')) w ↔
    w ≠ [] ∧ ∀ c ∈ w, c.isDigit = true := by
  rw [Form.range, Yields.some_one_iff]
  simp only [isDigit_iff, Bool.and_eq_true, decide_eq_true_eq]

/-- A number consists of digits, and perhaps a point and digits behind it. -/
theorem numeral_iff : Numeral w ↔ ∃ ds, (ds ≠ [] ∧ ∀ c ∈ ds, c.isDigit = true) ∧
    (w = ds ∨ ∃ fs, (fs ≠ [] ∧ ∀ c ∈ fs, c.isDigit = true) ∧ w = ds ++ '.' :: fs) := by
  rw [Numeral, Yields.ref_iff, productions, Yields.seq_iff]
  simp only [Yields.opt_iff, Yields.seq_iff, Yields.word_iff, digits_iff]
  constructor
  · rintro ⟨ds, _, rfl, hds, rfl | ⟨_, fs, rfl, rfl, hfs⟩⟩
    · exact ⟨ds, hds, .inl (List.append_nil _)⟩
    · exact ⟨ds, hds, .inr ⟨fs, hfs, rfl⟩⟩
  · rintro ⟨ds, hds, rfl | ⟨fs, hfs, rfl⟩⟩
    · exact ⟨_, [], (List.append_nil _).symm, hds, .inl rfl⟩
    · exact ⟨ds, '.' :: fs, rfl, hds, .inr ⟨['.'], fs, rfl, rfl, hfs⟩⟩

/-- A number begins with a digit. -/
theorem Numeral.exists_cons (h : Numeral w) : ∃ c t, w = c :: t ∧ c.isDigit = true := by
  obtain ⟨ds, ⟨hne, hds⟩, hw⟩ := numeral_iff.mp h
  obtain ⟨c, t, rfl⟩ := List.exists_cons_of_ne_nil hne
  rcases hw with rfl | ⟨fs, -, rfl⟩
  · exact ⟨c, t, rfl, hds c List.mem_cons_self⟩
  · exact ⟨c, t ++ '.' :: fs, rfl, hds c List.mem_cons_self⟩

theorem Numeral.isNumeric (h : Numeral w) : ∀ c ∈ w, isNumeric c = true := by
  obtain ⟨ds, ⟨-, hds⟩, rfl | ⟨fs, ⟨-, hfs⟩, rfl⟩⟩ := numeral_iff.mp h
  · exact fun c hc => by rw [Calc.isNumeric, hds c hc, Bool.true_or]
  · intro c hc
    simp only [List.mem_append, List.mem_cons] at hc
    rcases hc with hc | rfl | hc
    · rw [Calc.isNumeric, hds c hc, Bool.true_or]
    · rfl
    · rw [Calc.isNumeric, hfs c hc, Bool.true_or]

/-- Every number can be read as a decimal. -/
theorem Numeral.isSome_ofText? {s : String} (h : Numeral s.toList) :
    (Decimal.ofText? s).isSome = true := by
  have split (ds t : List Char) (hds : ∀ c ∈ ds, c.isDigit = true)
      (ht : ∀ c, t.head? = some c → c.isDigit = false) :
      (ds ++ t).takeWhile Char.isDigit = ds := by
    rw [List.takeWhile_append_of_pos hds]
    cases t with
    | nil => simp
    | cons c t => simp [ht c rfl]
  obtain ⟨ds, ⟨hne, hds⟩, hs⟩ := numeral_iff.mp h
  obtain ⟨d, ds, rfl⟩ := List.exists_cons_of_ne_nil hne
  rcases hs with hs | ⟨fs, ⟨hfs, hfd⟩, hs⟩
  · have hwhole := split _ [] hds nofun
    rw [List.append_nil] at hwhole
    simp [Decimal.ofText?, hs, hwhole]
  · have hwhole := split _ ('.' :: fs) hds (by simp)
    rw [List.cons_append] at hwhole
    simp [Decimal.ofText?, hs, hwhole, hfs]
    exact hfd

end Calc

end Peg
