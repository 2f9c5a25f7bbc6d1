import Peg.Document.Command
import Peg.Proofs.Document.Tight
import Peg.Proofs.Language.Agreement

/-!
# What the rules for documents spell

The rules that documents are parsed with, read as descriptions of texts, and compared with the
grammar of JSON. Blanks, strings and numbers have the same words in both
(`Peg.Document.agrees_ws`, `Peg.Document.agrees_string`, `Peg.Document.agrees_number`). A value of the
rules never begins or ends with a blank, and so it is a tight value of the grammar: this is
`Peg.Document.spells_value`, by induction on the length of the word, since what stands between
brackets is shorter.
-/

namespace Peg

namespace Document

/-- The grammar of JSON documents, with each call led to its rule. -/
def documents : Grammar := { rules := draft.bound, root := some 0 }

/-- The grammar is built. -/
theorem grammar_eq : grammar = .ok documents := rfl

/-- The call of a rule for documents. -/
def called (name : String) : Expr := (Expr.rule name).bind documents.find?

/-- What the rules mean: trees mean themselves, and the native rule reads a hexadecimal digit. -/
def table (id : RuleId) : Option Meaning :=
  (documents.body? id).map fun
    | .tree e => .tree e
    | .native _ => .primitive (Verdict.one Text.isHexDigit)

/-! ### Blanks, strings and numbers -/

section Chars

variable {c : Char}

theorem le_iff_toNat_le {c d : Char} : c ≤ d ↔ c.toNat ≤ d.toNat := Iff.rfl

theorem eq_iff_toNat_eq {c d : Char} : c = d ↔ c.toNat = d.toNat :=
  ⟨congrArg _, fun h => Char.ext (UInt32.toNat_inj.mp h)⟩

theorem isHexDigit_iff :
    Text.isHexDigit c = true ↔
      ('0' ≤ c ∧ c ≤ '9') ∨ ('a' ≤ c ∧ c ≤ 'f') ∨ ('A' ≤ c ∧ c ≤ 'F') := by
  have hdigit : c.isDigit = true ↔ '0' ≤ c ∧ c ≤ '9' := by
    simp [Char.isDigit, Char.le_def]
  unfold Text.isHexDigit Text.hexValue?
  split
  · rename_i h
    simp [hdigit.mp h]
  · rename_i h
    rw [hdigit] at h
    simp only [h, false_or]
    split
    · rename_i h
      simp [h]
    · rename_i h
      simp only [h, false_or]
      split <;> simp_all

/-- Of the characters, a string may contain all but quotation marks, backslashes and control
characters as they are. -/
theorem unescaped_iff :
    ((' ' ≤ c ∧ c ≤ '!') ∨ ('#' ≤ c ∧ c ≤ '[') ∨ (']' ≤ c ∧ c ≤ Char.ofNat 0x10ffff)) ↔
      ¬(c = '"' ∨ c = '\\' ∨ ('\x00' ≤ c ∧ c ≤ '\x1f')) := by
  have hmax : c.toNat < 0x110000 := by
    rcases c.valid with h | h
    · exact Nat.lt_trans h (by decide)
    · exact h.2
  simp only [le_iff_toNat_le, eq_iff_toNat_eq]
  -- between the space and the last code point only the quotation mark and the backslash are left out
  have hspace : ' '.toNat = 32 := rfl
  have hbang : '!'.toNat = 33 := rfl
  have hhash : '#'.toNat = 35 := rfl
  have hopen : '['.toNat = 91 := rfl
  have hclose : ']'.toNat = 93 := rfl
  have hlast : (Char.ofNat 0x10ffff).toNat = 0x10ffff := rfl
  have hquote : '"'.toNat = 34 := rfl
  have hslash : '\\'.toNat = 92 := rfl
  have hnull : '\x00'.toNat = 0 := rfl
  have hunit : '\x1f'.toNat = 31 := rfl
  omega

end Chars

theorem agrees_ws : Agrees table productions (called "ws") (.ref .ws) :=
  .call rfl rfl (.star (.oneOf ' ' ['\t', '\n', '\r']) (by simp))

theorem spells_ws {w r : List Char} : Spells table (called "ws") w r ↔ Blank w :=
  (agrees_ws w r).trans ws_iff

theorem agrees_hex : Agrees table productions (called "hex") (.ref .hexdig) := by
  have h : Agrees table productions (called "hex") (.one Text.isHexDigit) := .call_one rfl rfl
  refine h.congr fun w => ?_
  simp only [Yields.ref_iff, productions, Form.range, Yields.alt_iff, Yields.one_iff,
    Bool.and_eq_true, decide_eq_true_eq, isHexDigit_iff, and_or_left, exists_or]

theorem agrees_escape : Agrees table productions (called "escape") escape := by
  have h : Agrees table productions
      (.seq (.char '\\') (.alt (oneOf ['"', '\\', '/', 'b', 'f', 'n', 'r', 't'])
        (.seq (.char 'u')
          (.seq (called "hex") (.seq (called "hex") (.seq (called "hex") (called "hex")))))))
      escape :=
    .seq (.char '\\') (.alt (.oneOf '"' ['\\', '/', 'b', 'f', 'n', 'r', 't'])
      (.seq (.char 'u')
        (.seq agrees_hex (.seq agrees_hex (.seq agrees_hex agrees_hex)))))
  exact fun w r => (Spells.call_tree_iff rfl rfl).trans (h w r)

/-- What a string may not contain as it is. -/
def special : Expr := Expr.choiceOf [.char '"', .char '\\', .range '\x00' '\x1f']

theorem agrees_char :
    Agrees table productions (.alt (called "escape") (.seq (.notAhead special) .any))
      (.ref .char) := by
  -- the rules try the escapes first, which makes no difference to what is spelled
  refine (agrees_escape.alt (.except special)).congr fun w => ?_
  rw [Yields.ref_iff, productions, Yields.alt_iff, Yields.alt_iff, or_comm]
  refine or_congr ?_ Iff.rfl
  simp only [Yields.ref_iff (n := Symbol.unescaped), productions, Form.range, Yields.alt_iff,
    Yields.one_iff, ← exists_or, ← and_or_left]
  refine exists_congr fun c => and_congr_right fun _ => ?_
  have hspecial : special.accepts c = true ↔ c = '"' ∨ c = '\\' ∨ ('\x00' ≤ c ∧ c ≤ '\x1f') := by
    simp [special, Expr.choiceOf, Expr.accepts]
  simp only [Bool.and_eq_true, decide_eq_true_eq, unescaped_iff, ← hspecial, Bool.not_eq_true,
    Bool.not_eq_true']

theorem agrees_string : Agrees table productions (called "string") (.ref .string) := by
  refine .call rfl rfl (.seq (.char '"') (.seq (.star agrees_char ?_) (.char '"')))
  simp only [Yields.ref_iff, productions, escape, Form.range, Yields.alt_iff, Yields.one_iff,
    Yields.seq_iff, Yields.word_iff]
  simp

theorem agrees_digits :
    Agrees table productions (.star .digit) (.many (.range '0' '9')) :=
  .star (.range '0' '9') (by simp [Form.range])

theorem agrees_some_digits :
    Agrees table productions (.plus .digit) (.some (.range '0' '9')) :=
  .plus (.range '0' '9') (by simp [Form.range])

theorem agrees_number : Agrees table productions (called "number") (.ref .number) := by
  -- the two signs of an exponent are written the other way round
  have hsign : Agrees table productions (.alt (.char '+') (.char '-')) (.oneOf ['-', '+']) :=
    (Agrees.oneOf '+' ['-']).congr fun w => by simp [Form.oneOf, or_comm]
  have hint : Agrees table productions (.alt (.char '0') (.seq (.range '1' '9') (.star .digit)))
      (.ref .int) := .ref (.alt (.char '0') (.seq (.range '1' '9') agrees_digits))
  have hfrac : Agrees table productions (.seq (.char '.') (.plus .digit)) (.ref .frac) :=
    .ref (.seq (.char '.') agrees_some_digits)
  have hexp : Agrees table productions
      (.seq (.alt (.char 'e') (.char 'E'))
        (.seq (.opt (.alt (.char '+') (.char '-'))) (.plus .digit))) (.ref .exp) :=
    .ref (.seq (.oneOf 'e' ['E']) (.seq (.opt hsign) agrees_some_digits))
  exact .call rfl rfl (.seq (.opt (.char '-')) (.seq hint (.seq (.opt hfrac) (.opt hexp))))

/-! ### Brackets -/

section Brackets

variable {V : List Char → Prop} {item : Expr} {w r : List Char} {n : Nat}

/-- A comma and an item. -/
def further (item : Expr) : Expr := .seq (.char ',') (.seq (called "ws") item)

/-- Items with commas between them, but one at least. -/
def items (item : Expr) : Expr := .seq item (.star (further item))

/-- The item spells words of `V` with blanks after them, as far as words shorter than `n` go. -/
def ItemBelow (n : Nat) (V : List Char → Prop) (item : Expr) : Prop :=
  ∀ w r, w.length < n → (Spells table item w r ↔ ∃ c b, w = c ++ b ∧ V c ∧ Blank b)

theorem further_iff :
    Spells table (further item) w r ↔
      ∃ b v, w = ',' :: (b ++ v) ∧ Blank b ∧ Spells table item v r := by
  simp only [further, Spells.seq_iff (a := .char ','), Spells.char_iff, Spells.seq_iff, spells_ws]
  constructor
  · rintro ⟨_, _, rfl, rfl, b, v, rfl, hb, hv⟩
    exact ⟨b, v, rfl, hb, hv⟩
  · rintro ⟨b, v, rfl, hb, hv⟩
    exact ⟨[','], _, rfl, rfl, b, v, rfl, hb, hv⟩

/-- The blanks after a bracket or a comma go to the item that comes next. -/
theorem commas_of_items (hitem : ItemBelow n V item) (hw : w.length < n) {b : List Char}
    (hb : Blank b) (h : Spells table (items item) w r) : Commas V (b ++ w) := by
  have hpadded {v r : List Char} (hv : v.length < n) (h : Spells table item v r) : Padded V v := by
    obtain ⟨c, b, rfl, hc, hb⟩ := (hitem v r hv).mp h
    exact ⟨[], c, b, rfl, blank_nil, hb, hc⟩
  obtain ⟨v, s, rfl, hv, hs⟩ := Spells.seq_iff.mp h
  obtain ⟨ws, rfl, hws⟩ := hs.exists_of_star
  rw [List.length_append] at hw
  have hcommas : Commas V (b ++ v ++ ws.flatten) := by
    refine commas_flatten (.append_left hb (hpadded (by omega) hv)) fun u hu => ?_
    obtain ⟨-, r, hspells⟩ := hws u hu
    obtain ⟨b, v, rfl, hb, hv⟩ := further_iff.mp hspells
    have hlen := (List.sublist_flatten_of_mem hu).length_le
    simp only [List.length_cons, List.length_append] at hlen
    exact ⟨[], b ++ v, rfl, blank_nil, .append_left hb (hpadded (by omega) hv)⟩
  simpa using hcommas

theorem items_of_commas (hitem : ItemBelow n V item) {y : List Char} (hy : y.length < n)
    (h : Commas V y) : ∃ b w, y = b ++ w ∧ Blank b ∧ Spells table (items item) w r := by
  induction h with
  | one hp =>
    obtain ⟨b, c, b', rfl, hb, hb', hc⟩ := hp
    rw [List.length_append] at hy
    have hv := (hitem (c ++ b') r (by omega)).mpr ⟨c, b', rfl, hc, hb'⟩
    exact ⟨b, c ++ b', rfl, hb, Spells.seq_iff.mpr ⟨c ++ b', [], by simp, hv, .star_nil⟩⟩
  | @more p y hp _ ih =>
    obtain ⟨b, c, b', rfl, hb, hb', hc⟩ := hp
    simp only [List.length_append, List.length_cons] at hy
    obtain ⟨l, w, rfl, hl, hw⟩ := ih (by omega)
    obtain ⟨v, s, rfl, hv, hs⟩ := Spells.seq_iff.mp hw
    have hlen : (c ++ b').length < n := by
      rw [List.length_append]
      omega
    have hc := (hitem (c ++ b') (',' :: (l ++ v) ++ s ++ r) hlen).mpr ⟨c, b', rfl, hc, hb'⟩
    have hmore := Spells.star_cons (List.cons_ne_nil ',' (l ++ v))
      (further_iff.mpr ⟨l, v, rfl, hl, hv⟩) hs
    exact ⟨b, c ++ b' ++ (',' :: (l ++ v) ++ s), by simp, hb,
      Spells.seq_iff.mpr ⟨c ++ b', _, rfl, hc, hmore⟩⟩

/-- **What stands between brackets** is the same for the rules and for the grammar, if it is the same
for shorter items. -/
theorem spells_brackets {o c : Char} (hitem : ItemBelow w.length V item) :
    Spells table (.seq (.char o) (.seq (called "ws") (.seq (.opt (items item)) (.char c)))) w r ↔
      ∃ y, w = o :: (y ++ [c]) ∧ Inside V y := by
  simp only [Spells.seq_iff (a := .char o), Spells.seq_iff (a := called "ws"),
    Spells.seq_iff (a := .opt (items item)), Spells.char_iff, Spells.opt_iff, spells_ws]
  constructor
  · rintro ⟨_, _, rfl, rfl, b, _, rfl, hb, x, _, rfl, hx, rfl⟩
    refine ⟨b ++ x, by simp, ?_⟩
    rcases hx with rfl | hx
    · exact .inl (by simpa using hb)
    · refine .inr (commas_of_items hitem ?_ hb hx)
      simp only [List.length_append, List.length_cons]
      omega
  · rintro ⟨y, rfl, hy | hy⟩
    · exact ⟨[o], y ++ [c], rfl, rfl, y, [c], rfl, hy, [], [c], rfl, .inl rfl, rfl⟩
    · have hlen : y.length < (o :: (y ++ [c])).length := by
        rw [List.length_cons, List.length_append]
        omega
      obtain ⟨b, x, rfl, hb, hx⟩ := items_of_commas (r := [c] ++ r) hitem hlen hy
      exact ⟨[o], b ++ x ++ [c], rfl, rfl, b, x ++ [c], by simp, hb, x, [c], rfl, .inr hx, rfl⟩

end Brackets

/-! ### Values -/

section Values

variable {w r : List Char} {n : Nat}

theorem called_iff {name : String} {id : RuleId} {e : Expr} (hid : documents.find? name = some id)
    (he : documents.body? id = some (.tree e)) :
    Spells table (called name) w r ↔ Spells table e w r :=
  Spells.call_tree_iff hid (by simp [table, he])

/-- The rule for values spells the tight values, as far as words shorter than `n` go. -/
def ValueBelow (n : Nat) : Prop :=
  ∀ w r, w.length < n → (Spells table (called "value") w r ↔ TightValue w)

theorem ValueBelow.element (h : ValueBelow n) : ItemBelow n TightValue (called "element") := by
  intro w r hw
  have hbody : Spells table (called "element") w r ↔
      Spells table (.seq (called "value") (called "ws")) w r := called_iff rfl rfl
  rw [hbody, Spells.seq_iff]
  constructor
  · rintro ⟨u, v, rfl, hu, hv⟩
    rw [List.length_append] at hw
    exact ⟨u, v, rfl, (h u _ (by omega)).mp hu, spells_ws.mp hv⟩
  · rintro ⟨u, v, rfl, hu, hv⟩
    rw [List.length_append] at hw
    exact ⟨u, v, rfl, (h u _ (by omega)).mpr hu, spells_ws.mpr hv⟩

theorem ValueBelow.member (h : ValueBelow n) : ItemBelow n TightMember (called "member") := by
  intro w r hw
  have hbody : Spells table (called "member") w r ↔
      Spells table (.seq (called "string") (.seq (called "ws") (.seq (.char ':')
        (.seq (called "ws") (called "element"))))) w r := called_iff rfl rfl
  simp only [hbody, Spells.seq_iff (a := called "string"), Spells.seq_iff (a := called "ws"),
    Spells.seq_iff (a := .char ':'), Spells.char_iff, spells_ws, agrees_string _ _]
  constructor
  · rintro ⟨s, _, rfl, hs, b, _, rfl, hb, _, _, rfl, rfl, b', e, rfl, hb', he⟩
    simp only [List.length_append] at hw
    obtain ⟨v, b'', rfl, hv, hb''⟩ := (h.element e r (by omega)).mp he
    exact ⟨s ++ (b ++ ':' :: (b' ++ v)), b'', by simp, ⟨s, b, b', v, rfl, hs, ⟨hb, hb'⟩, hv⟩, hb''⟩
  · rintro ⟨_, b'', rfl, ⟨s, b, b', v, rfl, hs, ⟨hb, hb'⟩, hv⟩, hb''⟩
    simp only [List.length_append, List.length_cons] at hw
    have hlen : (v ++ b'').length < n := by
      rw [List.length_append]
      omega
    have he := (h.element (v ++ b'') r hlen).mpr ⟨v, b'', rfl, hv, hb''⟩
    exact ⟨s, b ++ ':' :: (b' ++ (v ++ b'')), by simp, hs, b, _, rfl, hb, [':'], _, rfl, rfl, b', _,
      rfl, hb', he⟩

/-- **The rule for values spells the tight values.** -/
theorem spells_value : Spells table (called "value") w r ↔ TightValue w := by
  -- by induction on the length: what stands between brackets is shorter by the brackets
  induction hn : w.length using Nat.strongRecOn generalizing w r with
  | ind n ih =>
    subst hn
    have hbelow : ValueBelow w.length := fun v r hv => ih v.length hv rfl
    have hobject : Spells table (called "object") w r ↔
        Yields productions (.ref .object) w ∧ Tight w :=
      (called_iff rfl rfl).trans ((spells_brackets hbelow.member).trans object_iff.symm)
    have harray : Spells table (called "array") w r ↔
        Yields productions (.ref .array) w ∧ Tight w :=
      (called_iff rfl rfl).trans ((spells_brackets hbelow.element).trans array_iff.symm)
    have hbody : Spells table (called "value") w r ↔
        Spells table (.alt (called "object") (.alt (called "array") (.alt (called "string")
          (.alt (called "number") (.alt (.text "true") (.alt (.text "false")
            (.text "null"))))))) w r := called_iff rfl rfl
    simp only [hbody, Spells.alt_iff, hobject, harray, agrees_string w r, agrees_number w r, Spells.text_iff]
    rw [TightValue, value_iff]
    constructor
    · rintro (⟨h, ht⟩ | ⟨h, ht⟩ | h | h | h | h | h)
      · exact ⟨⟨.object, h⟩, ht⟩
      · exact ⟨⟨.array, h⟩, ht⟩
      · exact ⟨⟨.string, h⟩, tight_string h⟩
      · exact ⟨⟨.number, h⟩, tight_number h⟩
      · have hw : Yields productions Kind.boolean.form w := .alt_left (h ▸ .word)
        exact ⟨⟨.boolean, hw⟩, tight_boolean hw⟩
      · have hw : Yields productions Kind.boolean.form w := .alt_right (h ▸ .word)
        exact ⟨⟨.boolean, hw⟩, tight_boolean hw⟩
      · have hw : Yields productions Kind.null.form w := h ▸ .word
        exact ⟨⟨.null, hw⟩, tight_null hw⟩
    · rintro ⟨⟨k, h⟩, ht⟩
      cases k with
      | object => exact .inl ⟨h, ht⟩
      | array => exact .inr (.inl ⟨h, ht⟩)
      | string => exact .inr (.inr (.inl h))
      | number => exact .inr (.inr (.inr (.inl h)))
      | boolean =>
        simp only [Kind.form, Yields.alt_iff, Yields.word_iff] at h
        rcases h with rfl | rfl
        · exact .inr (.inr (.inr (.inr (.inl rfl))))
        · exact .inr (.inr (.inr (.inr (.inr (.inl rfl)))))
      | null =>
        obtain rfl := Yields.word_iff.mp h
        exact .inr (.inr (.inr (.inr (.inr (.inr rfl)))))

end Values

end Document

end Peg
