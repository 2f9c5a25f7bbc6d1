import Peg.Calc.Command
import Peg.Proofs.Calc.Captures
import Peg.Proofs.Calc.Evaluation
import Peg.Proofs.Command

/-!
# The grammar and the evaluation agree

An input is matched exactly if its tokens are to be read as a tree, and tokens have a value exactly if
they are. So the tokens that a match captures always have a value
(`Peg.Calc.exists_evaluate_of_match`), the evaluation of tokens and the match of their texts go
together (`Peg.Calc.evaluate_iff_match`), and the command never fails for want of a value.
-/

namespace Peg

namespace Calc

variable {α : Type} {A : Arithmetic α} {ts : List Token} {t : Tree} {w : List Char}
  {settings : Settings} {input : Array Char} {parse : Parse}

theorem Lexes.valid (h : Lexes w ts) : ∀ t ∈ ts, t.Valid := by
  induction h with
  | nil => simp
  | cons ht _ _ _ ih => exact List.forall_mem_cons.mpr ⟨ht, ih⟩

/-- The tokens of texts of tokens are these tokens. -/
theorem tokens_eq {r : Reader} {captures : List Capture} (hts : ∀ t ∈ ts, t.Valid)
    (h : captures.filterMap r.captured = ts.map Token.text) : tokens r captures = ts := by
  rw [tokens, h, List.map_map]
  exact (List.map_congr_left fun t ht => Token.ofText_text (hts t ht)).trans (List.map_id _)

/-- Where every number has a value, so has every tree. -/
theorem exists_evaluate (hA : ∀ s : String, Numeral s.toList → (A.ofText s).isSome = true)
    (hts : ∀ t ∈ ts, t.Valid) (ht : Parses .sum ts t) : ∃ v, A.evaluate ts = some v := by
  obtain ⟨v, hv⟩ := ht.exists_value fun s hs => hA s (hts _ hs)
  exact ⟨v, Arithmetic.evaluate_eq_some.mpr ⟨t, ht, hv⟩⟩

/-- **The tokens that a match captures** are those of the input, and they are to be read as a tree. -/
theorem parses_of_match
    (h : Parser.parseChars { grammar := expressions, settings } input = .ok parse)
    (hm : parse.outcome.matched = true) :
    ∃ b w ts t, input.toList = b ++ w ∧ Blank b ∧ Lexes w ts ∧ Parses .sum ts t ∧
      parse.outcome.captures.filterMap (Reader.captured { input }) = ts.map Token.text := by
  obtain ⟨hlimit, hmax⟩ := Settings.le_effectiveLimit_iff.mp (Parser.run_eq_ok_iff.mp h).1
  obtain ⟨parse', h', hiff, hmatch, -⟩ := exists_parse settings hmax hlimit
  obtain rfl := Except.ok.inj (h'.symm.trans h)
  obtain ⟨cs, hd, ho⟩ := hmatch hm
  obtain ⟨b, w, ts, hw, hb, hlex, hts⟩ := exists_lexes hmax hd ho
  obtain ⟨t, ht⟩ := (yields_program_iff hb hlex).mp (hw ▸ hiff.mp hm)
  exact ⟨b, w, ts, t, hw, hb, hlex, ht, hts⟩

/-- **The tokens that a match captures have a value.** -/
theorem exists_evaluate_of_match
    (hA : ∀ s : String, Numeral s.toList → (A.ofText s).isSome = true)
    (h : Parser.parseChars { grammar := expressions, settings } input = .ok parse)
    (hm : parse.outcome.matched = true) :
    ∃ v, A.evaluate (tokens { input } parse.outcome.captures) = some v := by
  obtain ⟨b, w, ts, t, -, -, hlex, ht, hts⟩ := parses_of_match h hm
  rw [tokens_eq hlex.valid hts]
  exact exists_evaluate hA hlex.valid ht

/-- The numbers of the program have values. -/
theorem isSome_ofText_double (s : String) (h : Numeral s.toList) :
    (Arithmetic.double.ofText s).isSome = true := by
  rw [Arithmetic.double, Option.isSome_map]
  exact h.isSome_ofText?

/-- **The command never fails for want of a value.** -/
theorem always_command (q : Request) :
    (command q).Always fun r => r ≠ .error .noExpression := by
  unfold command
  refine Command.always_bind ((Command.always_parser_grammar _ _).mono ?_)
  rintro (e | p) hp
  · exact fun he => hp (Except.error.inj he)
  refine Command.always_bind (Command.always_orFail.mono ?_)
  rintro _ (⟨parse, hparse, rfl⟩ | ⟨e, -, rfl⟩)
  swap
  · exact nofun
  have hsummary : ∃ text, summary q (Reader.ofString q.expression) parse.outcome = .ok text := by
    rw [summary]
    split
    · rename_i hm
      obtain ⟨grammar, settings⟩ := p
      obtain rfl : expressions = grammar := Except.ok.inj (grammar_eq.symm.trans hp)
      obtain ⟨v, hv⟩ := exists_evaluate_of_match isSome_ofText_double hparse
        (Bool.and_eq_true_iff.mp hm).1
      have hvalue : Arithmetic.double.evaluate
          (tokens (Reader.ofString q.expression) parse.outcome.captures) = some v := hv
      exact ⟨_, by rw [hvalue]⟩
    · exact ⟨_, rfl⟩
  obtain ⟨text, htext⟩ := hsummary
  refine Command.always_bind (Command.always_orFail.mono ?_)
  rintro _ (⟨text', -, rfl⟩ | ⟨e, he, rfl⟩)
  · refine (Command.always_finish _ _ _ _).mono ?_
    rintro _ rfl
    exact nofun
  · simp [htext] at he

/-- The tokens with a space between any two. -/
def spaced (ts : List Token) : String := " ".intercalate (ts.map Token.text)

theorem lexes_spaced (hts : ∀ t ∈ ts, t.Valid) : Lexes (spaced ts).toList ts := by
  rw [spaced, String.toList_intercalate, List.map_map]
  exact Lexes.join hts

/-- **The grammar and the evaluation agree**, whatever the operations are, if every number has a
value. Tokens have a value exactly if their texts with spaces between them are matched; the bounds
of the evaluation make no difference; the texts that are then captured are those of the tokens; and
the value is that of the one tree that the tokens are to be read as. The tokens that are captured
from an input that is matched, whichever it is, have a value, and so the command never fails for want
of one. -/
theorem evaluate_iff_match :
    ∃ g, grammar = .ok g ∧
      (∀ {α : Type} (A : Arithmetic α),
        (∀ s : String, Numeral s.toList → (A.ofText s).isSome = true) →
          (∀ (settings : Settings) (ts : List Token), (∀ t ∈ ts, t.Valid) →
            (spaced ts).length ≤ Capture.maxOffset → (spaced ts).length ≤ settings.limit →
              (∀ bound, ts.length ≤ bound →
                A.sum (A.operand bound) ts = A.sum (A.operand ts.length) ts) ∧
              ∃ parse, Parser.parse { grammar := g, settings } (spaced ts) = .ok parse ∧
                ((∃ v, A.evaluate ts = some v) ↔ parse.outcome.matched = true) ∧
                (parse.outcome.matched = true →
                  parse.outcome.captures.filterMap (Reader.ofString (spaced ts)).captured =
                      ts.map Token.text ∧
                    ∃ t, Parses .sum ts t ∧ (∀ t', Parses .sum ts t' → t' = t) ∧
                      A.evaluate ts = t.value A)) ∧
          ∀ (settings : Settings) (input : Array Char) (parse : Parse),
            Parser.parseChars { grammar := g, settings } input = .ok parse →
              parse.outcome.matched = true →
                ∃ v, A.evaluate (tokens { input } parse.outcome.captures) = some v) ∧
      ∀ (q : Request) (out : String), ((command q).run.run out).1 ≠ .error .noExpression := by
  refine ⟨expressions, grammar_eq, fun A hA => ⟨fun settings ts hts hmax hlimit => ?_,
    fun settings input parse h hm => exists_evaluate_of_match hA h hm⟩, always_command⟩
  refine ⟨fun bound hb => Arithmetic.sum_operand_of_le hb, ?_⟩
  let input : Array Char := (spaced ts).toList.toArray
  have hsize : input.size = (spaced ts).length := String.length_toList
  have hlex := lexes_spaced hts
  have hfits : input.size ≤ Capture.maxOffset := by omega
  obtain ⟨parse, hparse, hiff, -, -⟩ := exists_parse settings hfits (by omega)
  -- the texts are matched exactly if there is a tree
  have htree : parse.outcome.matched = true ↔ ∃ t, Parses .sum ts t :=
    hiff.trans (yields_program_iff (b := []) blank_nil hlex)
  refine ⟨parse, hparse, ?_, fun hm => ?_⟩
  · rw [htree]
    constructor
    · rintro ⟨v, hv⟩
      obtain ⟨t, ht, -⟩ := Arithmetic.evaluate_eq_some.mp hv
      exact ⟨t, ht⟩
    · rintro ⟨t, ht⟩
      exact exists_evaluate hA hts ht
  · obtain ⟨b, w, us, t, hw, hb, hlex', ht, htexts⟩ := parses_of_match hparse hm
    obtain rfl := hlex.unique_of_append hlex' blank_nil hb hw
    obtain ⟨v, hv⟩ := ht.exists_value fun s hs => hA s (hts _ hs)
    refine ⟨htexts, t, ht, fun t' ht' => ht'.unique ht, ?_⟩
    rw [hv]
    exact Arithmetic.evaluate_eq_some.mpr ⟨t, ht, hv⟩

theorem evaluate_iff_match_negative :
    ∃ g parse, grammar = .ok g ∧ (spaced [.minus, .number "1"]).length ≤ Capture.maxOffset ∧
      (∀ s : String, Numeral s.toList → (Arithmetic.double.ofText s).isSome = true) ∧
      Parser.parse { grammar := g } (spaced [.minus, .number "1"]) = .ok parse ∧
      parse.outcome.matched = true ∧
      ∃ v, Arithmetic.double.evaluate [.minus, .number "1"] = some v := by
  have hone : Numeral "1".toList := numeral_iff.mpr ⟨['1'], by simp, .inl rfl⟩
  have hts : ∀ t ∈ [Token.minus, .number "1"], t.Valid := by
    simpa [Token.Valid] using hone
  have hlength : (spaced [.minus, .number "1"]).length ≤ Capture.maxOffset := by decide
  have htree : Parses .sum [.minus, .number "1"] (.negative (.number "1")) :=
    .sum (.product (.minus .number))
  obtain ⟨g, hg, h, -⟩ := evaluate_iff_match
  obtain ⟨-, parse, hparse, hiff, -⟩ :=
    (h Arithmetic.double isSome_ofText_double).1 {} [.minus, .number "1"] hts hlength hlength
  have hvalue : ∃ v, Arithmetic.double.evaluate [.minus, .number "1"] = some v :=
    exists_evaluate isSome_ofText_double hts htree
  exact ⟨g, parse, hg, hlength, isSome_ofText_double, hparse, hiff.mp hvalue, hvalue⟩

end Calc

end Peg
