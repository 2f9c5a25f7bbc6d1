import Peg.Proofs.Calc.Lexing
import Peg.Proofs.Calc.Rules
import Peg.Proofs.Semantics.Division

/-!
# The captures of an arithmetic expression are its tokens

Every character of an arithmetic expression but the blanks is captured, and so the captures of a
match divide the input (`Peg.Calc.divided_of_program`). Each of them is a token. A repetition of
digits takes all the digits there are, and therefore no number goes on behind its capture; neither
could it begin before it. What was tried and given up leaves no captures behind, and so the texts
captured are the tokens of the input (`Peg.Calc.exists_lexes`) and together they are the input
without its blanks (`Peg.Calc.parse_iff_program`).
-/

namespace Peg

/-- The text between the two offsets of what was read. -/
theorem Reads.extract {input : Array Char} {p q : Nat} {w : List Char} (h : Reads input p q w) :
    (input.extract p q).toList = w := by
  obtain ⟨rfl, hw⟩ := h
  rw [Array.toList_extract, List.extract_eq_take_drop, Nat.add_sub_cancel_left, hw, List.take_left]

/-- What was read begins with the next character. -/
theorem Reads.head? {input : Array Char} {p q : Nat} {c : Char} {w : List Char}
    (h : Reads input p q (c :: w)) : input[p]? = some c :=
  getElem?_of_drop h.2

namespace Calc

variable {input : Array Char} {p q s t : Nat} {cs : List (Nat × Nat)}

/-! ### What is captured -/

/-- A number as the rule for numbers reads it. -/
def numeral : Expr := .seq (.plus .digit) (.opt (.seq (.char '.') (.plus .digit)))

/-- All that stands in captures. -/
def captured : List Expr :=
  [.alt (.char '+') (.char '-'), .alt (.char '*') (.char '/'), .char '-', .char '(', .char ')',
    numeral]

/-- A token lies between two offsets. Behind a number there is no digit. -/
def TokenAt (input : Array Char) (p q : Nat) : Prop :=
  ∃ t : Token, t.Valid ∧ Reads input p q t.chars ∧
    (t.isNumber = true → ∀ c, input[q]? = some c → c.isDigit = false)

/-- Behind a row of digits there is no digit. -/
theorem not_isDigit_of_digits (h : Derives expressions.trees input (.plus .digit) p (.matches q cs))
    {c : Char} (hc : input[q]? = some c) : c.isDigit = false := by
  cases h with
  | plus_matches _ hs =>
    have hstill (p : Nat) (cs : List (Nat × Nat)) :
        ¬Derives expressions.trees input .digit p (.matches p cs) := by
      intro h
      generalize hv : Verdict.matches p cs = v at h
      cases h with
      | range_matches => simp at hv
      | range_fails => cases hv
    have := hs.not_accepts_of_star hc hstill
    rw [Bool.eq_false_iff, Ne, isDigit_iff]
    simpa [Expr.digit, Expr.accepts] using this

/-- The rule for numbers reads a number, as far as it goes. -/
theorem tokenAt_of_numeral
    (h : Derives expressions.trees input numeral p (.matches q cs)) : TokenAt input p q := by
  obtain ⟨w, hw, hs⟩ := h.spells readsOne_expressions
  have hform : Numeral w := .ref (Expr.Mirrors.yields mirrors_symbol hs
    (.seq mirrors_digits (.opt (.seq .char mirrors_digits))))
  refine ⟨.number (String.ofList w), ?_, ?_, fun _ c hc => ?_⟩
  · rwa [Token.Valid, String.toList_ofList]
  · rwa [Token.chars, Token.text, String.toList_ofList]
  · cases h with
    | seq_matches hwhole hopt =>
      cases hopt with
      | opt_none => exact not_isDigit_of_digits hwhole hc
      | opt_some hfraction =>
        cases hfraction with
        | seq_matches _ hdigits => exact not_isDigit_of_digits hdigits hc

/-- **Whatever is captured is a token.** -/
theorem tokenAt_of_captured (h : Derives.Token expressions.trees input captured p q) :
    TokenAt input p q := by
  obtain ⟨e, he, h⟩ := h
  by_cases hnum : e = numeral
  · exact tokenAt_of_numeral (hnum ▸ h)
  · obtain ⟨w, hw, hs⟩ := h.spells readsOne_expressions
    have hchars : ∃ t : Token, t.Valid ∧ t.isNumber = false ∧ t.chars = w := by
      simp only [captured, List.mem_cons, hnum, List.not_mem_nil, or_false] at he
      rcases he with rfl | rfl | rfl | rfl | rfl <;>
        simp only [Spells.alt_iff, Spells.char_iff] at hs
      · rcases hs with rfl | rfl
        · exact ⟨.plus, trivial, rfl, rfl⟩
        · exact ⟨.minus, trivial, rfl, rfl⟩
      · rcases hs with rfl | rfl
        · exact ⟨.times, trivial, rfl, rfl⟩
        · exact ⟨.divide, trivial, rfl, rfl⟩
      · exact ⟨.minus, trivial, rfl, hs.symm⟩
      · exact ⟨.opening, trivial, rfl, hs.symm⟩
      · exact ⟨.closing, trivial, rfl, hs.symm⟩
    obtain ⟨t, ht, hn, rfl⟩ := hchars
    exact ⟨t, ht, hw, fun hnumber => by simp [hn] at hnumber⟩

/-- A token is one character, or a number behind which there is no digit. -/
theorem TokenAt.single_or_numeral (h : TokenAt input p q) :
    (q = p + 1 ∧ ∃ c ∈ ['+', '-', '*', '/', '(', ')'], input[p]? = some c) ∨
      ∃ w, Numeral w ∧ Reads input p q w ∧ ∀ c, input[q]? = some c → c.isDigit = false := by
  obtain ⟨t, ht, hread, hend⟩ := h
  rcases hn : t.isNumber with _ | _
  · obtain ⟨c, hmem, hc⟩ := Token.exists_chars hn
    rw [hc] at hread
    exact .inl ⟨hread.1, c, hmem, hread.head?⟩
  · exact .inr ⟨t.chars, ht.numeral hn, hread, hend hn⟩

theorem TokenAt.lt (h : TokenAt input p q) : p < q := by
  rcases h.single_or_numeral with ⟨rfl, -⟩ | ⟨w, hw, ⟨rfl, -⟩, -⟩
  · omega
  · obtain ⟨c, r, rfl, -⟩ := hw.exists_cons
    rw [List.length_cons]
    omega

/-- **A match of the root divides the input** into tokens and blanks. -/
theorem divided_of_program
    (h : Derives expressions.trees input (called "program") 0 (.matches q cs)) :
    Divided input (· == ' ') (TokenAt input) 0 q cs := by
  refine (h.divided (fun id e hid => ?_) expressions.trees_ne_primitive rfl).imp
    fun p q => tokenAt_of_captured
  exact forall_tree (P := fun _ e => e.divides (· == ' ') captured) (by decide) hid

/-! ### Where numbers begin and end -/

/-- Before a number there is no digit and no point. -/
theorem not_isNumeric_before (h : Divided input (· == ' ') (TokenAt input) 0 q cs)
    (hst : (s, t) ∈ cs) {d : Char} (hd : input[s]? = some d) (hdigit : d.isDigit = true)
    {c : Char} (hs : 0 < s) (hc : input[s - 1]? = some c) : isNumeric c = false := by
  rcases h.before (fun _ _ => TokenAt.lt) hst hs with ⟨c', hc', hgap⟩ | ⟨r, hr⟩
  · obtain rfl := Option.some.inj (hc.symm.trans hc')
    rw [eq_of_beq hgap]
    rfl
  · rcases hr.single_or_numeral with ⟨rfl, c', hmem, hc'⟩ | ⟨-, -, -, hend⟩
    · obtain rfl := Option.some.inj (hc.symm.trans hc')
      exact Token.isNumeric_eq_false hmem
    · -- a number before would have taken the digit
      exact absurd (hend d hd) (by simp [hdigit])

/-- After a number there is no digit and no point. -/
theorem not_isNumeric_after (h : Divided input (· == ' ') (TokenAt input) 0 input.size cs)
    (hst : (s, t) ∈ cs) (hend : ∀ c, input[t]? = some c → c.isDigit = false) {c : Char}
    (hc : input[t]? = some c) : isNumeric c = false := by
  rcases h.after hst (Array.getElem?_eq_some_iff.mp hc).1 with ⟨c', hc', hgap⟩ | ⟨r, hr⟩
  · obtain rfl := Option.some.inj (hc.symm.trans hc')
    rw [eq_of_beq hgap]
    rfl
  · rcases hr.single_or_numeral with ⟨-, c', hmem, hc'⟩ | ⟨w, hw, hread, -⟩
    · obtain rfl := Option.some.inj (hc.symm.trans hc')
      exact Token.isNumeric_eq_false hmem
    · -- a number after would begin with a digit
      obtain ⟨d, r, rfl, hdigit⟩ := hw.exists_cons
      exact absurd (hend d hread.head?) (by simp [hdigit])

/-- The text of the range is a number, and there is no greater range around it of which this is
true. -/
def MaximalNumeral (input : Array Char) (r : Nat × Nat) : Prop :=
  Numeral (input.extract r.1 r.2).toList ∧
    ∀ s : Nat × Nat, s.1 ≤ r.1 → r.2 ≤ s.2 → s.2 ≤ input.size →
      Numeral (input.extract s.1 s.2).toList → s = r

/-- What is between two offsets is part of the text between them. -/
theorem mem_extract {i : Nat} (hp : p ≤ i) (hq : i < q) {c : Char} (hc : input[i]? = some c) :
    c ∈ (input.extract p q).toList := by
  obtain ⟨hi, rfl⟩ := Array.getElem?_eq_some_iff.mp hc
  rw [Array.mem_toList_iff, Array.mem_extract_iff_getElem]
  exact ⟨i - p, by omega, by simp [Nat.add_sub_cancel' hp]⟩

/-- **No number is captured in part.** -/
theorem maximalNumeral_of_mem (h : Divided input (· == ' ') (TokenAt input) 0 input.size cs)
    (hst : (s, t) ∈ cs) {w : List Char} (hw : Numeral w) (hread : Reads input s t w)
    (hend : ∀ c, input[t]? = some c → c.isDigit = false) : MaximalNumeral input (s, t) := by
  obtain ⟨-, -, hlt, hle⟩ := h.of_mem (fun _ _ => TokenAt.lt) hst
  refine ⟨by rwa [hread.extract], fun ⟨a, b⟩ ha hb hsize hab => ?_⟩
  -- a character before or after the number would be part of the greater one
  have hbefore : ¬a < s := by
    intro hlt
    have hc : input[s - 1]? = some input[s - 1] := Array.getElem?_eq_getElem (by omega)
    obtain ⟨d, r, rfl, hdigit⟩ := hw.exists_cons
    have hnum := hab.isNumeric _ (mem_extract (p := a) (q := b) (by omega) (by omega) hc)
    rw [not_isNumeric_before h hst hread.head? hdigit (by omega) hc] at hnum
    cases hnum
  have hafter : ¬t < b := by
    intro hlt
    have hc : input[t]? = some input[t] := Array.getElem?_eq_getElem (by omega)
    have hnum := hab.isNumeric _ (mem_extract (p := a) (q := b) (by omega) (by omega) hc)
    rw [not_isNumeric_after h hst hend hc] at hnum
    cases hnum
  exact Prod.ext (by omega) (by omega)

/-! ### The tokens of the input -/

/-- What follows a number is no digit, so the number does not go on. -/
theorem Lexes.stops_of_not_isDigit {b w : List Char} {ts : List Token} (h : Lexes w ts)
    (hb : Blank b) (hw : ∀ c, (b ++ w).head? = some c → c.isDigit = false) : Stops (b ++ w) := by
  cases b with
  | cons c b =>
    rw [hb c List.mem_cons_self]
    exact stops_cons.mpr rfl
  | nil =>
    cases h with
    | nil => exact stops_nil
    | @cons t b' w' ts' ht hb' hstop h' =>
      rcases hn : t.isNumber with _ | _
      · exact (Lexes.cons ht hb' hstop h').stops hn
      · obtain ⟨d, r, hd, hdigit⟩ := (ht.numeral hn).exists_cons
        exact absurd (hw d (by simp [hd])) (by simp [hdigit])

/-- What is divided up to the end of the input is a row of tokens behind some blanks. -/
theorem lexes_of_divided (h : Divided input (· == ' ') (TokenAt input) p input.size cs) :
    ∃ b w ts, input.toList.drop p = b ++ w ∧ Blank b ∧ Lexes w ts ∧
      cs.map (fun r => (input.extract r.1 r.2).toList) = ts.map Token.chars := by
  generalize hsize : input.size = n at h
  induction h with
  | nil => exact ⟨[], [], [], List.drop_eq_nil_of_le (by simp [hsize]), blank_nil, .nil, rfl⟩
  | @gap p q c cs hc hgap _ ih =>
    obtain ⟨b, w, ts, hrest, hb, hw, hts⟩ := ih hsize
    refine ⟨' ' :: b, w, ts, ?_, List.forall_mem_cons.mpr ⟨rfl, hb⟩, hw, hts⟩
    rw [drop_of_getElem? hc, hrest, eq_of_beq hgap, List.cons_append]
  | @token p q r cs ht _ ih =>
    obtain ⟨b, w, ts, hrest, hb, hw, hts⟩ := ih hsize
    obtain ⟨t, ht, hread, hend⟩ := ht
    have hstop (hn : t.isNumber = true) : Stops (b ++ w) :=
      hw.stops_of_not_isDigit hb fun c hc => hend hn c (by rw [← head?_drop_toList, hrest, hc])
    refine ⟨[], t.chars ++ (b ++ w), t :: ts, ?_, blank_nil, .cons ht hb hstop hw, ?_⟩
    · rw [hread.2, hrest, List.nil_append]
    · rw [List.map_cons, List.map_cons, hts, hread.extract]

/-- **What a match leaves behind**: everything was read, and the ranges captured are those of the
tokens. Each is one character, an operator or a parenthesis, or a number of which nothing is left
out; they follow one another; and their texts are the characters of the input that are no blanks. -/
structure TokenStream (input : Array Char) (o : Outcome) : Prop where
  position : o.position = input.size
  ranges : ∃ rs : List (Nat × Nat), o.captures.map Capture.range? = rs.map some ∧
    o.captures.filterMap (Reader.captured { input }) =
      rs.map (fun r => String.ofList (input.extract r.1 r.2).toList) ∧
    (∀ r ∈ rs, r.1 < r.2 ∧ r.2 ≤ input.size ∧
      ((∃ c ∈ ['+', '-', '*', '/', '(', ')'], (input.extract r.1 r.2).toList = [c]) ∨
        MaximalNumeral input r)) ∧
    rs.Pairwise fun a b => a.2 ≤ b.1
  texts : ((o.captures.filterMap (Reader.captured { input })).map String.toList).flatten =
    input.toList.filter (· != ' ')

/-- The captures of ranges that fit, and what they cover. -/
theorem captured_ofRange (hcs : ∀ r ∈ cs, r.1 ≤ Capture.maxOffset ∧ r.2 ≤ Capture.maxOffset) :
    (cs.map fun r => Capture.ofRange r.1 r.2).map Capture.range? = cs.map some ∧
      (cs.map fun r => Capture.ofRange r.1 r.2).filterMap (Reader.captured { input }) =
        cs.map fun r => String.ofList (input.extract r.1 r.2).toList := by
  have hrange (r : Nat × Nat) (hr : r ∈ cs) : (Capture.ofRange r.1 r.2).range? = some r :=
    Capture.range?_ofRange (hcs r hr).1 (hcs r hr).2
  refine ⟨?_, ?_⟩
  · rw [List.map_map]
    exact List.map_congr_left hrange
  · rw [List.filterMap_map, ← List.filterMap_eq_map]
    refine List.filterMap_congr fun r hr => ?_
    rw [Function.comp_apply, Reader.captured, hrange r hr]
    rfl

section Program

variable {o : Outcome} (hsize : input.size ≤ Capture.maxOffset)
  (h : Derives expressions.trees input (called "program") 0 (.matches input.size cs))
  (ho : (Verdict.matches input.size cs).Recorded o)
include hsize h ho

/-- The captures of a match are the ranges of the match, and what they cover. -/
theorem captured_of_program : o.captures.map Capture.range? = cs.map some ∧
    o.captures.filterMap (Reader.captured { input }) =
      cs.map fun r => String.ofList (input.extract r.1 r.2).toList := by
  rw [ho.2.2]
  refine captured_ofRange fun r hr => ?_
  obtain ⟨-, -, hlt, hle⟩ := (divided_of_program h).of_mem (fun _ _ => TokenAt.lt) hr
  omega

/-- **The texts that a match captures are the tokens of the input**, in order. -/
theorem exists_lexes : ∃ b w ts, input.toList = b ++ w ∧ Blank b ∧ Lexes w ts ∧
    o.captures.filterMap (Reader.captured { input }) = ts.map Token.text := by
  obtain ⟨b, w, ts, hw, hb, hlex, hts⟩ := lexes_of_divided (divided_of_program h)
  refine ⟨b, w, ts, hw, hb, hlex, ?_⟩
  rw [(captured_of_program hsize h ho).2]
  have htexts := congrArg (List.map String.ofList) hts
  simpa [Token.chars, Function.comp_def] using htexts

/-- A match leaves behind the tokens of the input. -/
theorem tokenStream_of_match : TokenStream input o where
  position := ho.2.1
  ranges := by
    obtain ⟨hranges, htexts⟩ := captured_of_program hsize h ho
    have hdivided := divided_of_program h
    refine ⟨cs, hranges, htexts, fun ⟨s, t⟩ hr => ?_, hdivided.pairwise fun _ _ => TokenAt.lt⟩
    obtain ⟨htoken, -, hlt, hle⟩ := hdivided.of_mem (fun _ _ => TokenAt.lt) hr
    refine ⟨hlt, hle, ?_⟩
    rcases htoken.single_or_numeral with ⟨rfl, c, hmem, hc⟩ | ⟨w, hw, hread, hend⟩
    · exact .inl ⟨c, hmem, (Reads.one hc).extract⟩
    · exact .inr (maximalNumeral_of_mem hdivided hr hw hread hend)
  texts := by
    obtain ⟨b, w, ts, hw, hb, hlex, hts⟩ := exists_lexes hsize h ho
    have hblank : b.filter (· != ' ') = [] :=
      List.filter_eq_nil_iff.mpr fun c hc => by simpa using hb c hc
    rw [hts, hw, List.filter_append, hblank, List.nil_append, ← hlex.flatten_chars, List.map_map]
    rfl

end Program

/-- **The captures of an arithmetic expression are its tokens.** The grammar is built, and every
parse by its root of an input whose offsets fit into captures comes to an end. It matches exactly if
the input is a word of the grammar; then it leaves behind what `Peg.Calc.TokenStream` says, and
otherwise nothing is captured. -/
theorem parse_iff_program :
    ∃ g, grammar = .ok g ∧
      ∀ (settings : Settings) (input : Array Char), input.size ≤ Capture.maxOffset →
        input.size ≤ settings.limit →
          ∃ parse, Parser.parseChars { grammar := g, settings } input = .ok parse ∧
            (parse.outcome.matched = true ↔
              Yields productions (.ref .program) input.toList) ∧
            (parse.outcome.matched = true → TokenStream input parse.outcome) ∧
            (parse.outcome.matched = false → parse.outcome.captures = []) := by
  refine ⟨expressions, grammar_eq, fun settings input hsize hlimit => ?_⟩
  obtain ⟨parse, hparse, hiff, hmatch, hfail⟩ := exists_parse settings hsize hlimit
  refine ⟨parse, hparse, hiff, fun hm => ?_, hfail⟩
  obtain ⟨cs, h, ho⟩ := hmatch hm
  exact tokenStream_of_match hsize h ho

theorem parse_iff_program_sum :
    ∃ g parse, grammar = .ok g ∧ #['1', '.', '5', ' ', '+', '2'].size ≤ Capture.maxOffset ∧
      Parser.parseChars { grammar := g } #['1', '.', '5', ' ', '+', '2'] = .ok parse ∧
      parse.outcome.matched = true ∧
      TokenStream #['1', '.', '5', ' ', '+', '2'] parse.outcome := by
  have hleft : Numeral ['1', '.', '5'] :=
    numeral_iff.mpr ⟨['1'], by simp, .inr ⟨['5'], by simp, rfl⟩⟩
  have hright : Numeral ['2'] := numeral_iff.mpr ⟨['2'], by simp, .inl rfl⟩
  have hterm : Yields productions (.ref .term) (['1', '.', '5'] ++ [' ']) :=
    yields_term (yields_number hleft (by simp [Blank]))
  have hexpr : Yields productions (.ref .expr) (['1', '.', '5'] ++ [' '] ++ '+' :: ([] ++ ['2'])) :=
    .ref (yields_operands (yields_operand hterm) (by decide) blank_nil
      (yields_term (yields_number hright blank_nil)))
  have hprogram : Yields productions (.ref .program) ['1', '.', '5', ' ', '+', '2'] :=
    .ref (.seq (ws_iff.mpr blank_nil) hexpr)
  obtain ⟨g, hg, h⟩ := parse_iff_program
  obtain ⟨parse, hparse, hiff, hstream, -⟩ :=
    h {} #['1', '.', '5', ' ', '+', '2'] (by decide) (by decide)
  exact ⟨g, parse, hg, by decide, hparse, hiff.mpr hprogram, hstream (hiff.mpr hprogram)⟩

end Calc

end Peg
