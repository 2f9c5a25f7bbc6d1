import Peg.Proofs.Capture
import Peg.Proofs.Document.Spelling
import Peg.Proofs.Grammar.Build
import Peg.Proofs.Matching.LeftRecursion
import Peg.Proofs.Semantics.Adequacy
import Peg.Proofs.Semantics.Prediction

/-!
# Documents are JSON

A document is accepted exactly if it is a JSON text, however deep and however long, and then what is
captured is its value, without the blanks around it (`Peg.Document.parse_iff`).

Every parse comes to an end, since there are no left calls in a circle, and what it comes to can be
derived. What a match has read is spelled by the rules (`Peg.Derives.spells`) and so it is a JSON
text. The other way round, the next character decides everywhere in the rules
(`Peg.Document.decided_documents`), and so nothing that they spell is lost.
-/

namespace Peg

namespace Document

/-! ### The rules -/

/-- A rule that means a tree is the tree. -/
theorem body_of_table {id : RuleId} {e : Expr} (h : table id = some (.tree e)) :
    documents.body? id = some (.tree e) := by
  obtain ⟨b | start, hb, hm⟩ := Option.map_eq_some_iff.mp h
  · obtain rfl : b = e := by simpa using hm
    exact hb
  · simp at hm

/-- What holds of the rules one by one holds of every tree. -/
theorem forall_tree {P : RuleId → Expr → Bool}
    (h : ∀ id < documents.size, (documents.body? id).all (fun b => b.tree?.all (P id)) = true)
    {id : RuleId} {e : Expr} (he : table id = some (.tree e)) : P id e = true := by
  have hbody := body_of_table he
  have hid := h id (Grammar.lt_size_of_body hbody)
  simpa [hbody, Body.tree?] using hid

theorem resolved_documents : documents.Resolved := (Draft.checked_of_build grammar_eq).resolved

theorem binds_of_table {id : RuleId} {e : Expr} (h : table id = some (.tree e)) :
    documents.Binds e :=
  resolved_documents.binds_of_body (body_of_table h)

theorem readsOne_table : ReadsOne table := by
  intro id f h
  obtain ⟨b | start, hb, hm⟩ := Option.map_eq_some_iff.mp h
  · simp at hm
  · exact ⟨Text.isHexDigit, by simpa using hm.symm⟩

/-- The only native rule reads a hexadecimal digit. -/
theorem native_eq {id : RuleId} {start : State → Script}
    (h : documents.body? id = some (.native start)) : start = hexDigit := by
  have hall : ∀ d ∈ documents.rules, ∀ start, d.body = .native start → start = hexDigit := by
    simp [documents, Draft.bound, draft, Body.bind]
  obtain ⟨d, hd, hbody⟩ := Option.map_eq_some_iff.mp h
  exact hall d (List.mem_of_getElem? hd) start hbody

/-- The course of the native rule. -/
theorem hexDigit_eq (s : State) :
    ∃ b t, hexDigit s = .done b t ∧ s.Reaches t ∧ (b = true → s.offset < t.offset) ∧
      (Verdict.one Text.isHexDigit s.input s.offset).Describes s b t := by
  have hcur : s.reader.current? = s.input[s.offset]? := rfl
  rw [hexDigit, hcur]
  rcases hget : s.input[s.offset]? with _ | c
  · refine ⟨false, _, rfl, .of_offset_eq rfl rfl, nofun, ?_⟩
    simp [Verdict.one, hget, Verdict.Describes]
  · have hstep := s.offset_advance_of_lt (Array.getElem?_eq_some_iff.mp hget).1
    rcases hc : Text.isHexDigit c with _ | _
    · simp only [Option.any_some, hc]
      refine ⟨false, _, rfl, .of_offset_eq rfl rfl, nofun, ?_⟩
      simp [Verdict.one, hget, hc, Verdict.Describes]
    · simp only [Option.any_some, hc, if_true]
      refine ⟨true, _, rfl, .advance s, fun _ => by omega, ?_⟩
      simp [Verdict.one, hget, hc, Verdict.Describes, hstep]

theorem nativesRead_documents : documents.NativesRead := by
  intro id start hid s
  rw [native_eq hid]
  obtain ⟨b, t, hstart, hr, hread, -⟩ := hexDigit_eq s
  exact ⟨b, t, hstart, hr, hread⟩

/-- The table says what the rules mean. -/
theorem means_table : documents.Means table where
  tree hid := by simp [table, hid]
  native hid := by
    refine ⟨Verdict.one Text.isHexDigit, by simp [table, hid], fun s => ?_⟩
    rw [native_eq hid]
    obtain ⟨b, t, hstart, -, -, hd⟩ := hexDigit_eq s
    exact ⟨b, t, hstart, hd⟩
  missing hid := by simp [table, hid]

/-! ### Every parse comes to an end -/

theorem acyclic_documents (id : RuleId) : ¬Relation.TransGen (documents.LeftCall true) id id :=
  Digraph.acyclic_of_cycle? (by decide +kernel) id

theorem evaluate_documents (goal : Goal) (s : State) :
    ∃ b t, documents.evaluate goal s = some (b, t) :=
  Grammar.evaluate_of_not_reenters nativesRead_documents
    (Grammar.not_reenters_of_acyclic nativesRead_documents acyclic_documents _ s)

/-- Every expression has a verdict everywhere. -/
theorem exists_verdict {input : Array Char} (e : Expr) (p : Nat) (he : documents.Binds e) :
    ∃ v, Derives table input e p v := by
  obtain ⟨b, t, h⟩ := evaluate_documents (.expr e) { reader := { input, offset := p } }
  obtain ⟨v, hv, -⟩ := Grammar.derives_of_runs means_table resolved_documents he
    (Grammar.runs_of_attempt (Grammar.evaluate_eq_some.mp h))
  exact ⟨v, hv⟩

/-! ### The next character decides -/

/-- What may come after a rule, for those where it matters. -/
def follow : RuleId → Outlook
  | 1 | 8 => { Outlook.oneOf [' ', '\t', '\n', '\r', ',', ']', '\x7d'] with ends := true }
  | 2 => .oneOf [',', ']', '\x7d']
  | 4 => .oneOf [',', '\x7d']
  | 9 => Outlook.everything.except (oneOf [' ', '\t', '\n', '\r'])
  | _ => .everything

/-- **The next character decides** in every rule, if one looks four calls ahead. -/
theorem decided_documents {id : RuleId} {e : Expr} (h : table id = some (.tree e)) :
    e.decided (.ofRule table 4) follow (follow id) = true :=
  forall_tree (P := fun id e => e.decided (.ofRule table 4) follow (follow id))
    (by decide +kernel) h

/-- The root matches what it spells at the end of the input. -/
theorem derives_json {input : Array Char}
    (h : Spells table (called "json") input.toList []) :
    ∃ cs, Derives table input (called "json") 0 (.matches input.size cs) := by
  have hb : documents.Binds (called "json") := Grammar.binds_call.mpr ⟨0, rfl, by decide⟩
  have hp : input.toList.drop 0 = input.toList ++ [] := (List.append_nil _).symm
  obtain ⟨cs, hd⟩ := derives_of_spells readsOne_table (fun _ _ => binds_of_table)
    exists_verdict (fun _ _ => decided_documents) (F := .everything) h (by decide)
    (Outlook.has_everything _) hb hp
  exact ⟨cs, by simpa using hd⟩

/-! ### What is captured -/

/-- Only the root captures anything. -/
theorem silent_documents {id : RuleId} {e : Expr} (hid : (id != 0) = true)
    (h : table id = some (.tree e)) : e.silent (· != 0) = true := by
  have := forall_tree (P := fun id e => id == 0 || e.silent (· != 0)) (by decide +kernel) h
  simp_all

theorem captures_eq_nil {input : Array Char} {e : Expr} {p q : Nat} {cs : List (Nat × Nat)}
    (h : Derives table input e p (.matches q cs)) (he : e.silent (· != 0) = true) : cs = [] := by
  refine h.captures_eq_nil (fun _ _ => silent_documents) (fun id f p q cs hid hf => ?_) he
  obtain ⟨accepts, rfl⟩ := readsOne_table id f hid
  exact (Verdict.one_eq_matches hf).elim fun _ h => h.2.2.2

/-- **A match of the root** captures the value, and nothing else, and reads everything. -/
theorem match_json {input : Array Char} {q : Nat} {cs : List (Nat × Nat)}
    (h : Derives table input (called "json") 0 (.matches q cs)) :
    ∃ u v w, input.toList = u ++ (v ++ w) ∧ (Blank u ∧ Blank w) ∧ TightValue v ∧
      q = input.size ∧ cs = [(u.length, u.length + v.length)] := by
  have hbody : Derives table input (.seq (called "ws") (.seq (.capture (called "value"))
      (.seq (called "ws") .endOfInput))) 0 (.matches q cs) := h.tree_of_call rfl rfl
  cases hbody with
  | seq_matches hu hbody =>
    cases hbody with
    | seq_matches hv hbody =>
      cases hbody with
      | seq_matches hw hend =>
        cases hv with
        | capture_matches hv =>
          cases hend with
          | end_matches hend =>
            -- the parts capture nothing, so the capture of the value is the only one
            obtain rfl := captures_eq_nil hu rfl
            obtain rfl := captures_eq_nil hv rfl
            obtain rfl := captures_eq_nil hw rfl
            obtain ⟨u, hu, hus⟩ := hu.spells readsOne_table
            obtain ⟨v, hv, hvs⟩ := hv.spells readsOne_table
            obtain ⟨w, hw, hws⟩ := hw.spells readsOne_table
            obtain ⟨hq, hread⟩ := hu.append (hv.append hw)
            rw [List.drop_zero, List.drop_eq_nil_of_le (by simpa using hend),
              List.append_nil] at hread
            refine ⟨u, v, w, hread, ⟨spells_ws.mp hus, spells_ws.mp hws⟩, spells_value.mp hvs,
              ?_, ?_⟩
            · rw [hq, ← hread, Array.length_toList, Nat.zero_add]
            · simp [hv.1, hu.1]

/-- The root spells the JSON texts. -/
theorem spells_json {w : List Char} :
    Spells table (called "json") w [] ↔ Yields productions (.ref .text) w := by
  have hbody : Spells table (called "json") w [] ↔ Spells table (.seq (called "ws")
      (.seq (.capture (called "value")) (.seq (called "ws") .endOfInput))) w [] :=
    called_iff rfl rfl
  rw [hbody, text_iff]
  simp only [Spells.seq_iff (a := called "ws"), Spells.seq_iff (a := .capture (called "value")),
    Spells.capture_iff, Spells.endOfInput_iff, spells_ws, spells_value]
  constructor
  · rintro ⟨u, _, rfl, hu, v, _, rfl, hv, w, _, rfl, hw, rfl, -⟩
    exact ⟨u, v, w, by simp, hu, hw, hv⟩
  · rintro ⟨u, v, w, rfl, hu, hw, hv⟩
    exact ⟨u, v ++ w, rfl, hu, v, w, rfl, hv, w, [], by simp, hw, rfl, trivial⟩

/-! ### Documents -/

theorem Kind.name_inj {k k' : Kind} (h : k.name = k'.name) : k = k' := by
  cases k <;> cases k' <;> first | rfl | exact absurd h (by decide)

/-- **What a match of a document leaves behind**: everything was read, and one range was captured,
which is that of the value without the blanks around it. The summary tells the kind of the value and
how long it is. -/
def Recognized (input : Array Char) (o : Outcome) : Prop :=
  o.position = input.size ∧
    ∃ u v w k, input.toList = u ++ (v ++ w) ∧ (Blank u ∧ Blank w) ∧ Tight v ∧
      (Yields productions (Kind.form k) v ∧ ∀ k', Yields productions (Kind.form k') v → k' = k) ∧
      (∃ c, o.captures = [c] ∧ c.range? = some (u.length, u.length + v.length)) ∧
      summary { input } o =
        some ("valid JSON " ++ k.name ++ " (" ++ toString v.length ++ " characters)")

/-- The summary of a match with one capture. -/
theorem summary_eq {r : Reader} {o : Outcome} {c : Capture} {first : Char} {t : List Char}
    (ho : o.captures = [c]) (hc : (r.captured c).map String.toList = some (first :: t)) :
    summary r o =
      some ("valid JSON " ++ kind first ++ " (" ++ toString c.length ++ " characters)") := by
  obtain ⟨x, hx, hxt⟩ := Option.map_eq_some_iff.mp hc
  simp [summary, ho, hx, hxt]

theorem recognized_of_match {input : Array Char} {q : Nat} {cs : List (Nat × Nat)} {o : Outcome}
    (hsize : input.size ≤ Capture.maxOffset)
    (h : Derives table input (called "json") 0 (.matches q cs)) (hq : o.position = q)
    (hcs : o.captures = cs.map fun r => Capture.ofRange r.1 r.2) : Recognized input o := by
  obtain ⟨u, v, w, hread, hblank, ⟨hv, ht⟩, rfl, rfl⟩ := match_json h
  obtain ⟨k, hk⟩ := value_iff.mp hv
  obtain ⟨c, t, rfl, hc⟩ := kind_of_tight hk ht
  have hlen : u.length + (c :: t).length ≤ input.size := by
    rw [← Array.length_toList, hread, List.length_append, List.length_append]
    omega
  obtain ⟨c', ho, hrange⟩ : ∃ c', o.captures = [c'] ∧
      c'.range? = some (u.length, u.length + (c :: t).length) :=
    ⟨_, hcs, Capture.range?_ofRange (by omega) (by omega)⟩
  refine ⟨hq, u, c :: t, w, k, hread, hblank, ht, ⟨hk, fun k' hk' => ?_⟩, ⟨c', ho, hrange⟩, ?_⟩
  · -- the first character tells the kind, so there is no other
    obtain ⟨d, t', heq, hd⟩ := kind_of_tight hk' ht
    obtain ⟨rfl, -⟩ := List.cons.inj heq
    exact Kind.name_inj (hd.symm.trans hc)
  · have hcaptured : (Reader.captured { input } c').map String.toList = some (c :: t) := by
      rw [Reader.captured, hrange, Option.map_some, Option.map_some]
      simp only [Reader.slice, String.toList_ofList, Array.toList_extract,
        List.extract_eq_take_drop, hread, List.drop_left, Nat.add_sub_cancel_left]
      rw [List.take_left]
    have hlength : c'.length = (c :: t).length := by
      rw [Capture.length, hrange]
      exact Nat.add_sub_cancel_left _ _
    rw [summary_eq ho hcaptured, hlength, hc]

/-- **Documents are JSON.** The grammar is built, and every parse by its root of an input whose
offsets fit into captures comes to an end. It matches exactly if the input is a JSON text; then it
leaves behind what `Peg.Document.Recognized` says, and otherwise nothing is captured. -/
theorem parse_iff :
    ∃ g, grammar = .ok g ∧
      ∀ (settings : Settings) (input : Array Char), input.size ≤ Capture.maxOffset →
        input.size ≤ settings.limit →
          ∃ parse, Parser.parseChars { grammar := g, settings } input = .ok parse ∧
            (parse.outcome.matched = true ↔ Yields productions (.ref .text) input.toList) ∧
            (parse.outcome.matched = true → Recognized input parse.outcome) ∧
            (parse.outcome.matched = false → parse.outcome.captures = []) := by
  refine ⟨documents, grammar_eq, fun settings input hsize hlimit => ?_⟩
  let p : Parser := { grammar := documents, settings }
  -- the parse comes to an end
  obtain ⟨b, t, he⟩ := evaluate_documents (.rule 0) (p.start 0 input)
  have hrun : p.parseChars input = .ok (p.finish 0 b t) := by
    have hle : ¬input.size > settings.effectiveLimit := by
      rw [Settings.effectiveLimit]
      omega
    have hrun? : p.run? 0 input = some (p.finish 0 b t) := by
      rw [Parser.run?, he]
      rfl
    change p.run 0 input = _
    rw [Parser.run, if_neg hle, hrun?]
  refine ⟨_, hrun, ?_⟩
  -- and what it comes to can be derived
  obtain ⟨v, hv, hd⟩ : ∃ v, Derives table input (called "json") 0 v ∧
      v.Describes (p.start 0 input) b t :=
    Grammar.explained_of_runs means_table resolved_documents
      (Grammar.runs_of_attempt (Grammar.evaluate_eq_some.mp he)) (by decide)
      { name := "json", id := some 0 } rfl
  cases v with
  | fails =>
    obtain ⟨-, rfl, hcs⟩ := hd
    refine ⟨⟨nofun, fun htext => ?_⟩, nofun, fun _ => ?_⟩
    · -- a text would be matched, and what matches does not fail
      obtain ⟨cs, hmatch⟩ := derives_json (spells_json.mpr htext)
      exact absurd hv (means_table.not_fails hmatch)
    · change t.captures.toList = []
      rw [hcs]
      rfl
  | «matches» q cs =>
    obtain ⟨-, rfl, hq, hcs⟩ := hd
    have hr : Recognized input (p.finish 0 true t).outcome := recognized_of_match hsize hv hq hcs
    refine ⟨⟨fun _ => ?_, fun _ => rfl⟩, fun _ => hr, nofun⟩
    obtain ⟨u, v, w, hread, ⟨hu, hw⟩, hval, -⟩ := match_json hv
    exact text_iff.mpr ⟨u, v, w, hread, hu, hw, hval⟩

theorem parse_iff_number :
    ∃ g parse, grammar = .ok g ∧ #[' ', '4', '2', '\n'].size ≤ Capture.maxOffset ∧
      Parser.parseChars { grammar := g } #[' ', '4', '2', '\n'] = .ok parse ∧
      parse.outcome.matched = true ∧ Recognized #[' ', '4', '2', '\n'] parse.outcome := by
  have hnumber : Yields productions (.ref .number) ([] ++ ((['4'] ++ (['2'] ++ [])) ++ ([] ++ []))) :=
    .ref (.seq .opt_nil (.seq (.ref (.alt_right (.seq (.one rfl) (.many_cons (.one rfl) .many_nil))))
      (.seq .opt_nil .opt_nil)))
  have htext : Yields productions (.ref .text) [' ', '4', '2', '\n'] :=
    text_iff.mpr ⟨[' '], ['4', '2'], ['\n'], rfl, by simp [Blank, isBlank], by simp [Blank, isBlank],
      value_iff.mpr ⟨.number, hnumber⟩, tight_number hnumber⟩
  obtain ⟨g, hg, h⟩ := parse_iff
  obtain ⟨parse, hparse, hiff, hr, -⟩ := h {} #[' ', '4', '2', '\n'] (by decide) (by decide)
  exact ⟨g, parse, hg, by decide, hparse, hiff.mpr htext, hr (hiff.mpr htext)⟩

end Document

end Peg
