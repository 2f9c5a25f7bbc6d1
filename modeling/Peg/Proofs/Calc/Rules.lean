import Peg.Calc.Grammar
import Peg.Proofs.Calc.Language
import Peg.Proofs.Grammar.Build
import Peg.Proofs.Language.Mirror
import Peg.Proofs.Parser.Run

/-!
# What the rules of arithmetic expressions match

The rules are written like the productions of the grammar, and so they spell its words
(`Peg.Calc.agrees_called`). As the next character decides everywhere in them
(`Peg.Calc.decided_expressions`), they also match what they spell. Hence a parse matches exactly the
words of the grammar, and then it has read everything (`Peg.Calc.exists_parse`).
-/

namespace Peg

namespace Calc

/-- The grammar of arithmetic expressions, with each call led to its rule. -/
def expressions : Grammar := { rules := draft.bound, root := some 0 }

/-- The grammar is built. -/
theorem grammar_eq : grammar = .ok expressions := rfl

/-- The call of a rule of arithmetic expressions. -/
def called (name : String) : Expr := (Expr.rule name).bind expressions.find?

theorem allTrees_expressions : expressions.AllTrees := by
  unfold Grammar.AllTrees
  decide

theorem resolved_expressions : expressions.Resolved := (Draft.checked_of_build grammar_eq).resolved

theorem acyclic_expressions (id : RuleId) :
    ¬Relation.TransGen (expressions.LeftCall true) id id :=
  Digraph.acyclic_of_cycle? (by decide +kernel) id

/-- What holds of the rules one by one holds of every tree. -/
theorem forall_tree {P : RuleId → Expr → Bool}
    (h : ∀ id < expressions.size, (expressions.body? id).all (fun b => b.tree?.all (P id)) = true)
    {id : RuleId} {e : Expr} (he : expressions.trees id = some (.tree e)) : P id e = true := by
  have hbody := Grammar.body_of_trees he
  have hid := h id (Grammar.lt_size_of_body hbody)
  simpa [hbody, Body.tree?] using hid

theorem readsOne_expressions : ReadsOne expressions.trees :=
  fun id f hid => absurd hid (expressions.trees_ne_primitive id f)

/-! ### The rules spell the words of the grammar -/

/-- The symbol that a rule stands for. The end of the input is no matter of forms, and so the root
stands for none. -/
def symbol : RuleId → Option Symbol
  | 1 => some .expr
  | 2 => some .term
  | 3 => some .unary
  | 4 => some .factor
  | 5 => some .number
  | 6 => some .ws
  | _ => none

/-- One of two characters. -/
theorem mirrors_operator (a b : Char) :
    (operator a b).Mirrors symbol (.oneOf [a, b] : Form Symbol) :=
  .capture (.one rfl fun c => by simp [Expr.accepts, beq_eq_decide])

/-- Expressions with operators between them. -/
theorem mirrors_operands {name : String} {a b : Char} {id : RuleId} {n : Symbol}
    (hid : expressions.find? name = some id) (hn : symbol id = some n) :
    ((operands name a b).bind expressions.find?).Mirrors symbol (operandsOf n [a, b]) :=
  .seq (.call hid hn)
    (.star (.seq (mirrors_operator a b) (.seq (.call rfl rfl) (.call hid hn))))

/-- A digit at least. -/
theorem mirrors_digits :
    (Expr.plus .digit).Mirrors symbol (.some (.range '0' '9') : Form Symbol) :=
  .plus (.one rfl fun _ => rfl)

/-- **Each rule mirrors the production of its symbol.** -/
theorem mirrors_symbol (id : RuleId) (n : Symbol) (h : symbol id = some n) :
    ∃ e, expressions.trees id = some (.tree e) ∧ e.Mirrors symbol (productions n) := by
  unfold symbol at h
  split at h <;> cases h
  · exact ⟨_, rfl, mirrors_operands rfl rfl⟩
  · exact ⟨_, rfl, mirrors_operands rfl rfl⟩
  · exact ⟨_, rfl, .alt (.seq (.capture .char) (.seq (.call rfl rfl) (.call rfl rfl)))
      (.call rfl rfl)⟩
  · exact ⟨_, rfl, .seq (.alt (.call rfl rfl) (.seq (.capture .char) (.seq (.call rfl rfl)
      (.seq (.call rfl rfl) (.capture .char))))) (.call rfl rfl)⟩
  · exact ⟨_, rfl, .capture (.seq mirrors_digits (.opt (.seq .char mirrors_digits)))⟩
  · exact ⟨_, rfl, .star .char⟩

/-- The call of a rule spells the words of its symbol. -/
theorem agrees_called {name : String} {id : RuleId} {n : Symbol}
    (hid : expressions.find? name = some id) (hn : symbol id = some n) :
    Agrees expressions.trees productions (called name) (.ref n) :=
  Expr.Mirrors.agrees mirrors_symbol (.call hid hn)

/-- The root spells the words of the grammar. -/
theorem spells_program {w : List Char} :
    Spells expressions.trees (called "program") w [] ↔ Yields productions (.ref .program) w := by
  have hbody : Spells expressions.trees (called "program") w [] ↔
      Spells expressions.trees (.seq (called "ws") (.seq (called "expr") .endOfInput)) w [] :=
    Spells.call_tree_iff rfl rfl
  rw [hbody, Yields.ref_iff, productions, Yields.seq_iff]
  have hws : Agrees expressions.trees productions (called "ws") (.ref .ws) := agrees_called rfl rfl
  have hexpr : Agrees expressions.trees productions (called "expr") (.ref .expr) :=
    agrees_called rfl rfl
  simp only [Spells.seq_iff (a := called "ws"), Spells.seq_iff (a := called "expr"),
    Spells.endOfInput_iff, hws _ _, hexpr _ _]
  constructor
  · rintro ⟨u, _, rfl, hu, v, _, rfl, hv, rfl, -⟩
    exact ⟨u, v, by rw [List.append_nil], hu, hv⟩
  · rintro ⟨u, v, rfl, hu, hv⟩
    exact ⟨u, v, rfl, hu, v, [], (List.append_nil v).symm, hv, rfl, trivial⟩

/-! ### The rules match what they spell -/

/-- What may come after a rule. -/
def follow : RuleId → Outlook
  | 1 => { Outlook.oneOf [')'] with ends := true }
  | 2 => { Outlook.oneOf ['+', '-', ')'] with ends := true }
  | 3 | 4 => { Outlook.oneOf ['*', '/', '+', '-', ')'] with ends := true }
  | 5 => { Outlook.oneOf [' ', '*', '/', '+', '-', ')'] with ends := true }
  | 6 => Outlook.everything.except (.char ' ')
  | _ => .everything

/-- **The next character decides** in every rule, if one looks five calls ahead. -/
theorem decided_expressions {id : RuleId} {e : Expr} (h : expressions.trees id = some (.tree e)) :
    e.decided (.ofRule expressions.trees 5) follow (follow id) = true :=
  forall_tree (P := fun id e => e.decided (.ofRule expressions.trees 5) follow (follow id))
    (by decide +kernel) h

/-- The root matches what it spells at the end of the input. -/
theorem derives_program {input : Array Char}
    (h : Spells expressions.trees (called "program") input.toList []) :
    ∃ cs, Derives expressions.trees input (called "program") 0 (.matches input.size cs) := by
  have hb : expressions.Binds (called "program") := Grammar.binds_call.mpr ⟨0, rfl, by decide⟩
  have hp : input.toList.drop 0 = input.toList ++ [] := (List.append_nil _).symm
  have htotal (e : Expr) (p : Nat) (he : expressions.Binds e) :
      ∃ v, Derives expressions.trees input e p v :=
    Grammar.exists_derives allTrees_expressions resolved_expressions acyclic_expressions e p he
  obtain ⟨cs, hd⟩ := derives_of_spells readsOne_expressions
    (fun _ _ hid => resolved_expressions.binds_of_body (Grammar.body_of_trees hid)) htotal
    (fun _ _ => decided_expressions) (F := .everything) h (by decide) (Outlook.has_everything _)
    hb hp
  exact ⟨cs, by simpa using hd⟩

/-- A match of the root has read the whole input. -/
theorem eq_size_of_program {input : Array Char} {q : Nat} {cs : List (Nat × Nat)}
    (h : Derives expressions.trees input (called "program") 0 (.matches q cs)) :
    q = input.size := by
  have hle := (h.ranges expressions.trees_ne_primitive).1.2
  have hbody : Derives expressions.trees input (.seq (called "ws") (.seq (called "expr") .endOfInput))
      0 (.matches q cs) := h.tree_of_call rfl rfl
  cases hbody with
  | seq_matches _ hrest =>
    cases hrest with
    | seq_matches _ hend =>
      cases hend with
      | end_matches hend => omega

/-- **A parse matches exactly the words of the grammar**, and a match has read all of them. -/
theorem exists_parse (settings : Settings) {input : Array Char}
    (hsize : input.size ≤ Capture.maxOffset) (hlimit : input.size ≤ settings.limit) :
    ∃ parse, Parser.parseChars { grammar := expressions, settings } input = .ok parse ∧
      (parse.outcome.matched = true ↔ Yields productions (.ref .program) input.toList) ∧
      (parse.outcome.matched = true →
        ∃ cs, Derives expressions.trees input (called "program") 0 (.matches input.size cs) ∧
          (Verdict.matches input.size cs).Recorded parse.outcome) ∧
      (parse.outcome.matched = false → parse.outcome.captures = []) := by
  have heffective : input.size ≤ settings.effectiveLimit :=
    Settings.le_effectiveLimit_iff.mpr ⟨hlimit, hsize⟩
  have hroot : 0 < expressions.size := by decide
  obtain ⟨parse, v, hrun, hv, ho⟩ :=
    Parser.exists_recorded (p := { grammar := expressions, settings }) allTrees_expressions
      resolved_expressions acyclic_expressions hroot heffective "program"
  refine ⟨parse, hrun, ?_⟩
  cases v with
  | fails =>
    obtain ⟨hm, hcs⟩ := ho
    refine ⟨⟨fun h => absurd h (by simp [hm]), fun hw => ?_⟩, fun h => absurd h (by simp [hm]),
      fun _ => hcs⟩
    -- a word of the grammar would be matched, and what matches does not fail
    obtain ⟨cs, hmatch⟩ := derives_program (spells_program.mpr hw)
    exact absurd hv (allTrees_expressions.means.not_fails hmatch)
  | «matches» q cs =>
    obtain rfl := eq_size_of_program hv
    refine ⟨⟨fun _ => ?_, fun _ => ho.1⟩, fun _ => ⟨cs, hv, ho⟩, fun h => absurd ho.1 (by simp [h])⟩
    obtain ⟨w, ⟨-, hread⟩, hs⟩ := hv.spells readsOne_expressions
    have hdrop : input.toList.drop input.size = [] := List.drop_eq_nil_of_le (by simp)
    rw [hdrop] at hs hread
    rw [List.drop_zero, List.append_nil] at hread
    rw [hread]
    exact spells_program.mp hs

end Calc

end Peg
