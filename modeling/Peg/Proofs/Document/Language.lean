import Peg.Document.Command
import Peg.Proofs.Language.Form

/-!
# The language of JSON

The context-free grammar of JSON texts, written down on its own account and not after the rules that
documents are parsed with. Its tokens bring the blanks around them along: each of the six structural
characters may have blanks on both sides, so that the blanks between two tokens belong to either and
a value may begin and end with some. There are six kinds of values (`Peg.Document.Kind`).
-/

namespace Peg

namespace Document

/-- The symbols of the grammar. -/
inductive Symbol
  | text | ws
  | beginArray | beginObject | endArray | endObject | nameSeparator | valueSeparator
  | value | object | member | array
  | number | int | frac | exp
  | string | char | unescaped | hexdig

/-- Whether the character is a blank. -/
def isBlank (c : Char) : Bool := [' ', '\t', '\n', '\r'].contains c

/-- A structural character, with blanks around it. -/
def mark (c : Char) : Form Symbol := .seq (.ref .ws) (.seq (.word [c]) (.ref .ws))

/-- A character of a string that is written with a backslash. -/
def escape : Form Symbol :=
  .seq (.word ['\\'])
    (.alt (.oneOf ['"', '\\', '/', 'b', 'f', 'n', 'r', 't'])
      (.seq (.word ['u'])
        (.seq (.ref .hexdig) (.seq (.ref .hexdig) (.seq (.ref .hexdig) (.ref .hexdig))))))

/-- **The grammar of JSON texts.** -/
def productions : Symbol → Form Symbol
  | .text => .seq (.ref .ws) (.seq (.ref .value) (.ref .ws))
  | .ws => .many (.one isBlank)
  | .beginArray => mark '['
  | .beginObject => mark '\x7b'
  | .endArray => mark ']'
  | .endObject => mark '\x7d'
  | .nameSeparator => mark ':'
  | .valueSeparator => mark ','
  | .value =>
    .alt (.word ['f', 'a', 'l', 's', 'e'])
      (.alt (.word ['n', 'u', 'l', 'l'])
        (.alt (.word ['t', 'r', 'u', 'e'])
          (.alt (.ref .object) (.alt (.ref .array) (.alt (.ref .number) (.ref .string))))))
  | .object =>
    .seq (.ref .beginObject)
      (.seq (.opt (.separated (.ref .valueSeparator) (.ref .member))) (.ref .endObject))
  | .member => .seq (.ref .string) (.seq (.ref .nameSeparator) (.ref .value))
  | .array =>
    .seq (.ref .beginArray)
      (.seq (.opt (.separated (.ref .valueSeparator) (.ref .value))) (.ref .endArray))
  | .number =>
    .seq (.opt (.word ['-'])) (.seq (.ref .int) (.seq (.opt (.ref .frac)) (.opt (.ref .exp))))
  | .int => .alt (.word ['0']) (.seq (.range '1' '9') (.many (.range '0' '9')))
  | .frac => .seq (.word ['.']) (.some (.range '0' '9'))
  | .exp =>
    .seq (.oneOf ['e', 'E']) (.seq (.opt (.oneOf ['-', '+'])) (.some (.range '0' '9')))
  | .string => .seq (.word ['"']) (.seq (.many (.ref .char)) (.word ['"']))
  | .char => .alt (.ref .unescaped) escape
  | .unescaped =>
    .alt (.range ' ' '!') (.alt (.range '#' '[') (.range ']' (Char.ofNat 0x10ffff)))
  | .hexdig => .alt (.range '0' '9') (.alt (.range 'a' 'f') (.range 'A' 'F'))

/-- The kinds of values. -/
inductive Kind
  | object | array | string | number | boolean | null
deriving DecidableEq

namespace Kind

/-- The values of the kind. -/
def form : Kind → Form Symbol
  | object => .ref .object
  | array => .ref .array
  | string => .ref .string
  | number => .ref .number
  | boolean => .alt (.word ['t', 'r', 'u', 'e']) (.word ['f', 'a', 'l', 's', 'e'])
  | null => .word ['n', 'u', 'l', 'l']

/-- The kind as it is called. -/
def name : Kind → String
  | object => "object"
  | array => "array"
  | string => "string"
  | number => "number"
  | boolean => "boolean"
  | null => "null"

end Kind

variable {w : List Char}

/-- A value is a value of some kind. -/
theorem value_iff : Yields productions (.ref .value) w ↔ ∃ k : Kind, Yields productions k.form w := by
  rw [Yields.ref_iff]
  constructor
  · simp only [productions, Yields.alt_iff]
    rintro (h | h | h | h | h | h | h)
    · exact ⟨.boolean, .alt_right h⟩
    · exact ⟨.null, h⟩
    · exact ⟨.boolean, .alt_left h⟩
    · exact ⟨.object, h⟩
    · exact ⟨.array, h⟩
    · exact ⟨.number, h⟩
    · exact ⟨.string, h⟩
  · rintro ⟨k, h⟩
    simp only [productions, Yields.alt_iff]
    cases k with
    | boolean => exact (Yields.alt_iff.mp h).elim (fun h => .inr (.inr (.inl h))) .inl
    | _ => simp only [Kind.form] at h; simp only [h, true_or, or_true]

/-! ### Blanks -/

/-- Nothing but blanks. -/
def Blank (w : List Char) : Prop := ∀ c ∈ w, isBlank c = true

theorem blank_nil : Blank [] := by simp [Blank]

theorem Blank.append {u v : List Char} (h : Blank u) (h' : Blank v) : Blank (u ++ v) :=
  fun _ hc => (List.mem_append.mp hc).elim (h _) (h' _)

theorem ws_iff : Yields productions (.ref .ws) w ↔ Blank w := by
  rw [Yields.ref_iff, productions, Yields.many_one_iff, Blank]

theorem mark_iff {c : Char} :
    Yields productions (mark c) w ↔ ∃ u v, w = u ++ c :: v ∧ Blank u ∧ Blank v := by
  simp only [mark, Yields.seq_iff, Yields.word_iff, ws_iff]
  constructor
  · rintro ⟨u, _, rfl, hu, _, v, rfl, rfl, hv⟩
    exact ⟨u, v, rfl, hu, hv⟩
  · rintro ⟨u, v, rfl, hu, hv⟩
    exact ⟨u, c :: v, rfl, hu, [c], v, rfl, rfl, hv⟩

end Document

end Peg
