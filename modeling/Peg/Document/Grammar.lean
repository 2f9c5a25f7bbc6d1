import Peg.Grammar.Build
import Peg.Text.Hex

/-!
# The grammar of JSON documents

A document is a JSON value with blanks around it; the value is captured, without the blanks. The
four hexadecimal digits of an escape are read by a native rule, which reports what it expected
when there is none.

* `json <- ws <value> ws EOI`
* `value <- object / array / string / number / "true" / "false" / "null"`
* `element <- value ws`
* `object <- '{' ws (member (',' ws member)*)? '}'`
* `member <- string ws ':' ws element`
* `array <- '[' ws (element (',' ws element)*)? ']'`
* `string <- '"' (escape / !('"' / '\\' / [\0-\x1f]) .)* '"'`
* `escape <- '\\' (["\\/bfnrt] / 'u' hex hex hex hex)`
* `number <- '-'? ('0' / [1-9] [0-9]*) ('.' [0-9]+)? ([eE] [+-]? [0-9]+)?`
* `ws <- [ \t\n\r]*`
-/

namespace Peg.Document

open Peg.Expr

/-- One hexadecimal digit. Where there is none, nothing is read. -/
def hexDigit (s : State) : Script :=
  if s.reader.current?.any Text.isHexDigit then .done true s.advance
  else .done false (s.record s.offset (.note "hex digit expected"))

/-- Any of the characters. -/
def oneOf (cs : List Char) : Expr := choiceOf (cs.map char)

/-- Nothing, or things of the given rule with commas between them. -/
def commaList (item : String) : Expr :=
  opt (seq (rule item) (star (sequenceOf [char ',', rule "ws", rule item])))

/-- The rules of JSON documents. -/
def draft : Draft where
  rules := [
    ⟨"json", .tree (sequenceOf [rule "ws", capture (rule "value"), rule "ws", endOfInput])⟩,
    ⟨"value", .tree
      (choiceOf [rule "object", rule "array", rule "string", rule "number", text "true",
        text "false", text "null"])⟩,
    ⟨"element", .tree (seq (rule "value") (rule "ws"))⟩,
    ⟨"object", .tree (sequenceOf [char '\x7b', rule "ws", commaList "member", char '\x7d'])⟩,
    ⟨"member", .tree
      (sequenceOf [rule "string", rule "ws", char ':', rule "ws", rule "element"])⟩,
    ⟨"array", .tree (sequenceOf [char '[', rule "ws", commaList "element", char ']'])⟩,
    ⟨"string", .tree
      (sequenceOf [
        char '"',
        star (alt (rule "escape")
          (seq (notAhead (choiceOf [char '"', char '\\', range '\x00' '\x1f'])) any)),
        char '"'])⟩,
    ⟨"escape", .tree
      (seq (char '\\')
        (alt (oneOf ['"', '\\', '/', 'b', 'f', 'n', 'r', 't'])
          (sequenceOf [char 'u', rule "hex", rule "hex", rule "hex", rule "hex"])))⟩,
    ⟨"number", .tree
      (sequenceOf [
        opt (char '-'),
        alt (char '0') (seq (range '1' '9') (star digit)),
        opt (seq (char '.') (plus digit)),
        opt (sequenceOf
          [alt (char 'e') (char 'E'), opt (alt (char '+') (char '-')), plus digit])])⟩,
    ⟨"ws", .tree (star (oneOf [' ', '\t', '\n', '\r']))⟩,
    ⟨"hex", .native hexDigit⟩]

/-- The grammar of JSON documents. -/
def grammar : Except Defect Grammar := draft.build

end Peg.Document
