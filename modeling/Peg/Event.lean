/-!
# Events

What a grammar and its parses report while they work: that a grammar was built, that a parse began
and ended, and each entry into a rule and exit from it. Entries and exits nest, and they are the
finest account of a parse there is: two parses with equal events called the same rules at the same
offsets in the same order.
-/

namespace Peg

/-- Something that was done, with what is known about it. -/
inductive Event
  /-- A grammar of `rules` rules passed all its checks; a parse starts from `root`. -/
  | built (rules : Nat) (root : String)
  /-- A parse of `length` characters begins with the rule. -/
  | started (rule : String) (length : Nat)
  /-- The rule is about to be tried at the offset. -/
  | enter (rule : String) (offset : Nat)
  /-- The rule was tried, and the input has been read up to the offset. -/
  | exit (rule : String) (offset : Nat) (matched : Bool)
  /-- The parse that began with the rule is over. -/
  | finished (rule : String) (matched : Bool) (position errors : Nat)
deriving DecidableEq, Repr

namespace Event

/-- A field of an event line. -/
def field (name value : String) : String := " " ++ name ++ "=" ++ value

/-- The event on one line: its level, its subject, what happened, and the fields. -/
def line : Event → String
  | built rules root =>
    "DEBUG peg_framework::grammar grammar built" ++ field "rules" (toString rules) ++
      field "root" root
  | started rule length =>
    "DEBUG peg::parse parse started" ++ field "rule" rule ++ field "len" (toString length)
  | enter rule offset =>
    "TRACE peg::rule enter" ++ field "rule" rule ++ field "offset" (toString offset)
  | exit rule offset matched =>
    "TRACE peg::rule exit" ++ field "rule" rule ++ field "offset" (toString offset) ++
      field "matched" (toString matched)
  | finished rule matched position errors =>
    "DEBUG peg::parse parse finished" ++ field "rule" rule ++ field "matched" (toString matched) ++
      field "position" (toString position) ++ field "errors" (toString errors)

end Event

end Peg
