/-!
# Command lines

The arguments of the program as they are given: first which of its commands is meant, then options
and what they apply to, in any order. An option that takes a value is followed by it or has it
behind an equals sign; whatever stands behind `--` is no option.
-/

namespace Peg

/-- The arguments of a command. -/
structure Arguments where
  /-- The path of the file with the settings. -/
  settings : Option String := none
  /-- Whether the outcome is printed as JSON. -/
  json : Bool := false
  /-- Whether the grammar is shown first. -/
  showGrammar : Bool := false
  /-- Whether an expression is matched but not evaluated. -/
  noEval : Bool := false
  /-- The path of the file with the input. -/
  file : Option String := none
  /-- The rule to start from. -/
  rule : Option String := none
  /-- The input itself. -/
  input : Option String := none
deriving DecidableEq, Repr

namespace Arguments

/-- What an option without a value sets. -/
def flag? : String → Option (Arguments → Arguments)
  | "--json" => some fun a => { a with json := true }
  | "--show-grammar" => some fun a => { a with showGrammar := true }
  | "--no-eval" => some fun a => { a with noEval := true }
  | _ => none

/-- What an option with a value sets. The level of messages is accepted and has no effect, since the
program writes no messages beside its output. -/
def option? : String → Option (String → Arguments → Arguments)
  | "--config" => some fun path a => { a with settings := some path }
  | "--file" | "-f" => some fun path a => { a with file := some path }
  | "--rule" => some fun name a => { a with rule := some name }
  | "--log-level" => some fun _ a => a
  | _ => none

/-- The name and the value of an option that are joined by an equals sign. -/
def split? (arg : String) : Option (String × String) :=
  let cs := arg.toList
  let name := cs.takeWhile (· != '=')
  if name.length < cs.length then
    some (String.ofList name, String.ofList (cs.drop (name.length + 1)))
  else none

/-- With an input, of which there can be only one. -/
def withInput (a : Arguments) (text : String) : Except String Arguments :=
  match a.input with
  | none => .ok { a with input := some text }
  | some _ => .error ("unexpected argument: " ++ text)

/-- What an argument sets that is an option and its value in one. -/
def joined? (arg : String) : Option (Arguments → Arguments) := do
  let (name, value) ← split? arg
  return (← option? name) value

/-- The arguments in the list, on top of those that are known. -/
def read (a : Arguments) : List String → Except String Arguments
  | [] => .ok a
  | arg :: rest =>
    if arg = "--" then rest.foldlM withInput a
    else if let some set := flag? arg then read (set a) rest
    else if let some set := option? arg then
      match rest with
      | value :: rest => read (set value a) rest
      | [] => .error ("missing value: " ++ arg)
    else if let some set := joined? arg then read (set a) rest
    else if arg.startsWith "-" then .error ("unexpected argument: " ++ arg)
    else
      match a.withInput arg with
      | .ok a => read a rest
      | .error reason => .error reason

end Arguments

end Peg
