import Peg.Grammar.Build
import Peg.Parser
import Peg.Settings.Decode

/-!
# Commands

What the commands of the program have in common: they read settings from a file, show a grammar,
parse an input and print the outcome, as lines for a person or as one JSON object. A command is a
`Peg.Command`: it prints as it goes, and it may fail. What a file or the standard input holds is
found out beforehand and handed to the command, together with the reason if it could not be read;
so a command is a function of its arguments and of what it reads.
-/

namespace Peg

/-- Why a text could not be read. -/
inductive ReadError
  /-- There is no such file. -/
  | notFound
  /-- The bytes are no UTF-8. -/
  | notText
  /-- Another reason, in words. -/
  | other (reason : String)
deriving DecidableEq, Repr

/-- The reason in words. -/
def ReadError.message : ReadError → String
  | notFound => "No such file or directory (os error 2)"
  | notText => "stream did not contain valid UTF-8"
  | other reason => reason

/-- What was read, or why it could not be. -/
abbrev Source := Except ReadError String

/-- The text that bytes encode. -/
def Source.ofBytes (bytes : ByteArray) : Source :=
  match String.fromUTF8? bytes with
  | some text => .ok text
  | none => .error .notText

/-- What makes a command fail. -/
inductive CommandError
  /-- The file with the settings could not be read. -/
  | unreadable (path : String) (e : ReadError)
  /-- The file with the settings does not hold any. -/
  | malformed (path : String) (e : Json.Error)
  /-- The grammar is none. -/
  | grammar (d : Defect)
  /-- The input could not be read. -/
  | input (e : ReadError)
  /-- The input could not be parsed. -/
  | parse (e : ParseError)
  /-- The captures of an arithmetic expression are none. -/
  | noExpression
deriving DecidableEq, Repr

/-- The failure in words. -/
def CommandError.message : CommandError → String
  | unreadable path e => "cannot read config file " ++ path ++ ": " ++ e.message
  | malformed path e => "invalid config file " ++ path ++ ": " ++ e.message
  | grammar d => d.message
  | input e => e.message
  | parse e => e.message
  | noExpression => "captured tokens do not form an expression"

/-- Something that prints and then answers, or fails; the text is what has been printed. -/
abbrev Command (α : Type) := ExceptT CommandError (StateM String) α

/-- What a process leaves behind. -/
structure Exit where
  /-- The exit status. -/
  code : Nat
  /-- What was written to the standard output. -/
  stdout : String
  /-- What was written to the standard error. -/
  stderr : String
deriving DecidableEq, Repr

/-- The options of all commands. -/
structure Options where
  /-- The file with the settings, its path and what it holds. -/
  settings : Option (String × Source) := none
  /-- Whether the outcome is printed as JSON. -/
  json : Bool := false
  /-- Whether the grammar is shown first. -/
  showGrammar : Bool := false

namespace Command

/-- A line of text. -/
def line (text : String) : String := text.push '\n'

/-- Prints a line. -/
def print (text : String) : Command Unit := modify (· ++ line text)

/-- Goes on with a result, or fails. -/
def orFail {ε α : Type} (wrap : ε → CommandError) : Except ε α → Command α
  | .ok a => pure a
  | .error e => throw (wrap e)

/-- Runs a command that answers whether the input matched; only a match is a success. -/
def exit (c : Command Bool) : Exit :=
  match c.run.run "" with
  | (.ok matched, out) => ⟨if matched then 0 else 1, out, ""⟩
  | (.error e, out) => ⟨1, out, line ("Error: " ++ e.message)⟩

/-- The settings that are asked for; defaults if no file is given. -/
def settings (o : Options) : Command Settings :=
  match o.settings with
  | none => pure {}
  | some (path, source) => do
    let text ← orFail (.unreadable path) source
    orFail (.malformed path) (Settings.ofJson text)

/-- A parser with the settings that are asked for. The grammar is shown if that is asked for, a
rule a line and an empty line at the end. -/
def parser (o : Options) (built : Except Defect Grammar) : Command Parser := do
  let settings ← settings o
  let grammar ← orFail .grammar built
  if o.showGrammar then
    for d in grammar.rules do print d.written
    print ""
  return { grammar, settings }

/-- The outcome with the texts that were captured and the summary as a JSON object. -/
def report (r : Reader) (o : Outcome) (summary : Option String) : Json :=
  .obj (o.members ++ [("captured_text", .arr ((o.captures.filterMap r.captured).map .str))] ++
    (summary.map fun s => ("summary", .str s)).toList)

/-- The outcome as lines for a person: how much matched and the summary, or what failed. -/
def lines (o : Outcome) (summary : Option String) : List String :=
  if o.matched then ("matched " ++ toString o.position ++ " characters") :: summary.toList
  else
    ("no match (stopped at offset " ++ toString o.position ++ ")") ::
      (o.errors.map fun d => "  " ++ d.describe) ++
        (o.deepest.map fun d => "deepest failure: " ++ d.describe).toList

/-- Prints the outcome over an input in the form that is asked for, and answers whether it
matched. -/
def finish (o : Options) (r : Reader) (outcome : Outcome) (summary : Option String) :
    Command Bool := do
  if o.json then print ((report r outcome summary).pretty 0)
  else for text in lines outcome summary do print text
  return outcome.matched

end Command

end Peg
