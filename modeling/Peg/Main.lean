import Peg.Calc.Command
import Peg.Command.Arguments
import Peg.Document.Command

/-!
# The program

Runs one of two commands: `calc` matches and evaluates an arithmetic expression, `json` checks a
JSON document. Files and the standard input are read here, and what the command leaves behind is
written here; all that happens in between is `Peg.Calc.command` and `Peg.Document.command`.
-/

namespace Peg

/-- What a file holds. -/
def readSource (path : String) : IO Source := do
  try
    return Source.ofBytes (← IO.FS.readBinFile path)
  catch
    | .noFileOrDirectory .. => return .error .notFound
    | e => return .error (.other (toString e))

/-- The options that the arguments ask for. -/
def readOptions (a : Arguments) : IO Options := do
  let settings ← a.settings.mapM fun path => do return (path, ← readSource path)
  return { settings, json := a.json, showGrammar := a.showGrammar }

/-- Runs the command of the given name. -/
def perform (name : String) (a : Arguments) : IO Exit := do
  let options ← readOptions a
  match name, a.input with
  | "calc", some expression =>
    return (Calc.command { expression, evaluate := !a.noEval, options }).exit
  | "json", input =>
    let source ← match input, a.file with
      | some text, _ => pure (.ok text)
      | none, some path => readSource path
      | none, none => Source.ofBytes <$> (← IO.getStdin).readBinToEnd
    return (Document.command { source, rule := a.rule, options }).exit
  | _, _ => return ⟨2, "", "usage: calc [options] EXPRESSION\n       json [options] [TEXT]\n"⟩

/-- Runs the program with the given arguments. -/
def runProgram (args : List String) : IO UInt32 := do
  let result ← match args with
    | name :: rest =>
      match Arguments.read {} rest with
      | .ok a => perform name a
      | .error reason => pure ⟨2, "", "error: " ++ reason ++ "\n"⟩
    | [] => perform "" {}
  (← IO.getStdout).putStr result.stdout
  (← IO.getStderr).putStr result.stderr
  return result.code.toUInt32

end Peg

/-- The program. -/
def main (args : List String) : IO UInt32 := Peg.runProgram args
