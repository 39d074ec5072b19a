import ChainCalc.Command.Input
import ChainCalc.Peek
import ChainCalc.Script

/-!
# Running a command

A command gives a report: what it prints, what it complains of, and its exit code.
-/

namespace ChainCalc

structure Report where
  code : Nat
  output : String
  errors : String
deriving Repr, DecidableEq

namespace Report

/-- A line feed ends every line. -/
def ofLines (texts : List String) : String := String.join (texts.map (· ++ "\n"))

/-- The lines printed, and the message if the command fails after them. -/
def ofOutcome (printed : List String) (failure : Option String) : Report where
  code := if failure.isSome then 1 else 0
  output := ofLines printed
  errors := ofLines failure.toList

/-- The report on words that are no command. -/
def usage : Report where
  code := 2
  output := ""
  errors := ofLines
    ["Usage: flatcalc eval [-f|--file] [-a|--print-all] [--max-depth N] [CONTENTS]",
     "       flatcalc peek [-f|--file] [CONTENTS]",
     "       flatcalc -V|--version"]

/-- Runs a script. The value of every statement is printed, or else only the last one, if the whole
script succeeds. -/
def eval (script : String) (printAll : Bool) (limit : Nat) : Report :=
  let r := (Session.new limit).runScript script
  let printed :=
    if printAll then r.values
    else match r.outcome with
      | .ok value => value.toList
      | .error _ => []
  ofOutcome (printed.map Number.text) (r.failure.map ScriptError.message)

/-- The best peek of each line that is not blank, up to the first one that is no sequence. -/
def peekLines : List (List Char) → List (List Int) × Option SequenceError
  | [] => ([], none)
  | line :: lines =>
    if line.all isBlank then peekLines lines
    else match readSequence line with
      | .error e => ([], some e)
      | .ok values =>
        let (peeks, failure) := peekLines lines
        (bestPeek values :: peeks, failure)

def peek (script : String) : Report :=
  let (peeks, failure) := peekLines (lines script.toList)
  ofOutcome (peeks.map fun peek => " ".intercalate (peek.map toString))
    (failure.map SequenceError.message)

end Report

/-- Runs a command. -/
def Command.run (around : Surroundings) : Command → Report
  | version => .ofOutcome ["flatcalc 0.1.0"] none
  | eval source printAll limit =>
    match source.read around with
    | .error e => .ofOutcome [] (some e.message)
    | .ok script => .eval script printAll limit
  | peek source =>
    match source.read around with
    | .error e => .ofOutcome [] (some e.message)
    | .ok script => .peek script

/-- Runs the words after the name of the program. -/
def runProgram (around : Surroundings) (words : List String) : Report :=
  match Command.parse? words with
  | none => .usage
  | some command => command.run around

end ChainCalc
