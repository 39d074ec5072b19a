import ChainCalc.Session
import ChainCalc.Text.Line

/-!
# Scripts

A script has one statement a line. Lines are trimmed; empty ones and those that start with `#` are
passed over. The first statement that fails ends the script, and what the ones before it did stays.
-/

namespace ChainCalc

/-- The line on which a script fails, from 1, and why. -/
structure ScriptError where
  line : Nat
  cause : StatementError
deriving Repr, DecidableEq

def ScriptError.message (e : ScriptError) : String :=
  "Error on line " ++ toString e.line ++ ": " ++ e.cause.message

/-- What running a script gives. -/
structure ScriptRun where
  /-- The values of the statements that have one, in order. -/
  values : List Float
  failure : Option ScriptError
  session : Session

/-- A script that succeeds has the last of its values. -/
def ScriptRun.outcome (r : ScriptRun) : Except ScriptError (Option Float) :=
  match r.failure with
  | some e => .error e
  | none => .ok r.values.getLast?

/-- Whether a trimmed line is no statement: it is empty or a comment. -/
def isIdleLine : List Char → Bool
  | [] => true
  | c :: _ => c == '#'

namespace Session

/-- Runs lines, of which the first has the given number. -/
def runLines (s : Session) (number : Nat) : List (List Char) → ScriptRun
  | [] => ⟨[], none, s⟩
  | line :: lines =>
    let statement := trim line
    if isIdleLine statement then s.runLines (number + 1) lines
    else
      let first := s.run (String.ofList statement)
      match first.outcome with
      | .error e => ⟨[], some ⟨number, e⟩, first.session⟩
      | .ok value =>
        let rest := first.session.runLines (number + 1) lines
        { rest with values := value.toList ++ rest.values }

def runScript (s : Session) (source : String) : ScriptRun := s.runLines 1 (lines source.toList)

end Session

end ChainCalc
