import ChainCalc.Evaluator
import ChainCalc.Term.Parser

/-!
# Sessions

A session runs statements one after the other. Each sees the variables and functions that the ones
before it have left.
-/

namespace ChainCalc

/-- Why a statement fails. -/
inductive StatementError
  | parse (e : ParseError)
  | runtime (e : RuntimeError)
deriving Repr, DecidableEq

def StatementError.message : StatementError → String
  | parse e => e.message
  | runtime e => e.message

structure Session where
  environment : Environment := {}
  evaluator : Evaluator := {}

/-- What running a statement gives. -/
structure StatementRun where
  /-- The value, `none` for a declaration. -/
  outcome : Except StatementError (Option Float)
  session : Session
  events : List Event

namespace Session

/-- A session without variables and functions. -/
def new (limit : Nat) : Session := { evaluator := { limit } }

/-- Runs the text of one statement. -/
def run (s : Session) (source : String) : StatementRun :=
  let scanned := pieces source
  let lexed := scanned.map Event.ofPiece
  match parse (scanned.filterMap Piece.token?) with
  | .error e => ⟨.error (.parse e), s, lexed⟩
  | .ok term =>
    let result := s.evaluator.evaluate s.environment term
    ⟨result.outcome.mapError .runtime, ⟨result.environment, result.evaluator⟩,
      lexed ++ .parsed term :: result.events⟩

end Session

end ChainCalc
