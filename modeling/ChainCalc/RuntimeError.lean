import ChainCalc.Number
import ChainCalc.Operator

/-!
# Runtime errors

Why a term has no value. A runtime error ends the statement.
-/

namespace ChainCalc

inductive RuntimeError
  /-- The text of a number is no literal. -/
  | numberFormat (text : String)
  | unknownVariable (name : String)
  | unknownFunction (name : String)
  | divisionByZero
  /-- A call has fewer arguments than the function has parameters. -/
  | argumentCount (name : String) (expected found : Nat)
  /-- A value is needed and the term, written as `expression`, has none. -/
  | missingValue (expression : String)
  /-- The call would be nested deeper than the limit. -/
  | recursionLimit (name : String) (limit : Nat)
deriving Repr, DecidableEq

def RuntimeError.message : RuntimeError → String
  | numberFormat text => "Invalid number literal '" ++ text ++ "'."
  | unknownVariable name => "Unknown variable '" ++ name ++ "'."
  | unknownFunction name => "Unknown function '" ++ name ++ "'."
  | divisionByZero => "Division by zero."
  | argumentCount name expected found =>
    "Function '" ++ name ++ "' expects " ++ toString expected ++ " argument(s) but was given " ++
      toString found ++ "."
  | missingValue expression => "Expected a value from '" ++ expression ++ "'."
  | recursionLimit name limit =>
    "Recursion limit of " ++ toString limit ++ " exceeded while calling '" ++ name ++ "'."

/-- The value of a number, as written. -/
def Number.read (text : String) : Except RuntimeError Float :=
  match read? text with
  | some x => .ok x
  | none => .error (.numberFormat text)

/-- The value of `left op right`. -/
def Operator.compute (op : Operator) (left right : Float) : Except RuntimeError Float :=
  match op.compute? left right with
  | some x => .ok x
  | none => .error .divisionByZero

end ChainCalc
