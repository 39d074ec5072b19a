import ChainCalc.Token.Basic

/-!
# Parse errors

Why a list of tokens is not a statement, and where. When the tokens run out, the column is that of
the construct left unfinished.
-/

namespace ChainCalc

inductive ParseError
  /-- A statement, a group or an argument has no tokens. -/
  | emptyExpression (column : Nat)
  | unexpectedToken (token : Token)
  /-- An operator stands where the first operand is due. -/
  | missingOperand (op : Operator) (column : Nat)
  /-- An operator stands directly after another one. -/
  | consecutiveOperators (op : Operator) (column : Nat)
  /-- No operand follows the operator. -/
  | danglingOperator (op : Operator) (column : Nat)
  /-- An operand stands directly after another one. -/
  | missingOperator (token : Token)
  /-- The group opened here is never closed. -/
  | unclosedGroup (column : Nat)
  /-- Something other than names, commas and parentheses stands in a list of parameters. -/
  | invalidDeclaration (token : Token)
  /-- The list of arguments of a call is never closed. -/
  | malformedCall (name : String) (column : Nat)
  /-- A token is left over after the statement. -/
  | trailingTokens (token : Token)
deriving Repr, DecidableEq

namespace ParseError

def column : ParseError → Nat
  | emptyExpression column => column
  | unexpectedToken token => token.column
  | missingOperand _ column => column
  | consecutiveOperators _ column => column
  | danglingOperator _ column => column
  | missingOperator token => token.column
  | unclosedGroup column => column
  | invalidDeclaration token => token.column
  | malformedCall _ column => column
  | trailingTokens token => token.column

/-- What is wrong, without the place. -/
def detail : ParseError → String
  | emptyExpression _ => "Expected an expression."
  | unexpectedToken token => "Unexpected token " ++ token.render ++ "."
  | missingOperand op _ => "Operator '" ++ op.text ++ "' is missing its left operand."
  | consecutiveOperators op _ => "Operator '" ++ op.text ++ "' follows another operator."
  | danglingOperator op _ => "Operator '" ++ op.text ++ "' is missing its right operand."
  | missingOperator token => "Expected an operator before " ++ token.render ++ "."
  | unclosedGroup _ => "Expected closing parenthesis ')' for the group opened here."
  | invalidDeclaration token =>
    "Invalid function declaration, expected a list of parameters but found " ++ token.render ++
      ". Example: f(x, y) = x * y"
  | malformedCall name _ => "Malformed application of '" ++ name ++ "', expected ',' or ')'."
  | trailingTokens token => "Extra tokens after expression, starting with " ++ token.render ++ "."

def message (e : ParseError) : String :=
  "Syntax error at column " ++ toString e.column ++ ": " ++ e.detail

end ParseError

end ChainCalc
