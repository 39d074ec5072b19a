/-!
# Operators

The five operators of a chain. They all bind alike: a chain is computed from left to right.
-/

namespace ChainCalc

inductive Operator
  | add
  | sub
  | mul
  | div
  | pow
deriving Repr, DecidableEq

namespace Operator

def sign : Operator → Char
  | add => '+'
  | sub => '-'
  | mul => '*'
  | div => '/'
  | pow => '^'

def text (op : Operator) : String := op.sign.toString

def ofSign? : Char → Option Operator
  | '+' => some add
  | '-' => some sub
  | '*' => some mul
  | '/' => some div
  | '^' => some pow
  | _ => none

/-- The value of `left op right`, or `none` for a division by zero of either sign. -/
def compute? (op : Operator) (left right : Float) : Option Float :=
  match op with
  | add => some (left + right)
  | sub => some (left - right)
  | mul => some (left * right)
  | div => if right == 0 then none else some (left / right)
  | pow => some (left ^ right)

end Operator

end ChainCalc
