import ChainCalc.Operator

/-!
# Terms

What a statement means, before it is run. The reader of statements puts assignments and
declarations only at the top, but a term may hold any other term anywhere, and a chain may have
any number of operators.
-/

namespace ChainCalc

inductive Term
  /-- A number, as written. -/
  | number (text : String)
  | var (name : String)
  | call (name : String) (arguments : List Term)
  | assign (name : String) (value : Term)
  | declare (name : String) (params : List String) (body : Term)
  /-- Operands with operators between them, computed from left to right. -/
  | chain (operands : List Term) (operators : List Operator)
deriving Repr, Inhabited

namespace Term

def isChain : Term → Bool
  | chain .. => true
  | _ => false

/-- A chain has at least one operand, and one operator fewer than operands. -/
def wellFormedChain (operands : List Term) (operators : List Operator) : Bool :=
  !operands.isEmpty && operators.length + 1 == operands.length

/-- A declaration has no value, and neither has the assignment of one. -/
def hasValue : Term → Bool
  | declare .. => false
  | assign _ value => value.hasValue
  | _ => true

end Term

end ChainCalc
