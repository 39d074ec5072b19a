import ChainCalc.Term.Basic

/-!
# The text of a term

A term is written back as a statement. A chain inside a chain stands in parentheses, since there
is no precedence to tell them apart.
-/

namespace ChainCalc.Term

/-- The text of an operand of a chain, given its own text. -/
def enclose (t : Term) (text : List Char) : List Char :=
  if t.isChain then '(' :: text ++ [')'] else text

mutual

/-- The characters of a term. -/
def spell : Term → List Char
  | number text => text.toList
  | var name => name.toList
  | call name arguments => name.toList ++ '(' :: spellArguments arguments ++ [')']
  | assign name value => name.toList ++ ' ' :: '=' :: ' ' :: value.spell
  | declare name params body =>
    name.toList ++ '(' :: List.intercalate [',', ' '] (params.map String.toList) ++
      ')' :: ' ' :: '=' :: ' ' :: body.spell
  | chain operands operators => spellChain operands operators

/-- Arguments are separated by a comma and a blank. -/
def spellArguments : List Term → List Char
  | [] => []
  | t :: ts => t.spell ++ spellMoreArguments ts

def spellMoreArguments : List Term → List Char
  | [] => []
  | t :: ts => ',' :: ' ' :: t.spell ++ spellMoreArguments ts

/-- Operands are joined by the operators in turn, as long as there are any. -/
def spellChain : List Term → List Operator → List Char
  | [], _ => []
  | t :: ts, operators => t.enclose t.spell ++ spellLinks ts operators

def spellLinks : List Term → List Operator → List Char
  | [], _ => []
  | t :: ts, op :: operators =>
    ' ' :: op.sign :: ' ' :: t.enclose t.spell ++ spellLinks ts operators
  | t :: ts, [] => t.enclose t.spell ++ spellLinks ts []

end

def render (t : Term) : String := String.ofList t.spell

end ChainCalc.Term
