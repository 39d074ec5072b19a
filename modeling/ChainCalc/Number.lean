import ChainCalc.Decimal.Layout

/-!
# Numbers

How a literal is read, and how a value is written as a result and as a traced argument.
-/

namespace ChainCalc

/-- A character of a number: an ASCII digit or the decimal point. -/
def isNumeric (c : Char) : Bool := c.isDigit || c == '.'

namespace Number

/-- Digits with at most one decimal point among them, and at least one digit. -/
def isLiteral (cs : List Char) : Bool :=
  cs.all isNumeric && cs.any Char.isDigit && cs.count '.' ≤ 1

/-- The number that the digits of a text spell, whatever stands between them. -/
def digitsValue (cs : List Char) : Nat :=
  cs.foldl (fun n c => if c.isDigit then 10 * n + (c.toNat - '0'.toNat) else n) 0

/-- The float nearest to an unsigned literal. -/
def magnitude (cs : List Char) : Float :=
  Float.ofScientific (digitsValue cs) true ((cs.dropWhile (· != '.')).drop 1).length

/-- Reads a literal, which may have one minus sign in front. -/
def read? (text : String) : Option Float :=
  match text.toList with
  | '-' :: cs => if isLiteral cs then some (-magnitude cs) else none
  | cs => if isLiteral cs then some (magnitude cs) else none

/-- Results never have an exponent, and whole numbers no decimal point. -/
def resultLayout : Layout := ⟨fun _ => true, false⟩

/-- Traced arguments show that they are floats, and have an exponent from `1e16` on and below
`1e-4`. -/
def argumentLayout : Layout := ⟨fun e => -4 ≤ e && e < 16, true⟩

/-- The text of a result. -/
def text (x : Float) : String := resultLayout.text x

/-- The text of a traced argument. -/
def argumentText (x : Float) : String := argumentLayout.text x

end Number

end ChainCalc
