import ChainCalc.Decimal.Shortest

/-!
# Writing a float

A float is written with its shortest digits, either positionally or with an exponent. A `Layout`
says which, and whether a whole number shows its decimal point.
-/

namespace ChainCalc

/-- How the digits of a float are laid out. -/
structure Layout where
  /-- Whether a number whose leading digit stands for `10 ^ e` is written positionally. -/
  positional : Int → Bool
  /-- Whether a whole number in positional form ends in `.0`. -/
  pointZero : Bool

namespace Decimal

/-- Positional form: zeros fill the places that the digits do not reach. -/
def positional (d : Decimal) (pointZero : Bool) : List Char :=
  let whole := d.point.toNat
  if d.point ≤ 0 then '0' :: '.' :: List.replicate (-d.point).toNat '0' ++ d.digits
  else if whole < d.digits.length then d.digits.take whole ++ '.' :: d.digits.drop whole
  else d.digits ++ List.replicate (whole - d.digits.length) '0' ++
    if pointZero then ['.', '0'] else []

/-- Exponent form: one digit, the others after a point, and the exponent of the first. -/
def scientific (d : Decimal) : List Char :=
  let exponent := (toString (d.point - 1)).toList
  match d.digits with
  | [] => []
  | [c] => c :: 'e' :: exponent
  | c :: cs => c :: '.' :: cs ++ 'e' :: exponent

end Decimal

namespace Layout

def write (layout : Layout) (d : Decimal) : List Char :=
  if layout.positional (d.point - 1) then d.positional layout.pointZero else d.scientific

/-- The text of a float. A NaN has no sign. -/
def text (layout : Layout) (x : Float) : String :=
  let bits := x.toBits.toNat
  let fraction := bits % Nat.pow 2 52
  let biased := bits / Nat.pow 2 52 % Nat.pow 2 11
  let sign := if Nat.pow 2 63 ≤ bits then ['-'] else []
  if biased = Nat.pow 2 11 - 1 then
    if fraction = 0 then String.ofList (sign ++ ['i', 'n', 'f']) else "NaN"
  else if biased = 0 ∧ fraction = 0 then String.ofList (sign ++ layout.write .zero)
  else String.ofList (sign ++ layout.write (.shortest (.ofFields fraction biased)))

end Layout

end ChainCalc
