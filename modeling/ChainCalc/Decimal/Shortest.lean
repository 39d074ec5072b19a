/-!
# The shortest decimal of a float

A finite positive float is `mantissa * 2 ^ exponent`. The reals that round to it form an interval,
whose ends belong to it iff the mantissa is even. The shortest decimal is the coarsest point
`d * 10 ^ k` inside that interval: for each power of ten, from the leading place downwards, the two
neighbours of the value on that grid are tried. Of two hits the nearer wins, and a tie goes up.

The value and both ends are exact decimals, so everything is counted in units of one power of ten
and no rounding happens. On the unit grid the value itself is a hit, so the search always ends.
-/

namespace ChainCalc

/-- The positive number `mantissa * 2 ^ exponent`. -/
structure Binary where
  mantissa : Nat
  exponent : Int
  /-- The next smaller float is only half as far away as the next larger one. -/
  narrow : Bool
deriving Repr, DecidableEq

/-- The magnitude of a finite binary64 number, from its fraction field and its exponent field. -/
def Binary.ofFields (fraction biased : Nat) : Binary where
  mantissa := if biased = 0 then fraction else Nat.pow 2 52 + fraction
  exponent := if biased = 0 then -1074 else (biased : Int) - 1075
  narrow := fraction = 0 && 1 < biased

/-- The reals that round to one float, from `low` to `high` around `value`, in units of
`10 ^ exponent`. -/
structure Basin where
  low : Nat
  value : Nat
  high : Nat
  closed : Bool
  exponent : Int
deriving Repr, DecidableEq

/-- In quarters of the gap to the next larger float the value is `4 * mantissa`; a quarter is
`2 ^ (exponent - 2)`, which is a whole number of units. -/
def Binary.basin (b : Binary) : Basin :=
  let quarter :=
    if 2 ≤ b.exponent then Nat.pow 2 (b.exponent - 2).toNat else Nat.pow 5 (2 - b.exponent).toNat
  { low := (4 * b.mantissa - if b.narrow then 1 else 2) * quarter
    value := 4 * b.mantissa * quarter
    high := (4 * b.mantissa + 2) * quarter
    closed := b.mantissa % 2 = 0
    exponent := if 2 ≤ b.exponent then 0 else b.exponent - 2 }

namespace Basin

def contains (b : Basin) (n : Nat) : Bool :=
  if b.closed then b.low ≤ n && n ≤ b.high else b.low < n && n < b.high

/-- The multiple of `10 ^ k` nearest to the value among its two neighbours inside the basin. -/
def onGrid (b : Basin) (k : Nat) : Option Nat :=
  let unit := Nat.pow 10 k
  let down := b.value / unit
  match b.contains (down * unit), b.contains ((down + 1) * unit) with
  | true, true => some (if 2 * (b.value % unit) < unit then down else down + 1)
  | true, false => some down
  | false, true => some (down + 1)
  | false, false => none

/-- The coarsest grid `10 ^ j` with `j ≤ k` that meets the basin: the multiple and `j`. -/
def coarsest (b : Basin) : Nat → Nat × Nat
  | 0 => (b.value, 0)
  | k + 1 =>
    match b.onGrid (k + 1) with
    | some d => (d, k + 1)
    | none => b.coarsest k

end Basin

/-- The number `0.d₁d₂… * 10 ^ point`. -/
structure Decimal where
  digits : List Char
  point : Int
deriving Repr, DecidableEq

namespace Decimal

def zero : Decimal := ⟨['0'], 1⟩

/-- The number `n * 10 ^ exponent`, without the zeros at the end of `n`. -/
def ofNat (n : Nat) (exponent : Int) : Decimal :=
  let digits := Nat.toDigits 10 n
  ⟨(digits.reverse.dropWhile (· == '0')).reverse, digits.length + exponent⟩

/-- The shortest decimal that rounds to a positive float. -/
def shortest (b : Binary) : Decimal :=
  let basin := b.basin
  let (d, k) := basin.coarsest ((Nat.toDigits 10 basin.value).length - 1)
  ofNat d (k + basin.exponent)

end Decimal

end ChainCalc
