/-!
# Ranges of code points

A class of characters is an ascending list of closed ranges, so that a search stops at the first
range above the character.
-/

namespace ChainCalc

/-- Whether `n` lies in one of the ascending ranges. -/
def inRanges (n : Nat) : List (Nat × Nat) → Bool
  | [] => false
  | (lo, hi) :: rest => if n < lo then false else n ≤ hi || inRanges n rest

end ChainCalc
