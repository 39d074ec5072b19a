import ChainCalc.Event

/-!
# The best peek of a sequence

A peek picks values of a sequence from left to right, each greater than the one before and none
negative. The next value is always the one with the most distinct greater values after it; of equal
ones the smaller, and of equal values the earlier.

So a value is picked when it may be and no later value that may be picked is better. What stands
before the picked value is passed over, for the picked one was better.
-/

namespace ChainCalc

/-- The number of distinct values greater than `x`. -/
def distinctAbove (x : Int) : List Int → Nat
  | [] => 0
  | y :: ys => distinctAbove x ys + if x < y && !ys.contains y then 1 else 0

/-- A value and the number of distinct greater values after it. -/
structure Candidate where
  value : Int
  above : Nat
deriving Repr, DecidableEq

namespace Candidate

def ofValues : List Int → List Candidate
  | [] => []
  | x :: xs => ⟨x, distinctAbove x xs⟩ :: ofValues xs

/-- Whether a candidate is picked before another one that comes later. -/
def beats (a b : Candidate) : Bool :=
  b.above < a.above || (b.above == a.above && a.value ≤ b.value)

/-- Picks values above `threshold`. -/
def pick (threshold : Int) : List Candidate → List Int
  | [] => []
  | a :: rest =>
    if threshold < a.value && rest.all (fun b => b.value ≤ threshold || a.beats b) then
      a.value :: pick a.value rest
    else pick threshold rest

end Candidate

/-- The best peek of a sequence. -/
def bestPeek (values : List Int) : List Int := Candidate.pick (-1) (Candidate.ofValues values)

/-- What the selection reports. -/
def peekEvents (values : List Int) : List Event :=
  [.selected values.length (bestPeek values).length]

end ChainCalc
