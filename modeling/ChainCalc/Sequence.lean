import ChainCalc.Text.Blank

/-!
# Sequences of integers

A sequence is written as words, each an integer of 64 bits with an optional sign. A word is read
from left to right, and the first problem counts: a character that is no digit, or a digit that
takes the number out of range.
-/

namespace ChainCalc

/-- Why a word is no integer. -/
inductive IntegerError
  | invalidDigit
  | tooLarge
  | tooSmall
deriving Repr, DecidableEq

def IntegerError.message : IntegerError → String
  | invalidDigit => "invalid digit found in string"
  | tooLarge => "number too large to fit in target type"
  | tooSmall => "number too small to fit in target type"

/-- Reads digits after the number `n`, up to `bound`. -/
def readDigits (bound : Nat) (overflow : IntegerError) (n : Nat) :
    List Char → Except IntegerError Nat
  | [] => .ok n
  | c :: cs =>
    if c.isDigit then
      let next := 10 * n + (c.toNat - '0'.toNat)
      if bound < next then .error overflow else readDigits bound overflow next cs
    else .error .invalidDigit

/-- Reads an unsigned number of at least one digit. -/
def readMagnitude (bound : Nat) (overflow : IntegerError) : List Char → Except IntegerError Nat
  | [] => .error .invalidDigit
  | c :: cs => readDigits bound overflow 0 (c :: cs)

/-- Reads an integer from `-2 ^ 63` to `2 ^ 63 - 1`. -/
def readInteger : List Char → Except IntegerError Int
  | '-' :: cs => (readMagnitude (Nat.pow 2 63) .tooSmall cs).map fun n => -(n : Int)
  | '+' :: cs => (readMagnitude (Nat.pow 2 63 - 1) .tooLarge cs).map Int.ofNat
  | cs => (readMagnitude (Nat.pow 2 63 - 1) .tooLarge cs).map Int.ofNat

/-- The first word of a sequence that is no integer. -/
structure SequenceError where
  word : String
  /-- The position of the word, from 1. -/
  position : Nat
  cause : IntegerError
deriving Repr, DecidableEq

def SequenceError.message (e : SequenceError) : String :=
  "Invalid integer '" ++ e.word ++ "' at position " ++ toString e.position ++ ": " ++
    e.cause.message

/-- Reads words, of which the first has the given position. -/
def readIntegers (position : Nat) : List (List Char) → Except SequenceError (List Int)
  | [] => .ok []
  | word :: rest =>
    match readInteger word with
    | .error e => .error ⟨String.ofList word, position, e⟩
    | .ok n => (readIntegers (position + 1) rest).map (n :: ·)

def readSequence (cs : List Char) : Except SequenceError (List Int) := readIntegers 1 (words cs)

end ChainCalc
