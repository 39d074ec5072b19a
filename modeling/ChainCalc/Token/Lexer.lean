import ChainCalc.Number
import ChainCalc.Text.Blank
import ChainCalc.Text.DecimalDigit
import ChainCalc.Text.Letter
import ChainCalc.Token.Basic

/-!
# From text to tokens

The text is read from left to right, and at each place the longest lexeme is taken. Blank
characters separate; any other character that starts no lexeme is stray and is passed over, so
reading tokens never fails.

A number is a run of digits and points. A minus sign directly in front of a digit belongs to it;
whether it is a subtraction after all is for the reader of terms to say.
-/

namespace ChainCalc

/-- A character that may stand in a name after its first letter. -/
def isNameChar (c : Char) : Bool := isLetter c || isDecimalDigit c

/-- The longest lexeme that starts with `c`, and how many of the characters `cs` after it belong
to it. -/
def Lexeme.longest? (c : Char) (cs : List Char) : Option (Lexeme × Nat) :=
  if isNumeric c || (c == '-' && cs.head?.any Char.isDigit) then
    let run := cs.takeWhile isNumeric
    some (number (String.ofList (c :: run)), run.length)
  else match punctuation? c with
    | some lexeme => some (lexeme, 0)
    | none =>
      if isLetter c then
        let run := cs.takeWhile isNameChar
        some (symbol (String.ofList (c :: run)), run.length)
      else none

/-- What a scan reports: a token, or a stray character. -/
inductive Piece
  | token (t : Token)
  | stray (c : Char) (column : Nat)
deriving Repr, DecidableEq

namespace Piece

def token? : Piece → Option Token
  | token t => some t
  | stray .. => none

/-- Scans the characters from `column` on; the first `covered` of them belong to the token just
reported. -/
def scan (covered column : Nat) : List Char → List Piece
  | [] => []
  | c :: cs =>
    match covered with
    | n + 1 => scan n (column + 1) cs
    | 0 =>
      match Lexeme.longest? c cs with
      | some (lexeme, n) => token ⟨lexeme, column⟩ :: scan n (column + 1) cs
      | none =>
        if isBlank c then scan 0 (column + 1) cs
        else stray c column :: scan 0 (column + 1) cs

end Piece

/-- The tokens and the stray characters of a text, in order. -/
def pieces (source : String) : List Piece := Piece.scan 0 1 source.toList

/-- The tokens of a text. -/
def tokenize (source : String) : List Token := (pieces source).filterMap Piece.token?

end ChainCalc
