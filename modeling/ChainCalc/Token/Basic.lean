import ChainCalc.Operator

/-!
# Tokens

A token is a lexeme together with the column of its first character. Columns count characters
from 1.
-/

namespace ChainCalc

/-- The smallest meaningful piece of a statement. Numbers and names keep their text. -/
inductive Lexeme
  | openParen
  | closeParen
  | number (text : String)
  | equals
  | operator (op : Operator)
  | symbol (name : String)
  | comma
deriving Repr, DecidableEq

namespace Lexeme

/-- The kind of a lexeme, as messages name it. -/
def kind : Lexeme → String
  | openParen => "OpenParen"
  | closeParen => "CloseParen"
  | number _ => "Number"
  | equals => "Equals"
  | operator .add => "Plus"
  | operator .sub => "Minus"
  | operator .mul => "Multiply"
  | operator .div => "Divide"
  | operator .pow => "Power"
  | symbol _ => "Symbol"
  | comma => "Comma"

/-- The text that a lexeme keeps; only numbers and names have one. -/
def text : Lexeme → String
  | number text => text
  | symbol name => name
  | _ => ""

/-- The lexeme of a character that is a token by itself. -/
def punctuation? : Char → Option Lexeme
  | '(' => some openParen
  | ')' => some closeParen
  | '=' => some equals
  | ',' => some comma
  | c => (Operator.ofSign? c).map operator

/-- How messages show a lexeme: its kind, and its text if there is any. -/
def render (l : Lexeme) : String :=
  if l.text.isEmpty then "[" ++ l.kind ++ "]" else "[" ++ l.kind ++ " " ++ l.text ++ "]"

end Lexeme

structure Token where
  lexeme : Lexeme
  /-- The column of the first character, from 1. -/
  column : Nat
deriving Repr, DecidableEq

def Token.render (t : Token) : String := t.lexeme.render

/-- The column after another one. Columns are words of 64 bits, so the last one is followed by 0. -/
def nextColumn (column : Nat) : Nat := if column + 1 = UInt64.size then 0 else column + 1

end ChainCalc
