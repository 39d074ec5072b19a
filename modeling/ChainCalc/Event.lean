import ChainCalc.Number
import ChainCalc.Term.Render
import ChainCalc.Text.Quoted
import ChainCalc.Token.Lexer

/-!
# Events

What each stage reports while it works.
-/

namespace ChainCalc

inductive Event
  | lexed (token : Token)
  | skipped (c : Char) (column : Nat)
  | parsed (term : Term)
  | assigned (name : String) (value : Float)
  | declared (name : String) (params : List String)
  /-- A call starts while `depth` others are in progress. -/
  | calling (name : String) (arguments : List Float) (depth : Nat)
  /-- A peek was selected from a sequence; the lengths of the sequence and of the peek. -/
  | selected (given taken : Nat)
deriving Repr

/-- How much detail an event is about. -/
inductive Level
  | debug
  | trace
deriving Repr, DecidableEq

namespace Event

def ofPiece : Piece → Event
  | .token t => lexed t
  | .stray c column => skipped c column

def level : Event → Level
  | lexed .. | skipped .. | calling .. => .trace
  | parsed .. | assigned .. | declared .. | selected .. => .debug

def message : Event → String
  | lexed .. => "lexed"
  | skipped .. => "skipping"
  | parsed .. => "parsed statement"
  | assigned .. => "assigned"
  | declared .. => "declared function"
  | calling .. => "calling"
  | selected .. => "selected best peek"

/-- The text of a list in brackets, from the texts of its members. -/
def bracketed (texts : List String) : String := "[" ++ ", ".intercalate texts ++ "]"

/-- The names and texts of what the event is about. -/
def fields : Event → List (String × String)
  | lexed token => [("token", token.render)]
  | skipped c column => [("skipped", c.toString), ("column", toString column)]
  | parsed term => [("node", term.render)]
  | assigned name value => [("name", name), ("value", Number.text value)]
  | declared name params => [("name", name), ("params", bracketed (params.map quoted))]
  | calling name arguments depth =>
    [("name", name), ("arguments", bracketed (arguments.map Number.argumentText)),
      ("depth", toString depth)]
  | selected given taken => [("input", toString given), ("selected", toString taken)]

end Event

end ChainCalc
