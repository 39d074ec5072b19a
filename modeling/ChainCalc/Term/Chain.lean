import ChainCalc.ParseError
import ChainCalc.Term.Basic

/-!
# Reading a chain

A chain is `operand (operator operand)*`, and an operand is a number, a name, a call or a group in
parentheses. It is read one token at a time. A `Reader` holds the place in the innermost chain
and, for each group or call still open, a frame that says where its value goes. Each token either
moves the reader on, is an error, or is a `)` or a `,` that no open construct accounts for: there
the chain ends, and the token is left to whoever asked for the chain.

A number with a minus sign in front is a negative number where an operand is due, and a subtraction
after an operand.
-/

namespace ChainCalc

/-- A chain read as far as an operand: the first operand and the links after it, latest first. -/
structure Links where
  first : Term
  rest : List (Operator × Term)
deriving Repr

namespace Links

/-- The term of a finished chain. A lone operand stands for itself. -/
def term (l : Links) : Term :=
  match l.rest with
  | [] => l.first
  | _ :: _ =>
    let links := l.rest.reverse
    .chain (l.first :: links.map Prod.snd) (links.map Prod.fst)

/-- A further operator and its right operand. -/
def push (l : Links) (op : Operator) (t : Term) : Links := { l with rest := (op, t) :: l.rest }

end Links

/-- What waits for an operand: a chain that has none yet, or an operator at a column. -/
inductive Due
  | first
  | after (links : Links) (op : Operator) (column : Nat)
deriving Repr

/-- The chain once the operand is there. -/
def Due.fill : Due → Term → Links
  | first, t => ⟨t, []⟩
  | after links op _, t => links.push op t

/-- A construct whose `)` is still to come. -/
inductive Opening
  /-- A group, with the column of its `(`. -/
  | group (column : Nat)
  /-- A call, with the column of its name and the arguments before the current one, latest first. -/
  | call (name : String) (column : Nat) (arguments : List Term)
deriving Repr

/-- The column to blame when the tokens end at once after the opening. -/
def Opening.column : Opening → Nat
  | group column => column
  | call _ column _ => column

/-- The error when the tokens end inside the construct. -/
def Opening.unclosed : Opening → ParseError
  | group column => .unclosedGroup column
  | call name column _ => .malformedCall name column

/-- An open construct and what waits for its value. -/
structure Frame where
  opening : Opening
  due : Due
deriving Repr

/-- The place in the innermost chain. -/
inductive Place
  /-- An operand is due. -/
  | operand (due : Due)
  /-- The operand is a name at a column, or a call if a `(` follows. -/
  | name (due : Due) (name : String) (column : Nat)
  /-- An operand is complete. -/
  | operator (links : Links)
deriving Repr

structure Reader where
  /-- The open constructs, innermost first. -/
  frames : List Frame
  place : Place
deriving Repr

/-- What a token does to a reader. -/
inductive Progress
  | next (reader : Reader)
  /-- The token does not belong to the chain, which is complete. -/
  | stop (term : Term)
deriving Repr

namespace Reader

def start : Reader := ⟨[], .operand .first⟩

/-- A token where an operand is due. -/
def stepOperand (frames : List Frame) (due : Due) (token : Token) : Except ParseError Reader :=
  match token.lexeme with
  | .number text => .ok ⟨frames, .operator (due.fill (.number text))⟩
  | .symbol name => .ok ⟨frames, .name due name token.column⟩
  | .openParen => .ok ⟨⟨.group token.column, due⟩ :: frames, .operand .first⟩
  | .equals => .error (.unexpectedToken token)
  | .operator op =>
    match due with
    | .first => .error (.missingOperand op token.column)
    | .after .. => .error (.consecutiveOperators op token.column)
  | .closeParen =>
    match due, frames with
    | .first, ⟨.call name _ [], outer⟩ :: frames =>
      .ok ⟨frames, .operator (outer.fill (.call name []))⟩
    | .first, _ => .error (.emptyExpression token.column)
    | .after _ op column, _ => .error (.danglingOperator op column)
  | .comma =>
    match due with
    | .first => .error (.emptyExpression token.column)
    | .after _ op column => .error (.danglingOperator op column)

/-- A token after an operand. -/
def stepOperator (frames : List Frame) (links : Links) (token : Token) :
    Except ParseError Progress :=
  match token.lexeme with
  | .operator op => .ok (.next ⟨frames, .operand (.after links op token.column)⟩)
  | .number text =>
    match text.toList with
    | '-' :: digits =>
      .ok (.next ⟨frames, .operator (links.push .sub (.number (String.ofList digits)))⟩)
    | _ => .error (.missingOperator token)
  | .symbol _ => .error (.missingOperator token)
  | .openParen => .error (.missingOperator token)
  | .equals => .error (.unexpectedToken token)
  | .closeParen =>
    match frames with
    | [] => .ok (.stop links.term)
    | ⟨.group _, due⟩ :: frames => .ok (.next ⟨frames, .operator (due.fill links.term)⟩)
    | ⟨.call name _ arguments, due⟩ :: frames =>
      .ok (.next ⟨frames, .operator (due.fill (.call name (links.term :: arguments).reverse))⟩)
  | .comma =>
    match frames with
    | [] => .ok (.stop links.term)
    | ⟨.group _, _⟩ :: _ => .error (.unexpectedToken token)
    | ⟨.call name column arguments, due⟩ :: frames =>
      .ok (.next ⟨⟨.call name column (links.term :: arguments), due⟩ :: frames, .operand .first⟩)

def step (r : Reader) (token : Token) : Except ParseError Progress :=
  match r.place with
  | .operand due => (stepOperand r.frames due token).map .next
  | .operator links => stepOperator r.frames links token
  | .name due name column =>
    match token.lexeme with
    | .openParen => .ok (.next ⟨⟨.call name column [], due⟩ :: r.frames, .operand .first⟩)
    | _ => stepOperator r.frames (due.fill (.var name)) token

/-- The end of the tokens after an operand. -/
def close (frames : List Frame) (links : Links) : Except ParseError Term :=
  match frames with
  | [] => .ok links.term
  | frame :: _ => .error frame.opening.unclosed

/-- The end of the tokens. `column` is to blame if there were none. -/
def finish (r : Reader) (column : Nat) : Except ParseError Term :=
  match r.place with
  | .operand .first =>
    match r.frames with
    | [] => .error (.emptyExpression column)
    | frame :: _ => .error (.emptyExpression frame.opening.column)
  | .operand (.after _ op column) => .error (.danglingOperator op column)
  | .name due name _ => close r.frames (due.fill (.var name))
  | .operator links => close r.frames links

/-- Reads on from a place; gives the term and the tokens after it. -/
def read (r : Reader) (column : Nat) : List Token → Except ParseError (Term × List Token)
  | [] => (r.finish column).map (·, [])
  | token :: tokens =>
    match r.step token with
    | .error e => .error e
    | .ok (.stop term) => .ok (term, token :: tokens)
    | .ok (.next r') => r'.read column tokens

end Reader

/-- Reads a chain, and gives the tokens after it. `column` is to blame if there are no tokens. -/
def readChain (column : Nat) (tokens : List Token) : Except ParseError (Term × List Token) :=
  Reader.start.read column tokens

end ChainCalc
