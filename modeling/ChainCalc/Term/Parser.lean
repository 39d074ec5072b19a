import ChainCalc.Term.Chain

/-!
# Reading a statement

A statement is an assignment `x = statement`, a declaration `f(a, b) = statement`, or a chain. Which
one it is shows before the first `=`. A name and a `(` start a declaration if only names, commas and
parentheses stand before the next `=`; without any `=` they start a call.
-/

namespace ChainCalc

/-- How a statement starts. The tokens `rest` follow the `=` at `column`. -/
inductive Heading
  | assignment (name : String) (column : Nat) (rest : List Token)
  | declaration (name : String) (params : List String) (column : Nat) (rest : List Token)
  /-- A list of parameters with a token that does not belong there. -/
  | malformed (token : Token)
  | expression
deriving Repr

namespace Heading

/-- Looks for the `=` of a declaration of `name`; `params` have been seen so far, latest first. -/
def ofParams (name : String) (params : List String) : List Token → Heading
  | [] => expression
  | token :: tokens =>
    match token.lexeme with
    | .equals => declaration name params.reverse token.column tokens
    | .symbol param => ofParams name (param :: params) tokens
    | .comma | .openParen | .closeParen => ofParams name params tokens
    | .number _ | .operator _ =>
      if tokens.any (·.lexeme == .equals) then malformed token else expression

def ofTokens : List Token → Heading
  | ⟨.symbol name, _⟩ :: ⟨.equals, column⟩ :: tokens => assignment name column tokens
  | ⟨.symbol name, _⟩ :: ⟨.openParen, _⟩ :: tokens => ofParams name [] tokens
  | _ => expression

/-- The tokens after the `=` of the heading, if it has one. -/
def rest? : Heading → Option (List Token)
  | assignment _ _ tokens => some tokens
  | declaration _ _ _ tokens => some tokens
  | malformed _ => none
  | expression => none

theorem length_lt_of_rest?_ofParams {name : String} {params : List String}
    {tokens rest : List Token} (h : (ofParams name params tokens).rest? = some rest) :
    rest.length < tokens.length := by
  induction tokens generalizing params with
  | nil => simp [ofParams, rest?] at h
  | cons token tokens ih =>
    rw [ofParams] at h
    split at h
    · obtain rfl : tokens = rest := Option.some.inj h
      exact Nat.lt_succ_self _
    · exact Nat.lt_succ_of_lt (ih h)
    · exact Nat.lt_succ_of_lt (ih h)
    · exact Nat.lt_succ_of_lt (ih h)
    · exact Nat.lt_succ_of_lt (ih h)
    all_goals split at h <;> simp [rest?] at h

/-- What follows the heading is shorter than the statement. -/
theorem length_lt_of_rest?_ofTokens {tokens rest : List Token}
    (h : (ofTokens tokens).rest? = some rest) : rest.length < tokens.length := by
  fun_cases ofTokens tokens with
  | case1 name _ column tokens =>
    obtain rfl : tokens = rest := Option.some.inj h
    exact Nat.lt_succ_of_lt (Nat.lt_succ_self _)
  | case2 name _ _ tokens =>
    exact Nat.lt_succ_of_lt (Nat.lt_succ_of_lt (length_lt_of_rest?_ofParams h))
  | case3 => simp [ofTokens, rest?] at h

end Heading

/-- Reads a statement, and gives the tokens after it. `column` is to blame if there are none. -/
def readStatement (column : Nat) (tokens : List Token) : Except ParseError (Term × List Token) :=
  match h : Heading.ofTokens tokens with
  | .assignment name column rest =>
    (readStatement (nextColumn column) rest).map fun (value, rest) => (.assign name value, rest)
  | .declaration name params column rest =>
    (readStatement (nextColumn column) rest).map fun (body, rest) =>
      (.declare name params body, rest)
  | .malformed token => .error (.invalidDeclaration token)
  | .expression => readChain column tokens
termination_by tokens.length
decreasing_by all_goals exact Heading.length_lt_of_rest?_ofTokens (by rw [h]; rfl)

/-- The term of the tokens of one statement. -/
def parse (tokens : List Token) : Except ParseError Term :=
  match readStatement 1 tokens with
  | .error e => .error e
  | .ok (term, []) => .ok term
  | .ok (_, token :: _) => .error (.trailingTokens token)

end ChainCalc
