import ChainCalc.Term.Basic
import ChainCalc.Token.Basic

/-!
# The grammar of statements

Which lists of lexemes spell which terms, said without a reader:

    statement  ::= name = statement | name ( parameter* = statement | expression
    expression ::= operand (operator operand | negative number)*
    operand    ::= number | name | name ( ) | name ( arguments ) | ( expression )
    arguments  ::= expression (, expression)*

A parameter list takes names, commas and parentheses in any order. A lone operand is its own
expression, and a group is the term inside it, so neither leaves a trace in the term.
-/

namespace ChainCalc.Grammar

mutual

inductive Operand : List Lexeme → Term → Prop
  | number (text : String) : Operand [.number text] (.number text)
  | var (name : String) : Operand [.symbol name] (.var name)
  | callNone (name : String) : Operand [.symbol name, .openParen, .closeParen] (.call name [])
  | call (name : String) {ls : List Lexeme} {ts : List Term} (h : Arguments ls ts) :
      Operand (.symbol name :: .openParen :: (ls ++ [.closeParen])) (.call name ts)
  | group {ls : List Lexeme} {t : Term} (h : Expression ls t) :
      Operand (.openParen :: (ls ++ [.closeParen])) t

/-- What follows the first operand, with the operators and operands it adds. -/
inductive Tail : List Lexeme → List (Operator × Term) → Prop
  | nil : Tail [] []
  | link (op : Operator) {ls ms : List Lexeme} {t : Term} {rest : List (Operator × Term)}
      (h : Operand ls t) (hs : Tail ms rest) :
      Tail (.operator op :: (ls ++ ms)) ((op, t) :: rest)
  /-- A negative number after an operand is a subtraction. -/
  | minus (digits : List Char) {ms : List Lexeme} {rest : List (Operator × Term)}
      (hs : Tail ms rest) :
      Tail (.number (String.ofList ('-' :: digits)) :: ms)
        ((.sub, .number (String.ofList digits)) :: rest)

inductive Expression : List Lexeme → Term → Prop
  | lone {ls : List Lexeme} {t : Term} (h : Operand ls t) : Expression ls t
  | chain {ls ms : List Lexeme} {t : Term} {rest : List (Operator × Term)}
      (h : Operand ls t) (hs : Tail ms rest) (hne : rest ≠ []) :
      Expression (ls ++ ms) (.chain (t :: rest.map Prod.snd) (rest.map Prod.fst))

/-- One or more arguments. -/
inductive Arguments : List Lexeme → List Term → Prop
  | last {ls : List Lexeme} {t : Term} (h : Expression ls t) : Arguments ls [t]
  | cons {ls ms : List Lexeme} {t : Term} {ts : List Term}
      (h : Expression ls t) (hs : Arguments ms ts) : Arguments (ls ++ .comma :: ms) (t :: ts)

end

/-- The lexemes that may stand in a list of parameters. -/
def IsParameter (l : Lexeme) : Prop :=
  (∃ name, l = .symbol name) ∨ l = .comma ∨ l = .openParen ∨ l = .closeParen

/-- The parameters of a list are its names. -/
def name? : Lexeme → Option String
  | .symbol name => some name
  | _ => none

inductive Statement : List Lexeme → Term → Prop
  | assign (name : String) {ls : List Lexeme} {t : Term} (h : Statement ls t) :
      Statement (.symbol name :: .equals :: ls) (.assign name t)
  | declare (name : String) {ps ls : List Lexeme} {t : Term} (hps : ∀ p ∈ ps, IsParameter p)
      (h : Statement ls t) :
      Statement (.symbol name :: .openParen :: (ps ++ .equals :: ls))
        (.declare name (ps.filterMap name?) t)
  | expression {ls : List Lexeme} {t : Term} (h : Expression ls t) : Statement ls t

/-! ### No expression has a `=` -/

mutual

theorem Operand.equals_notMem {ls : List Lexeme} {t : Term} :
    Operand ls t → Lexeme.equals ∉ ls
  | .number _ | .var _ | .callNone _ => by simp
  | .call _ h => by simp [h.equals_notMem]
  | .group h => by simp [h.equals_notMem]

theorem Tail.equals_notMem {ls : List Lexeme} {rest : List (Operator × Term)} :
    Tail ls rest → Lexeme.equals ∉ ls
  | .nil => by simp
  | .link _ h hs => by simp [h.equals_notMem, hs.equals_notMem]
  | .minus _ hs => by simp [hs.equals_notMem]

theorem Expression.equals_notMem {ls : List Lexeme} {t : Term} :
    Expression ls t → Lexeme.equals ∉ ls
  | .lone h => h.equals_notMem
  | .chain h hs _ => by simp [h.equals_notMem, hs.equals_notMem]

theorem Arguments.equals_notMem {ls : List Lexeme} {ts : List Term} :
    Arguments ls ts → Lexeme.equals ∉ ls
  | .last h => h.equals_notMem
  | .cons h hs => by simp [h.equals_notMem, hs.equals_notMem]

end

theorem Tail.append {ls ms : List Lexeme} {rest more : List (Operator × Term)} :
    Tail ls rest → Tail ms more → Tail (ls ++ ms) (rest ++ more)
  | .nil, hm => hm
  | .link op h hs, hm => by
    simp only [List.cons_append, List.append_assoc]
    exact .link op h (hs.append hm)
  | .minus digits hs, hm => .minus digits (hs.append hm)

end ChainCalc.Grammar
