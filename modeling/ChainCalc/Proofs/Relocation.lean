import ChainCalc.Proofs.StatementGrammar
import Mathlib.Data.List.Forall2

/-!
# Tokens in other columns

Columns are carried along and never looked at: a reader that gets the same lexemes in other columns
makes the same moves. Let `R` relate the columns of two lists of tokens, one by one, and go from the
column of a `=` to the next one on both sides. Then the two lists have the same term, or errors of
one kind whose columns are again related by `R` (`parse_moved`).

The column to blame when there are no tokens is an exception, as it stands for the whole statement.
Once there is a token, nothing depends on it (`readStatement_of_ne_nil`).
-/

namespace ChainCalc

section Moved

variable (R : Nat → Nat → Prop)

/-- The same lexeme, in a column that is related. -/
structure Token.Moved (t t' : Token) : Prop where
  lexeme : t.lexeme = t'.lexeme
  column : R t.column t'.column

inductive ParseError.Moved : ParseError → ParseError → Prop
  | emptyExpression {c c' : Nat} (h : R c c') : Moved (.emptyExpression c) (.emptyExpression c')
  | unexpectedToken {t t' : Token} (h : t.Moved R t') :
      Moved (.unexpectedToken t) (.unexpectedToken t')
  | missingOperand (op : Operator) {c c' : Nat} (h : R c c') :
      Moved (.missingOperand op c) (.missingOperand op c')
  | consecutiveOperators (op : Operator) {c c' : Nat} (h : R c c') :
      Moved (.consecutiveOperators op c) (.consecutiveOperators op c')
  | danglingOperator (op : Operator) {c c' : Nat} (h : R c c') :
      Moved (.danglingOperator op c) (.danglingOperator op c')
  | missingOperator {t t' : Token} (h : t.Moved R t') :
      Moved (.missingOperator t) (.missingOperator t')
  | unclosedGroup {c c' : Nat} (h : R c c') : Moved (.unclosedGroup c) (.unclosedGroup c')
  | invalidDeclaration {t t' : Token} (h : t.Moved R t') :
      Moved (.invalidDeclaration t) (.invalidDeclaration t')
  | malformedCall (name : String) {c c' : Nat} (h : R c c') :
      Moved (.malformedCall name c) (.malformedCall name c')
  | trailingTokens {t t' : Token} (h : t.Moved R t') :
      Moved (.trailingTokens t) (.trailingTokens t')

/-- Errors that differ at most in their columns, or results that `V` relates. -/
inductive Reading.Moved {α β : Type} (V : α → β → Prop) :
    Except ParseError α → Except ParseError β → Prop
  | error {e e' : ParseError} (h : e.Moved R e') : Moved V (.error e) (.error e')
  | ok {a : α} {b : β} (h : V a b) : Moved V (.ok a) (.ok b)

inductive Due.Moved : Due → Due → Prop
  | first : Moved .first .first
  | after (links : Links) (op : Operator) {c c' : Nat} (h : R c c') :
      Moved (.after links op c) (.after links op c')

inductive Opening.Moved : Opening → Opening → Prop
  | group {c c' : Nat} (h : R c c') : Moved (.group c) (.group c')
  | call (name : String) (arguments : List Term) {c c' : Nat} (h : R c c') :
      Moved (.call name c arguments) (.call name c' arguments)

inductive Frame.Moved : Frame → Frame → Prop
  | mk {o o' : Opening} {d d' : Due} (ho : o.Moved R o') (hd : d.Moved R d') :
      Moved ⟨o, d⟩ ⟨o', d'⟩

inductive Place.Moved : Place → Place → Prop
  | operand {d d' : Due} (h : d.Moved R d') : Moved (.operand d) (.operand d')
  | name (x : String) {d d' : Due} {c c' : Nat} (hd : d.Moved R d') (h : R c c') :
      Moved (.name d x c) (.name d' x c')
  | operator (links : Links) : Moved (.operator links) (.operator links)

inductive Reader.Moved : Reader → Reader → Prop
  | mk {fs fs' : List Frame} {p p' : Place} (hfs : List.Forall₂ (Frame.Moved R) fs fs')
      (hp : p.Moved R p') : Moved ⟨fs, p⟩ ⟨fs', p'⟩

inductive Progress.Moved : Progress → Progress → Prop
  | next {r r' : Reader} (h : r.Moved R r') : Moved (.next r) (.next r')
  | stop (t : Term) : Moved (.stop t) (.stop t)

end Moved

variable {R : Nat → Nat → Prop}

theorem Token.Moved.exists_eq {t t' : Token} (h : t.Moved R t') :
    ∃ lexeme column column', R column column' ∧ t = ⟨lexeme, column⟩ ∧ t' = ⟨lexeme, column'⟩ := by
  obtain ⟨lexeme, column⟩ := t
  obtain ⟨lexeme', column'⟩ := t'
  obtain rfl : lexeme = lexeme' := h.lexeme
  exact ⟨lexeme, column, column', h.column, rfl, rfl⟩

/-! ### One chain -/

theorem Due.Moved.fill_eq {d d' : Due} (h : d.Moved R d') (t : Term) : d.fill t = d'.fill t := by
  cases h <;> rfl

namespace Reader

variable {fs fs' : List Frame} {token token' : Token}

theorem stepOperand_moved {d d' : Due} (hfs : List.Forall₂ (Frame.Moved R) fs fs')
    (hd : d.Moved R d') (ht : token.Moved R token') :
    Reading.Moved R (Reader.Moved R) (stepOperand fs d token) (stepOperand fs' d' token') := by
  obtain ⟨lexeme, column, column', hcolumn, rfl, rfl⟩ := ht.exists_eq
  cases lexeme with
  | number text =>
    simp only [stepOperand, hd.fill_eq]
    exact .ok ⟨hfs, .operator _⟩
  | symbol name => exact .ok ⟨hfs, .name name hd hcolumn⟩
  | openParen => exact .ok ⟨.cons ⟨.group hcolumn, hd⟩ hfs, .operand .first⟩
  | equals => exact .error (.unexpectedToken ⟨rfl, hcolumn⟩)
  | operator op =>
    cases hd with
    | first => exact .error (.missingOperand op hcolumn)
    | after => exact .error (.consecutiveOperators op hcolumn)
  | closeParen =>
    cases hd with
    | after links op h => exact .error (.danglingOperator op h)
    | first =>
      cases hfs with
      | nil => exact .error (.emptyExpression hcolumn)
      | cons hf hfs =>
        obtain ⟨ho, hd⟩ := hf
        cases ho with
        | group => exact .error (.emptyExpression hcolumn)
        | call name arguments =>
          cases arguments with
          | cons => exact .error (.emptyExpression hcolumn)
          | nil =>
            simp only [stepOperand, hd.fill_eq]
            exact .ok ⟨hfs, .operator _⟩
  | comma =>
    cases hd with
    | first => exact .error (.emptyExpression hcolumn)
    | after links op h => exact .error (.danglingOperator op h)

theorem stepOperator_moved (hfs : List.Forall₂ (Frame.Moved R) fs fs') (links : Links)
    (ht : token.Moved R token') :
    Reading.Moved R (Progress.Moved R) (stepOperator fs links token)
      (stepOperator fs' links token') := by
  obtain ⟨lexeme, column, column', hcolumn, rfl, rfl⟩ := ht.exists_eq
  cases lexeme with
  | operator op => exact .ok (.next ⟨hfs, .operand (.after links op hcolumn)⟩)
  | number text =>
    simp only [stepOperator]
    split
    · exact .ok (.next ⟨hfs, .operator _⟩)
    · exact .error (.missingOperator ⟨rfl, hcolumn⟩)
  | symbol | openParen => exact .error (.missingOperator ⟨rfl, hcolumn⟩)
  | equals => exact .error (.unexpectedToken ⟨rfl, hcolumn⟩)
  | closeParen =>
    cases hfs with
    | nil => exact .ok (.stop _)
    | cons hf hfs =>
      obtain ⟨ho, hd⟩ := hf
      cases ho with
      | group | call =>
        simp only [stepOperator, hd.fill_eq]
        exact .ok (.next ⟨hfs, .operator _⟩)
  | comma =>
    cases hfs with
    | nil => exact .ok (.stop _)
    | cons hf hfs =>
      obtain ⟨ho, hd⟩ := hf
      cases ho with
      | group => exact .error (.unexpectedToken ⟨rfl, hcolumn⟩)
      | call name arguments h =>
        exact .ok (.next ⟨.cons ⟨.call name _ h, hd⟩ hfs, .operand .first⟩)

theorem step_moved {r r' : Reader} (hr : r.Moved R r') (ht : token.Moved R token') :
    Reading.Moved R (Progress.Moved R) (r.step token) (r'.step token') := by
  obtain ⟨hfs, hp⟩ := hr
  cases hp with
  | operand hd =>
    have hstep := stepOperand_moved hfs hd ht
    simp only [step]
    generalize stepOperand _ _ token = x, stepOperand _ _ token' = y at hstep
    cases hstep with
    | error h => exact .error h
    | ok h => exact .ok (.next h)
  | operator links => exact stepOperator_moved hfs links ht
  | name x hd h =>
    by_cases hl : token.lexeme = .openParen
    · have hl' : token'.lexeme = .openParen := ht.lexeme.symm.trans hl
      simp only [step, hl, hl']
      exact .ok (.next ⟨.cons ⟨.call x [] h, hd⟩ hfs, .operand .first⟩)
    · have hl' : token'.lexeme ≠ .openParen := fun h' => hl (ht.lexeme.trans h')
      rw [step_of_links? rfl hl, step_of_links? rfl hl', hd.fill_eq]
      exact stepOperator_moved hfs _ ht

theorem close_moved (hfs : List.Forall₂ (Frame.Moved R) fs fs') (links : Links) :
    Reading.Moved R Eq (close fs links) (close fs' links) := by
  cases hfs with
  | nil => exact .ok rfl
  | cons hf =>
    obtain ⟨ho, -⟩ := hf
    cases ho with
    | group h => exact .error (.unclosedGroup h)
    | call name arguments h => exact .error (.malformedCall name h)

theorem finish_moved {r r' : Reader} {c c' : Nat} (hr : r.Moved R r') (hc : R c c') :
    Reading.Moved R Eq (r.finish c) (r'.finish c') := by
  obtain ⟨hfs, hp⟩ := hr
  cases hp with
  | operator links => exact close_moved hfs links
  | name x hd =>
    simp only [finish, hd.fill_eq]
    exact close_moved hfs _
  | operand hd =>
    cases hd with
    | after links op h => exact .error (.danglingOperator op h)
    | first =>
      cases hfs with
      | nil => exact .error (.emptyExpression hc)
      | cons hf =>
        obtain ⟨ho, -⟩ := hf
        cases ho with
        | group h => exact .error (.emptyExpression h)
        | call name arguments h => exact .error (.emptyExpression h)

end Reader

/-- The same term, and the same lexemes after it. -/
def Reading.MovedRest (R : Nat → Nat → Prop) (p p' : Term × List Token) : Prop :=
  p.1 = p'.1 ∧ List.Forall₂ (Token.Moved R) p.2 p'.2

open Reading (MovedRest)

theorem Reader.read_moved {r r' : Reader} {c c' : Nat} {ts ts' : List Token} (hr : r.Moved R r')
    (hc : R c c') (hts : List.Forall₂ (Token.Moved R) ts ts') :
    Reading.Moved R (MovedRest R) (r.read c ts) (r'.read c' ts') := by
  induction hts generalizing r r' with
  | nil =>
    have hfinish := finish_moved hr hc
    simp only [read]
    generalize r.finish c = x, r'.finish c' = y at hfinish
    cases hfinish with
    | error h => exact .error h
    | ok h => exact .ok ⟨h, .nil⟩
  | cons ht hts ih =>
    have hstep := step_moved hr ht
    simp only [read]
    generalize r.step _ = x, r'.step _ = y at hstep
    cases hstep with
    | error h => exact .error h
    | ok h =>
      cases h with
      | next h => exact ih h
      | stop t => exact .ok ⟨rfl, .cons ht hts⟩

/-! ### Statements -/

namespace Heading

/-- The same heading, with what follows it in other columns. -/
inductive Moved (R : Nat → Nat → Prop) : Heading → Heading → Prop
  | assignment (name : String) {c c' : Nat} {ts ts' : List Token} (h : R c c')
      (hts : List.Forall₂ (Token.Moved R) ts ts') :
      Moved R (.assignment name c ts) (.assignment name c' ts')
  | declaration (name : String) (params : List String) {c c' : Nat} {ts ts' : List Token}
      (h : R c c') (hts : List.Forall₂ (Token.Moved R) ts ts') :
      Moved R (.declaration name params c ts) (.declaration name params c' ts')
  | malformed {t t' : Token} (h : t.Moved R t') : Moved R (.malformed t) (.malformed t')
  | expression : Moved R .expression .expression

theorem any_equals_eq {ts ts' : List Token} (hts : List.Forall₂ (Token.Moved R) ts ts') :
    ts.any (·.lexeme == .equals) = ts'.any (·.lexeme == .equals) := by
  induction hts with
  | nil => rfl
  | cons ht _ ih => rw [List.any_cons, List.any_cons, ht.lexeme, ih]

theorem ofParams_moved (name : String) (params : List String) {ts ts' : List Token}
    (hts : List.Forall₂ (Token.Moved R) ts ts') :
    Moved R (ofParams name params ts) (ofParams name params ts') := by
  induction hts generalizing params with
  | nil => exact .expression
  | cons ht hts ih =>
    obtain ⟨lexeme, column, column', hcolumn, rfl, rfl⟩ := ht.exists_eq
    cases lexeme with
    | equals => exact .declaration name _ hcolumn hts
    | symbol x => exact ih (x :: params)
    | comma | openParen | closeParen => exact ih params
    | number | operator =>
      simp only [ofParams, any_equals_eq hts]
      split
      · exact .malformed ⟨rfl, hcolumn⟩
      · exact .expression

theorem ofTokens_moved {ts ts' : List Token} (hts : List.Forall₂ (Token.Moved R) ts ts') :
    Moved R (ofTokens ts) (ofTokens ts') := by
  cases hts with
  | nil => exact .expression
  | cons ht hts =>
    obtain ⟨lexeme, column, column', -, rfl, rfl⟩ := ht.exists_eq
    cases lexeme with
    | number | operator | equals | openParen | closeParen | comma => exact .expression
    | symbol name =>
      cases hts with
      | nil => exact .expression
      | cons hsecond hts =>
        obtain ⟨lexeme, column, column', hcolumn, rfl, rfl⟩ := hsecond.exists_eq
        cases lexeme with
        | number | operator | symbol | closeParen | comma => exact .expression
        | equals => exact .assignment name hcolumn hts
        | openParen => exact ofParams_moved name [] hts

end Heading

theorem Reading.Moved.map_rest {x y : Except ParseError (Term × List Token)}
    (h : Reading.Moved R (MovedRest R) x y) (f : Term → Term) :
    Reading.Moved R (MovedRest R) (x.map fun (t, rest) => (f t, rest))
      (y.map fun (t, rest) => (f t, rest)) := by
  cases h with
  | error h => exact .error h
  | ok h => exact .ok ⟨congrArg f h.1, h.2⟩

theorem readStatement_moved {ts ts' : List Token} {c c' : Nat}
    (hnext : ∀ c c', ⟨.equals, c⟩ ∈ ts → R c c' → R (nextColumn c) (nextColumn c')) (hc : R c c')
    (hts : List.Forall₂ (Token.Moved R) ts ts') :
    Reading.Moved R (MovedRest R) (readStatement c ts) (readStatement c' ts') := by
  have hheading := Heading.ofTokens_moved hts
  generalize hh : Heading.ofTokens ts = heading, hh' : Heading.ofTokens ts' = heading' at hheading
  cases hheading with
  | @assignment name c c' rest rest' h hrest =>
    have hlt : rest.length < ts.length :=
      Heading.length_lt_of_rest?_ofTokens (congrArg Heading.rest? hh)
    obtain ⟨nameColumn, rfl⟩ := Heading.ofTokens_eq_assignment hh
    rw [readStatement_of_assignment hh, readStatement_of_assignment hh']
    have hread := readStatement_moved (fun d d' hd => hnext d d' (by simp [hd]))
      (hnext c c' (by simp) h) hrest
    exact hread.map_rest (.assign name)
  | @declaration name params c c' rest rest' h hrest =>
    have hlt : rest.length < ts.length :=
      Heading.length_lt_of_rest?_ofTokens (congrArg Heading.rest? hh)
    obtain ⟨nameColumn, openColumn, ps, rfl, -⟩ := Heading.ofTokens_eq_declaration hh
    rw [readStatement_of_declaration hh, readStatement_of_declaration hh']
    have hread := readStatement_moved (fun d d' hd => hnext d d' (by simp [hd]))
      (hnext c c' (by simp) h) hrest
    exact hread.map_rest (.declare name params)
  | malformed h =>
    rw [readStatement_of_malformed hh, readStatement_of_malformed hh']
    exact .error (.invalidDeclaration h)
  | expression =>
    rw [readStatement_of_expression hh, readStatement_of_expression hh']
    exact Reader.read_moved ⟨.nil, .operand .first⟩ hc hts
termination_by ts.length

/-! ### The column of a statement without tokens -/

namespace Reader

/-- Something has been read: a construct is open, or the chain has a token. -/
def Begun (r : Reader) : Prop := r.frames = [] → r.place ≠ .operand .first

theorem Step.begun {r r' : Reader} {token : Token} (h : Step r token r') : r'.Begun := by
  cases h <;> simp [Begun]

theorem finish_of_begun {r : Reader} (h : r.Begun) (c c' : Nat) : r.finish c = r.finish c' := by
  match r with
  | ⟨[], .operand .first⟩ => exact absurd rfl (h rfl)
  | ⟨_ :: _, .operand .first⟩ => rfl
  | ⟨_, .operand (.after ..)⟩ => rfl
  | ⟨_, .name ..⟩ => rfl
  | ⟨_, .operator _⟩ => rfl

theorem read_of_begun_or_ne_nil {r : Reader} {ts : List Token} (h : r.Begun ∨ ts ≠ [])
    (c c' : Nat) : r.read c ts = r.read c' ts := by
  induction ts generalizing r with
  | nil =>
    have hbegun : r.Begun := h.resolve_right fun hne => hne rfl
    simp only [read, finish_of_begun hbegun c c']
  | cons token ts ih =>
    simp only [read]
    cases hs : r.step token with
    | error e => rfl
    | ok progress =>
      cases progress with
      | stop t => rfl
      | next r' => exact ih (.inl (step_eq_next_iff.1 hs).begun)

end Reader

theorem readStatement_of_ne_nil {ts : List Token} (h : ts ≠ []) (c c' : Nat) :
    readStatement c ts = readStatement c' ts := by
  cases hheading : Heading.ofTokens ts with
  | assignment => rw [readStatement_of_assignment hheading, readStatement_of_assignment hheading]
  | declaration => rw [readStatement_of_declaration hheading, readStatement_of_declaration hheading]
  | malformed => rw [readStatement_of_malformed hheading, readStatement_of_malformed hheading]
  | expression =>
    rw [readStatement_of_expression hheading, readStatement_of_expression hheading]
    exact Reader.read_of_begun_or_ne_nil (.inr h) c c'

/-- The same lexemes in other columns are the same term, or fail for the same reason. -/
theorem parse_moved {ts ts' : List Token}
    (hnext : ∀ c c', ⟨.equals, c⟩ ∈ ts → R c c' → R (nextColumn c) (nextColumn c'))
    (hts : List.Forall₂ (Token.Moved R) ts ts') (hne : ts ≠ []) :
    Reading.Moved R Eq (parse ts) (parse ts') := by
  cases hts with
  | nil => exact absurd rfl hne
  | @cons token token' ts ts' ht hts =>
    -- there are tokens, so any two columns that are related may stand for the default one
    have hread := readStatement_moved hnext ht.column (.cons ht hts)
    rw [readStatement_of_ne_nil (List.cons_ne_nil token ts) _ 1,
      readStatement_of_ne_nil (List.cons_ne_nil token' ts') _ 1] at hread
    simp only [parse]
    generalize readStatement 1 (token :: ts) = x, readStatement 1 (token' :: ts') = y at hread
    cases hread with
    | error h => exact .error h
    | @ok p p' h =>
      obtain ⟨t, rest⟩ := p
      obtain ⟨t', rest'⟩ := p'
      obtain ⟨rfl, hrest⟩ : t = t' ∧ List.Forall₂ (Token.Moved R) rest rest' := h
      cases hrest with
      | nil => exact .ok rfl
      | cons h => exact .error (.trailingTokens h)

end ChainCalc
