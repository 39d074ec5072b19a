import ChainCalc.Proofs.Refusal

/-!
# Errors are found at once

Without a `=` among the tokens nothing is looked up ahead, and the tokens go to one reader from left
to right (`parse_eq_error_iff`). It fails at the first token that it cannot take. What it has taken
until then could still have become a statement (`Reader.exists_done`); with the refused token it
cannot, whatever comes next, and the error is always the same one (`parse_error_at_first_refused`).

The other errors are about what is not there: an operand, or a `)`. Another token in its place may
well be all right.
-/

namespace ChainCalc

open Grammar

/-- The token that an error reports as one that cannot stand where it stands. -/
def ParseError.refused? : ParseError → Option Token
  | missingOperand op column | consecutiveOperators op column => some ⟨.operator op, column⟩
  | missingOperator token | unexpectedToken token | trailingTokens token => some token
  | emptyExpression _ | danglingOperator .. | unclosedGroup _ | invalidDeclaration _
  | malformedCall .. => none

namespace Reader

variable {r : Reader} {token t : Token} {column : Nat} {e : ParseError}

theorem Refuses.eq_of_refused? (h : Refuses r token e) (ht : e.refused? = some t) :
    t = token := by
  cases h with
  | dangling | empty => cases ht
  | equals | comma | missingOperand | consecutive | operand => exact (Option.some.inj ht).symm

theorem Unfinished.refused?_eq_none (h : Unfinished r column e) : e.refused? = none := by
  cases h with
  | start | opened | dangling => rfl
  | unclosed frame =>
    obtain ⟨opening, due⟩ := frame
    cases opening <;> rfl

/-- The reader cannot take the token, or the chain ends before it. -/
def Halts (r : Reader) (token : Token) (e : ParseError) : Prop :=
  Refuses r token e ∨ (∃ t, r.Done t) ∧ Ends [token] ∧ e = .trailingTokens token

end Reader

open Reader

variable {tokens : List Token} {e : ParseError}

theorem readStatement_of_no_equals (h : .equals ∉ tokens.map Token.lexeme) (column : Nat) :
    readStatement column tokens = start.read column tokens :=
  readStatement_of_expression (Heading.ofTokens_of_no_equals h)

theorem parse_eq_error_iff (h : .equals ∉ tokens.map Token.lexeme) :
    parse tokens = .error e ↔
      ∃ before r, Run start before r ∧ (tokens = before ∧ Unfinished r 1 e ∨
        ∃ token after, tokens = before ++ token :: after ∧ r.Halts token e) := by
  rw [parse, readStatement_of_no_equals h]
  constructor
  · intro hparse
    split at hparse
    · rename_i hread
      cases hparse
      obtain ⟨before, r, hrun, hend | ⟨token, after, rfl, hrefused⟩⟩ := read_eq_error_iff.1 hread
      · exact ⟨before, r, hrun, .inl hend⟩
      · exact ⟨before, r, hrun, .inr ⟨token, after, rfl, .inl hrefused⟩⟩
    · cases hparse
    · rename_i t token after hread
      cases hparse
      obtain ⟨before, r, rfl, hrun, hdone, hends⟩ := read_eq_ok_iff.1 hread
      exact ⟨before, r, hrun, .inr ⟨token, after, rfl, .inr ⟨⟨t, hdone⟩, hends, rfl⟩⟩⟩
  · rintro ⟨before, r, hrun, hend | ⟨token, after, rfl, hrefused | ⟨⟨t, hdone⟩, hends, rfl⟩⟩⟩
    · rw [read_eq_error_iff.2 ⟨before, r, hrun, .inl hend⟩]
    · rw [read_eq_error_iff.2 ⟨before, r, hrun, .inr ⟨token, after, rfl, hrefused⟩⟩]
    · have hread : start.read 1 (before ++ token :: after) = .ok (t, token :: after) :=
        read_eq_ok_iff.2 ⟨before, r, rfl, hrun, hdone, hends⟩
      rw [hread]

/-- What a reader has taken is the first part of a statement. -/
theorem Reader.Run.exists_parse {before : List Token} {r : Reader} (h : Run start before r) :
    ∃ more t, .equals ∉ more.map Token.lexeme ∧ parse (before ++ more) = .ok t := by
  obtain ⟨more, r', t, hnone, hrun, hdone⟩ := r.exists_done
  exact ⟨more, t, hnone,
    parse_eq_ok_iff.2 (.expression (expression_iff_run.2 ⟨r', h.append hrun, hdone⟩))⟩

/-- Among tokens without a `=`, a token that is reported is the first one that cannot go on: the
tokens before it are the first part of a statement, and with it they are not, but always fail in the
same way. -/
theorem parse_error_at_first_refused {tokens : List Token} {e : ParseError} {token : Token}
    (hnone : .equals ∉ tokens.map Token.lexeme) (h : parse tokens = .error e)
    (htoken : e.refused? = some token) :
    ∃ before after, tokens = before ++ token :: after ∧
      (∃ more t, .equals ∉ more.map Token.lexeme ∧ parse (before ++ more) = .ok t) ∧
      ∀ more, .equals ∉ more.map Token.lexeme →
        parse (before ++ token :: more) = .error e := by
  obtain ⟨before, r, hrun, ⟨-, hend⟩ | ⟨reached, after, rfl, hhalts⟩⟩ :=
    (parse_eq_error_iff hnone).1 h
  · simp [hend.refused?_eq_none] at htoken
  · obtain rfl : token = reached := by
      rcases hhalts with hrefused | ⟨-, -, rfl⟩
      · exact hrefused.eq_of_refused? htoken
      · exact (Option.some.inj htoken).symm
    refine ⟨before, after, rfl, hrun.exists_parse, fun more hmore => ?_⟩
    have hboth : .equals ∉ (before ++ token :: more).map Token.lexeme := by
      simp only [List.map_append, List.map_cons, List.mem_append, List.mem_cons, not_or] at hnone ⊢
      exact ⟨hnone.1, hnone.2.1, hmore⟩
    exact (parse_eq_error_iff hboth).2 ⟨before, r, hrun, .inr ⟨token, more, rfl, hhalts⟩⟩

/-- The tokens of `f(1, (2 * / 3`: the division is one operator too many. -/
theorem division_parse_error_at_first_refused :
    let taken : List Token := [⟨.symbol "f", 1⟩, ⟨.openParen, 2⟩, ⟨.number "1", 3⟩, ⟨.comma, 4⟩,
      ⟨.openParen, 6⟩, ⟨.number "2", 7⟩, ⟨.operator .mul, 9⟩]
    let tokens : List Token := taken ++ [⟨.operator .div, 11⟩, ⟨.number "3", 13⟩]
    let e : ParseError := .consecutiveOperators .div 11
    .equals ∉ tokens.map Token.lexeme ∧ parse tokens = .error e ∧
      e.refused? = some ⟨.operator .div, 11⟩ ∧
      ∃ before after, tokens = before ++ ⟨.operator .div, 11⟩ :: after ∧
        (∃ more t, .equals ∉ more.map Token.lexeme ∧ parse (before ++ more) = .ok t) ∧
        ∀ more, .equals ∉ more.map Token.lexeme →
          parse (before ++ ⟨.operator .div, 11⟩ :: more) = .error e := by
  intro taken tokens e
  have hnone : .equals ∉ tokens.map Token.lexeme := by decide
  have hparse : parse tokens = .error e := by
    rw [parse, readStatement_of_expression rfl]
    rfl
  exact ⟨hnone, hparse, rfl, parse_error_at_first_refused hnone hparse rfl⟩

end ChainCalc
