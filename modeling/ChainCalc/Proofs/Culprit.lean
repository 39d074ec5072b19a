import ChainCalc.Proofs.Headings
import ChainCalc.Proofs.Located
import ChainCalc.Proofs.Refusal

/-!
# Every parse error points at its culprit

`ParseError.Blames tokens e` says what the error `e` may point at in `tokens`: which kinds of tokens
it may name, and whose column it may have. An error about an empty expression has the column of the
token that stands in its place. If the tokens end there, it has the column that is laid down for the
construct that needs the expression (`EndColumn`).

A statement is read heading by heading, and the expression behind them by a reader
(`readStatement_cases`). The columns that the reader keeps belong to tokens that it has read
(`Reader.Located`), so each of the ways in which it can fail names one of them, or the token at hand
(`blames_of_refused`, `blames_of_unfinished`).
-/

namespace ChainCalc

open Grammar

/-- An expression should start behind `pre`: nothing of it is there yet, and with some lexemes at
the end every expression makes a statement of it. -/
def Grammar.ExpressionDue (pre : List Lexeme) : Prop :=
  pre.getLast?.all Lexeme.opensExpression ∧
    ∃ post, ∀ ls t, Expression ls t → ∃ u, Statement (pre ++ (ls ++ post)) u

/-- The column to blame when the tokens end where an expression should start. Behind a `=` in the
last of all columns that is column 0. -/
inductive EndColumn : List Token → Nat → Prop
  | empty : EndColumn [] 1
  | equals (before : List Token) (column : Nat) :
      EndColumn (before ++ [⟨.equals, column⟩]) (nextColumn column)
  | group (before : List Token) (column : Nat)
      (hgroup : ∀ name, (before.map Token.lexeme).getLast? ≠ some (.symbol name)) :
      EndColumn (before ++ [⟨.openParen, column⟩]) column
  /-- The `(` of a call is the last token, or a comma behind one of its arguments is. -/
  | call (before : List Token) (name : String) (column openColumn : Nat) {given : List Token}
      {arguments : List Term} (hgiven : Given (given.map Token.lexeme) arguments) :
      EndColumn (before ++ ⟨.symbol name, column⟩ :: ⟨.openParen, openColumn⟩ :: given) column

def ParseError.Blames (tokens : List Token) (e : ParseError) : Prop :=
  match e with
  | unexpectedToken t =>
    t ∈ tokens ∧ e.column = t.column ∧ (t.lexeme = .equals ∨ t.lexeme = .comma)
  | missingOperator t => t ∈ tokens ∧ e.column = t.column ∧ t.lexeme.StartsOperand
  | invalidDeclaration t =>
    ∃ before after, tokens = before ++ t :: after ∧ e.column = t.column ∧
      ((∃ text, t.lexeme = .number text) ∨ ∃ op, t.lexeme = .operator op) ∧
      .equals ∈ after.map Token.lexeme
  | trailingTokens t =>
    t ∈ tokens ∧ e.column = t.column ∧ (t.lexeme = .closeParen ∨ t.lexeme = .comma)
  | missingOperand op column | consecutiveOperators op column | danglingOperator op column =>
    ⟨.operator op, column⟩ ∈ tokens
  | unclosedGroup column => ⟨.openParen, column⟩ ∈ tokens
  | malformedCall name column =>
    ∃ before openColumn after,
      tokens = before ++ ⟨.symbol name, column⟩ :: ⟨.openParen, openColumn⟩ :: after
  | emptyExpression column =>
    (∃ before t after, tokens = before ++ t :: after ∧ t.column = column ∧
      (t.lexeme = .closeParen ∨ t.lexeme = .comma) ∧ ExpressionDue (before.map Token.lexeme)) ∨
    EndColumn tokens column ∧ ExpressionDue (tokens.map Token.lexeme)

/-! ### The headings of a statement that fails -/

namespace Heading

variable {name : String} {params : List String} {tokens : List Token} {token : Token}

theorem ofParams_eq_malformed (h : ofParams name params tokens = malformed token) :
    ∃ before after, tokens = before ++ token :: after ∧
      ((∃ text, token.lexeme = .number text) ∨ ∃ op, token.lexeme = .operator op) ∧
      .equals ∈ after.map Token.lexeme := by
  induction tokens generalizing params with
  | nil => cases h
  | cons first tokens ih =>
    by_cases hp : IsParameter first.lexeme
    · rw [ofParams_cons hp] at h
      obtain ⟨before, after, rfl, hmalformed⟩ := ih h
      exact ⟨first :: before, after, rfl, hmalformed⟩
    · obtain ⟨lexeme, column⟩ := first
      cases lexeme with
      | equals => cases h
      | symbol | comma | openParen | closeParen => simp [IsParameter] at hp
      | number text | operator op =>
        simp only [ofParams] at h
        split at h
        · rename_i hequals
          cases h
          exact ⟨[], tokens, rfl, by simp, by simpa using hequals⟩
        · cases h

theorem ofTokens_eq_malformed (h : ofTokens tokens = malformed token) :
    ∃ before after, tokens = before ++ token :: after ∧
      ((∃ text, token.lexeme = .number text) ∨ ∃ op, token.lexeme = .operator op) ∧
      .equals ∈ after.map Token.lexeme := by
  fun_cases ofTokens tokens with
  | case1 x nameColumn equalsColumn rest => simp [ofTokens] at h
  | case2 x nameColumn openColumn rest =>
    obtain ⟨before, after, rfl, hmalformed⟩ := ofParams_eq_malformed h
    exact ⟨⟨.symbol x, nameColumn⟩ :: ⟨.openParen, openColumn⟩ :: before, after, rfl, hmalformed⟩
  | case3 => simp_all [ofTokens]

end Heading

/-- The column to blame if no tokens follow the headings, of which the last token is a `=`. -/
def columnBehind (column : Nat) (headings : List Token) : Nat :=
  match headings.getLast? with
  | none => column
  | some token => nextColumn token.column

theorem columnBehind_append (column equalsColumn : Nat) (front headings : List Token) :
    columnBehind column (front ++ ⟨.equals, equalsColumn⟩ :: headings) =
      columnBehind (nextColumn equalsColumn) headings := by
  rcases h : headings.getLast? with _ | token
  · simp [columnBehind, List.getLast?_append, List.getLast?_cons, h]
  · simp [columnBehind, List.getLast?_append, List.getLast?_cons, h]

theorem map_map_rest (x : Except ParseError (Term × List Token)) (f g : Term → Term) :
    ((x.map fun (t, rest) => (f t, rest)).map fun (t, rest) => (g t, rest)) =
      x.map fun (t, rest) => (g (f t), rest) := by
  cases x <;> rfl

/-- A statement is read as the expression behind its headings is, unless there is one more heading
that is malformed. -/
theorem readStatement_cases (column : Nat) (tokens : List Token) :
    ∃ headings rest f, tokens = headings ++ rest ∧ Headings (headings.map Token.lexeme) f ∧
      ((∃ token, Heading.ofTokens rest = .malformed token ∧
          readStatement column tokens = .error (.invalidDeclaration token)) ∨
        readStatement column tokens =
          (readChain (columnBehind column headings) rest).map fun (t, rest) => (f t, rest)) := by
  fun_induction readStatement column tokens with
  | case1 column tokens name equalsColumn after hheading ih =>
    obtain ⟨headings, rest, f, rfl, hheadings, hread⟩ := ih
    obtain ⟨nameColumn, rfl⟩ := Heading.ofTokens_eq_assignment hheading
    have hcolumn := columnBehind_append column equalsColumn [⟨.symbol name, nameColumn⟩] headings
    refine ⟨⟨.symbol name, nameColumn⟩ :: ⟨.equals, equalsColumn⟩ :: headings, rest, _, rfl,
      .assign name hheadings, ?_⟩
    rcases hread with ⟨token, hmalformed, hread⟩ | hread
    · exact .inl ⟨token, hmalformed, by rw [hread]; rfl⟩
    · rw [hread, ← hcolumn]
      exact .inr (map_map_rest _ f (.assign name))
  | case2 column tokens name params equalsColumn after hheading ih =>
    obtain ⟨headings, rest, f, rfl, hheadings, hread⟩ := ih
    obtain ⟨nameColumn, openColumn, ps, rfl, hps, rfl⟩ := Heading.ofTokens_eq_declaration hheading
    have hcolumn := columnBehind_append column equalsColumn
      (⟨.symbol name, nameColumn⟩ :: ⟨.openParen, openColumn⟩ :: ps) headings
    have hps' : ∀ p ∈ ps.map Token.lexeme, IsParameter p := by simpa using hps
    have hdeclare := hheadings.declare name hps'
    refine ⟨⟨.symbol name, nameColumn⟩ :: ⟨.openParen, openColumn⟩ ::
      (ps ++ ⟨.equals, equalsColumn⟩ :: headings), rest, _, by simp,
      by simpa only [List.map_cons, List.map_append] using hdeclare, ?_⟩
    rcases hread with ⟨token, hmalformed, hread⟩ | hread
    · exact .inl ⟨token, hmalformed, by rw [hread]; rfl⟩
    · rw [hread, ← hcolumn]
      exact .inr (map_map_rest _ f (.declare name _))
  | case3 column tokens token hheading =>
    exact ⟨[], tokens, id, rfl, .nil, .inl ⟨token, hheading, rfl⟩⟩
  | case4 column tokens hheading =>
    refine ⟨[], tokens, id, rfl, .nil, .inr ?_⟩
    show readChain column tokens = (readChain column tokens).map _
    cases readChain column tokens <;> rfl

/-! ### Where an expression should start -/

section
variable {headings before after : List Token} {f : Term → Term} {frames : List Frame}
  {r : Reader} {token : Token} {e : ParseError}

/-- At the start of a chain, the headings and what the reader has taken end where one starts. -/
theorem getLast?_all_opensExpression {opened : List Token}
    (hheadings : Headings (headings.map Token.lexeme) f) (h : Frame.LocatedAll frames opened) :
    ((headings ++ opened).map Token.lexeme).getLast?.all Lexeme.opensExpression := by
  have hopened := h.getLast?_all
  rw [List.map_append, List.getLast?_append]
  generalize (opened.map Token.lexeme).getLast? = last at hopened ⊢
  rcases last with _ | l
  · rcases hheadings.eq_nil_or_getLast? with hnil | hequals
    · simp [hnil]
    · simp [hequals, Lexeme.opensExpression]
  · simpa using hopened

theorem Reader.Located.of_first (h : Located ⟨frames, .operand .first⟩ before) :
    Frame.LocatedAll frames before := by
  obtain ⟨opened, here, rfl, hframes, hhere⟩ := h
  obtain rfl : here = [] := hhere
  rwa [List.append_nil]

theorem expressionDue_of_run (hheadings : Headings (headings.map Token.lexeme) f)
    (hrun : Reader.Run .start before ⟨frames, .operand .first⟩) :
    ExpressionDue ((headings ++ before).map Token.lexeme) := by
  have hlocated := (Reader.located_start.run hrun).of_first
  refine ⟨getLast?_all_opensExpression hheadings hlocated,
    List.replicate frames.length .closeParen, fun ls t ht => ?_⟩
  obtain ⟨tokens, rfl⟩ := Token.exists_map_lexeme ls
  obtain ⟨place, links, htokens, hl, -⟩ := ht.run rfl frames
  obtain ⟨r, u, hclose, hdone⟩ := Reader.exists_run_close frames hl
  have hwhole := expression_iff_run.2 ⟨r, hrun.append (htokens.append hclose), hdone⟩
  refine ⟨f u, statement_iff.2 ⟨_, f, _, u, ?_, hheadings, hwhole, rfl⟩⟩
  simp

/-! ### The errors of a reader -/

theorem blames_of_refused (hheadings : Headings (headings.map Token.lexeme) f)
    (hrun : Reader.Run .start before r) (h : Reader.Refuses r token e) :
    e.Blames (headings ++ (before ++ token :: after)) := by
  have hmem : token ∈ headings ++ (before ++ token :: after) := by simp
  cases h with
  | equals r column => exact ⟨hmem, rfl, .inl rfl⟩
  | comma frames due openColumn column hl => exact ⟨hmem, rfl, .inr rfl⟩
  | missingOperand frames op column => exact hmem
  | consecutive frames links last op lastColumn column => exact hmem
  | operand frames hl ht hnot => exact ⟨hmem, rfl, ht⟩
  | dangling frames links op column ht =>
    obtain ⟨opened, _, rfl, -, chain, rfl, -⟩ := Reader.located_start.run hrun
    simp [ParseError.Blames]
  | empty frames ht hnot =>
    exact .inl ⟨headings ++ before, token, after, by simp, rfl, ht,
      expressionDue_of_run hheadings hrun⟩

theorem endColumn_headings (hheadings : Headings (headings.map Token.lexeme) f) :
    EndColumn headings (columnBehind 1 headings) := by
  rcases headings.eq_nil_or_concat with rfl | ⟨before, last, rfl⟩
  · exact .empty
  · rw [List.concat_eq_append] at hheadings ⊢
    obtain ⟨lexeme, column⟩ := last
    obtain rfl : lexeme = .equals := by simpa using hheadings.eq_nil_or_getLast?
    have hcolumn : columnBehind 1 (before ++ [⟨.equals, column⟩]) = nextColumn column :=
      columnBehind_append 1 column before []
    rw [hcolumn]
    exact .equals before column

/-- A name in front of the `(` would have made it the `(` of a call. -/
theorem getLast?_ne_symbol {outer : List Token} {due : Due}
    (hheadings : Headings (headings.map Token.lexeme) f) (hs : Frame.LocatedAll frames outer)
    (hd : due.Reads (before.map Token.lexeme)) (name : String) :
    ((headings ++ (outer ++ before)).map Token.lexeme).getLast? ≠ some (.symbol name) := by
  rcases due with _ | ⟨links, op, column⟩
  · obtain rfl : before = [] := List.map_eq_nil_iff.1 hd
    have hopens := getLast?_all_opensExpression hheadings hs
    intro hlast
    rw [List.append_nil] at hlast
    rw [hlast] at hopens
    cases hopens
  · obtain ⟨ms, hms, -⟩ := hd
    rw [List.map_append, List.map_append, hms]
    simp [List.getLast?_append]

theorem blames_of_unfinished (hheadings : Headings (headings.map Token.lexeme) f)
    (hrun : Reader.Run .start before r)
    (h : Reader.Unfinished r (columnBehind 1 headings) e) : e.Blames (headings ++ before) := by
  have hlocated := Reader.located_start.run hrun
  cases h with
  | start =>
    rcases hlocated.of_first with _ | _
    have hdue := expressionDue_of_run hheadings hrun
    rw [List.append_nil] at hdue ⊢
    exact .inr ⟨endColumn_headings hheadings, hdue⟩
  | opened frame frames =>
    refine .inr ⟨?_, expressionDue_of_run hheadings hrun⟩
    rcases hlocated.of_first with _ | ⟨hs, hd, ho⟩
    rename_i opening due outer before opened
    rcases opening with column | ⟨name, column, arguments⟩
    · obtain rfl := ho
      have hend := EndColumn.group _ column (getLast?_ne_symbol hheadings hs hd)
      simpa [Opening.column] using hend
    · obtain ⟨openColumn, given, rfl, hgiven⟩ := ho
      have hend := EndColumn.call (headings ++ (outer ++ before)) name column openColumn hgiven
      simpa [Opening.column] using hend
  | dangling frames links op opColumn =>
    obtain ⟨opened, _, rfl, -, chain, rfl, -⟩ := hlocated
    simp [ParseError.Blames]
  | unclosed frame frames _ hl =>
    obtain ⟨opened, here, rfl, hframes, -⟩ := hlocated
    rcases hframes with _ | ⟨hs, hd, ho⟩
    rename_i opening due outer before opened
    rcases opening with column | ⟨name, column, arguments⟩
    · obtain rfl := ho
      simp [Opening.unclosed, ParseError.Blames]
    · obtain ⟨openColumn, given, rfl, -⟩ := ho
      exact ⟨headings ++ (outer ++ before), openColumn, given ++ here, by simp⟩

end

/-- Every parse error points at its culprit: the token or the column that it carries is that of a
token of the kind that the error is about, or the one laid down for tokens that end too early. -/
theorem parse_error_blames_culprit {tokens : List Token} {e : ParseError}
    (h : parse tokens = .error e) : e.Blames tokens := by
  obtain ⟨headings, rest, f, rfl, hheadings, ⟨token, hmalformed, hread⟩ | hread⟩ :=
    readStatement_cases 1 tokens
  · obtain rfl : .invalidDeclaration token = e := by simpa [parse, hread] using h
    obtain ⟨before, after, rfl, hkind, hequals⟩ := Heading.ofTokens_eq_malformed hmalformed
    exact ⟨headings ++ before, after, by simp, rfl, hkind, hequals⟩
  · rcases hchain : readChain (columnBehind 1 headings) rest with e' | ⟨t, left⟩
    · obtain rfl : e' = e := by simpa [parse, hread, hchain, Except.map] using h
      obtain ⟨before, r, hrun, ⟨rfl, hend⟩ | ⟨token, after, rfl, hrefused⟩⟩ :=
        Reader.read_eq_error_iff.1 hchain
      · exact blames_of_unfinished hheadings hrun hend
      · exact blames_of_refused hheadings hrun hrefused
    · rcases left with _ | ⟨token, left⟩
      · simp [parse, hread, hchain, Except.map] at h
      · obtain rfl : .trailingTokens token = e := by
          simpa [parse, hread, hchain, Except.map] using h
        obtain ⟨read, rfl, -, hends⟩ := readChain_eq_ok_iff.1 hchain
        exact ⟨by simp, rfl, hends⟩

/-- The tokens of `y = f((2), `: an argument is missing at the end, and the name of the call is to
blame. Those of `x =` have the `=` in the last column, and there is none behind it. -/
theorem openCall_parse_error_blames_culprit :
    let tokens : List Token := [⟨.symbol "y", 1⟩, ⟨.equals, 3⟩, ⟨.symbol "f", 5⟩, ⟨.openParen, 6⟩,
      ⟨.openParen, 7⟩, ⟨.number "2", 8⟩, ⟨.closeParen, 9⟩, ⟨.comma, 10⟩]
    let atLast : List Token := [⟨.symbol "x", 1⟩, ⟨.equals, UInt64.size - 1⟩]
    (parse tokens = .error (.emptyExpression 5) ∧
        ParseError.Blames tokens (.emptyExpression 5)) ∧
      parse atLast = .error (.emptyExpression 0) ∧
      ParseError.Blames atLast (.emptyExpression 0) := by
  intro tokens atLast
  have hparse : parse tokens = .error (.emptyExpression 5) := by
    rw [parse, readStatement_of_assignment rfl, readStatement_of_expression rfl]
    rfl
  have hlast : parse atLast = .error (.emptyExpression 0) := by
    rw [parse, readStatement_of_assignment rfl, readStatement_of_expression rfl]
    rfl
  exact ⟨⟨hparse, parse_error_blames_culprit hparse⟩, hlast, parse_error_blames_culprit hlast⟩

end ChainCalc
