import ChainCalc.Proofs.Relocation
import ChainCalc.Proofs.ScriptComposition
import ChainCalc.Proofs.Separation
import ChainCalc.Proofs.StatementEffect

/-!
# Indented lines of a script

A script runs its lines without their margins, and columns count from the first character that is
run. So a syntax error on an indented line has a smaller column in a script than the same line has
as a statement of its own: smaller by the width of the left margin, and everything else is the same
(`Session.runScript_error_iff_indent`). The two agree exactly on the lines that are not indented or
have no syntax error.

A line without any token is an exception. Its error is at column 1, wherever its characters stand.
-/

namespace ChainCalc

theorem Token.indent_inj {k : Nat} {t t' : Token} : t.indent k = t'.indent k ↔ t = t' := by
  cases t
  cases t'
  simp [indent]

theorem Token.Moved.eq_indent {k : Nat} {t t' : Token} (h : t.Moved (fun c c' => c' = c + k) t') :
    t' = t.indent k := by
  obtain ⟨lexeme, column, _, rfl, rfl, rfl⟩ := h.exists_eq
  rfl

namespace ParseError

/-- The error, `k` columns further right. -/
def indent (k : Nat) : ParseError → ParseError
  | emptyExpression column => emptyExpression (column + k)
  | unexpectedToken token => unexpectedToken (token.indent k)
  | missingOperand op column => missingOperand op (column + k)
  | consecutiveOperators op column => consecutiveOperators op (column + k)
  | danglingOperator op column => danglingOperator op (column + k)
  | missingOperator token => missingOperator (token.indent k)
  | unclosedGroup column => unclosedGroup (column + k)
  | invalidDeclaration token => invalidDeclaration (token.indent k)
  | malformedCall name column => malformedCall name (column + k)
  | trailingTokens token => trailingTokens (token.indent k)

theorem indent_zero (e : ParseError) : e.indent 0 = e := by
  cases e <;> rfl

theorem indent_inj {k : Nat} {e e' : ParseError} : e.indent k = e'.indent k ↔ e = e' := by
  cases e <;> cases e' <;> simp [indent, Token.indent_inj]

theorem Moved.eq_indent {k : Nat} {e e' : ParseError} (h : e.Moved (fun c c' => c' = c + k) e') :
    e' = e.indent k := by
  cases h with
  | unexpectedToken h | missingOperator h | invalidDeclaration h | trailingTokens h =>
    rw [h.eq_indent]
    rfl
  | emptyExpression h | missingOperand _ h | consecutiveOperators _ h | danglingOperator _ h
  | unclosedGroup h | malformedCall _ h =>
    rw [h]
    rfl

end ParseError

/-! ### Tokens further right -/

theorem nextColumn_inj {c c' : Nat} : nextColumn c = nextColumn c' ↔ c = c' := by
  unfold nextColumn
  constructor
  · intro h
    split at h <;> split at h <;> omega
  · intro h
    rw [h]

theorem Token.Moved.ne {t t' : Token} (h : t.Moved (· ≠ ·) t') : t ≠ t' :=
  fun heq => h.column (congrArg Token.column heq)

theorem ParseError.Moved.ne {e e' : ParseError} (h : e.Moved (· ≠ ·) e') : e ≠ e' := by
  rintro rfl
  cases h with
  | unexpectedToken h | missingOperator h | invalidDeclaration h | trailingTokens h =>
    exact h.ne rfl
  | emptyExpression h | missingOperand _ h | consecutiveOperators _ h | danglingOperator _ h
  | unclosedGroup h | malformedCall _ h => exact h rfl

section
variable {k : Nat} {ts : List Token}

theorem forall₂_map_indent (R : Nat → Nat → Prop) (hR : ∀ c, R c (c + k)) (ts : List Token) :
    List.Forall₂ (Token.Moved R) ts (ts.map (Token.indent k)) := by
  rw [List.forall₂_map_right_iff, List.forall₂_same]
  exact fun t _ => ⟨rfl, hR t.column⟩

theorem parse_indent (hfits : ∀ t ∈ ts, t.column + k + 1 < UInt64.size) (hne : ts ≠ []) :
    parse (ts.map (Token.indent k)) = (parse ts).mapError (ParseError.indent k) := by
  have hnext : ∀ c c', ⟨.equals, c⟩ ∈ ts → c' = c + k → nextColumn c' = nextColumn c + k := by
    rintro c _ hmem rfl
    have hlt : c + k + 1 < UInt64.size := hfits _ hmem
    rw [nextColumn, nextColumn, if_neg (by omega), if_neg (by omega)]
    omega
  have hts := forall₂_map_indent (fun c c' => c' = c + k) (fun _ => rfl) ts
  have hmoved := parse_moved hnext hts hne
  generalize parse ts = x, parse (ts.map (Token.indent k)) = y at hmoved
  cases hmoved with
  | error h => exact congrArg Except.error h.eq_indent
  | ok h => rw [h]; rfl

/-- Wherever the tokens are moved to, an error is another one there. This goes also for the end of
the columns, as no two of them have the same next one. -/
theorem parse_indent_moved (hk : k ≠ 0) (hne : ts ≠ []) :
    Reading.Moved (· ≠ ·) Eq (parse ts) (parse (ts.map (Token.indent k))) := by
  have hnext : ∀ c c', ⟨.equals, c⟩ ∈ ts → c ≠ c' → nextColumn c ≠ nextColumn c' :=
    fun c c' _ => mt nextColumn_inj.1
  exact parse_moved hnext (forall₂_map_indent (· ≠ ·) (fun c => by omega) ts) hne

end

/-! ### One line -/

/-- How far right a statement stands in its line. Only tokens can show it. -/
def indentation (line : String) : Nat :=
  if tokenize line = [] then 0 else (line.toList.takeWhile isBlank).length

theorem tokenize_trim (line : String) :
    tokenize line = (tokenize (String.ofList (trim line.toList))).map
      (Token.indent (line.toList.takeWhile isBlank).length) := by
  obtain ⟨trail, hline, htrail⟩ := exists_margins line.toList
  have hlead : ∀ c ∈ line.toList.takeWhile isBlank, isBlank c :=
    List.all_eq_true.1 List.all_takeWhile
  have hpieces : pieces line = (pieces (String.ofList (trim line.toList))).map
      (Piece.shift (line.toList.takeWhile isBlank).length) := by
    rw [pieces, pieces, String.toList_ofList, ← Piece.scan_margins hlead htrail, ← hline]
  rw [tokenize, tokenize, hpieces, filterMap_token?_shift]

theorem column_le_length {line : String} {t : Token} (h : t ∈ tokenize line) :
    t.column ≤ line.length := by
  obtain ⟨p, hp, ht⟩ := List.mem_filterMap.1 h
  cases p with
  | stray c column => cases ht
  | token u =>
    obtain rfl : u = t := Option.some.inj ht
    have hlt := Piece.column_lt_of_mem_scan hp
    rw [String.length_toList] at hlt
    omega

section
variable {line : String}

theorem tokenize_trim_of_indentation_eq_zero (h : indentation line = 0) :
    tokenize (String.ofList (trim line.toList)) = tokenize line := by
  have htokens := tokenize_trim line
  rw [indentation] at h
  split at h
  · rename_i hnil
    rw [hnil] at htokens
    rw [hnil, List.map_eq_nil_iff.1 htokens.symm]
  · rw [h] at htokens
    rw [htokens]
    exact (List.map_id _).symm

theorem exists_tokens_of_indentation_ne_zero (h : indentation line ≠ 0) :
    ∃ ts, ts ≠ [] ∧ tokenize (String.ofList (trim line.toList)) = ts ∧
      tokenize line = ts.map (Token.indent (indentation line)) := by
  have htokens := tokenize_trim line
  have hne : tokenize line ≠ [] := fun hnil => h (if_pos hnil)
  rw [indentation, if_neg hne]
  refine ⟨_, fun hnil => hne ?_, rfl, htokens⟩
  rw [htokens, hnil, List.map_nil]

/-- A line without its left margin has its errors further left, and otherwise it is the same. -/
theorem parse_trim (hlength : line.length + 1 < UInt64.size) :
    parse (tokenize line) = (parse (tokenize (String.ofList (trim line.toList)))).mapError
      (ParseError.indent (indentation line)) := by
  by_cases hzero : indentation line = 0
  · rw [tokenize_trim_of_indentation_eq_zero hzero, hzero]
    cases parse (tokenize line) with
    | error e => rw [Except.mapError, ParseError.indent_zero]
    | ok t => rfl
  · obtain ⟨ts, hne, htrim, hline⟩ := exists_tokens_of_indentation_ne_zero hzero
    have hfits : ∀ t ∈ ts, t.column + indentation line + 1 < UInt64.size := by
      intro t ht
      have hmem : t.indent (indentation line) ∈ tokenize line := by
        rw [hline]
        exact List.mem_map_of_mem ht
      exact Nat.lt_of_le_of_lt (Nat.succ_le_succ (column_le_length hmem)) hlength
    rw [htrim, hline, parse_indent hfits hne]

end

/-- The error, `k` columns further right if it has a column. -/
def StatementError.indent (k : Nat) : StatementError → StatementError
  | parse e => parse (e.indent k)
  | runtime e => runtime e

theorem StatementError.indent_inj {k : Nat} {e e' : StatementError} :
    e.indent k = e'.indent k ↔ e = e' := by
  cases e <;> cases e' <;> simp [indent, ParseError.indent_inj]

/-- A line that is neither blank nor a comment is run. -/
theorem isIdleLine_trim {line rest : List Char} {c : Char}
    (hfirst : line.dropWhile isBlank = c :: rest) (hc : c ≠ '#') :
    isIdleLine (trim line) = false := by
  have hblank : isBlank c = false := by
    simpa [hfirst] using List.head?_dropWhile_not isBlank line
  obtain ⟨trail, hline, htrail⟩ := exists_margins line
  have hrest : trim line ++ trail = c :: rest := by
    have hsame : line.takeWhile isBlank ++ (trim line ++ trail) =
        line.takeWhile isBlank ++ line.dropWhile isBlank := by
      rw [List.takeWhile_append_dropWhile, ← List.append_assoc, ← hline]
    rw [← hfirst]
    exact List.append_cancel_left hsame
  cases htrim : trim line with
  | nil =>
    rw [htrim, List.nil_append] at hrest
    rw [htrail c (hrest ▸ List.mem_cons_self)] at hblank
    cases hblank
  | cons d ds =>
    rw [htrim, List.cons_append] at hrest
    obtain ⟨rfl, -⟩ := List.cons.inj hrest
    simp [isIdleLine, hc]

namespace Session

variable (s : Session) {line : String}

/-- What becomes of a statement depends on its term only. -/
theorem outcome_run (source : String) :
    (s.run source).outcome = match parse (tokenize source) with
      | .error e => .error (.parse e)
      | .ok t => (s.evaluator.evaluate s.environment t).outcome.mapError .runtime := by
  simp only [run, tokenize]
  cases parse ((pieces source).filterMap Piece.token?) <;> rfl

/-- A line does the same with its margins, but an error is further right. -/
theorem outcome_run_trim (hlength : line.length + 1 < UInt64.size) :
    (s.run line).outcome =
      (s.run (String.ofList (trim line.toList))).outcome.mapError
        (StatementError.indent (indentation line)) := by
  rw [outcome_run, outcome_run, parse_trim hlength]
  cases parse (tokenize (String.ofList (trim line.toList))) with
  | error e => rfl
  | ok t =>
    simp only [Except.mapError]
    cases (s.evaluator.evaluate s.environment t).outcome <;> rfl

/-- The errors are the same only if nothing stands further right, or there is no syntax error. -/
theorem outcome_run_trim_iff (line : String) :
    (∀ e, (s.run (String.ofList (trim line.toList))).outcome = .error e ↔
        (s.run line).outcome = .error e) ↔
      indentation line = 0 ∨ ∀ e, (s.run line).outcome ≠ .error (.parse e) := by
  rw [outcome_run, outcome_run]
  by_cases hzero : indentation line = 0
  · rw [tokenize_trim_of_indentation_eq_zero hzero]
    exact ⟨fun _ => .inl hzero, fun _ e => Iff.rfl⟩
  · obtain ⟨ts, hne, htrim, hline⟩ := exists_tokens_of_indentation_ne_zero hzero
    have hmoved := parse_indent_moved hzero hne
    rw [htrim, hline]
    generalize parse ts = x, parse (ts.map _) = y at hmoved ⊢
    cases hmoved with
    | @error e e' h =>
      constructor
      · intro hsame
        cases (hsame (.parse e)).1 rfl
        exact absurd rfl h.ne
      · rintro (hzero' | hnone)
        · exact absurd hzero' hzero
        · exact absurd rfl (hnone e')
    | @ok t t' h =>
      cases h
      refine ⟨fun _ => .inr fun e => ?_, fun _ e => Iff.rfl⟩
      show (s.evaluator.evaluate s.environment t).outcome.mapError StatementError.runtime ≠ _
      cases (s.evaluator.evaluate s.environment t).outcome <;> simp [Except.mapError]

theorem outcome_runScript_line (hline : '\n' ∉ line.toList)
    (hidle : isIdleLine (trim line.toList) = false) :
    (s.runScript line).outcome =
      (s.run (String.ofList (trim line.toList))).outcome.mapError fun e => ⟨1, e⟩ := by
  have hne : line.toList ≠ [] := by
    intro hnil
    rw [hnil] at hidle
    cases hidle
  rw [runScript, lines_of_notMem hline hne]
  simp only [runLines, hidle]
  cases (s.run (String.ofList (trim line.toList))).outcome with
  | error e => rfl
  | ok value => cases value <;> rfl

/-- A line fails in a script as it fails by itself, but a syntax error has the column that it would
have without the left margin, as long as there are columns for all characters. The two errors are
the same only if there is no margin, or no syntax error. -/
theorem runScript_error_iff_indent (line : String) (hline : '\n' ∉ line.toList) {c : Char}
    {rest : List Char} (hfirst : line.toList.dropWhile isBlank = c :: rest) (hc : c ≠ '#') :
    (line.length + 1 < UInt64.size → ∀ e, (s.runScript line).outcome = .error ⟨1, e⟩ ↔
        (s.run line).outcome = .error (e.indent (indentation line))) ∧
      ((∀ e, (s.runScript line).outcome = .error ⟨1, e⟩ ↔ (s.run line).outcome = .error e) ↔
        indentation line = 0 ∨ ∀ e, (s.run line).outcome ≠ .error (.parse e)) := by
  have hscript : ∀ e, (s.runScript line).outcome = .error ⟨1, e⟩ ↔
      (s.run (String.ofList (trim line.toList))).outcome = .error e := by
    intro e
    rw [s.outcome_runScript_line hline (isIdleLine_trim hfirst hc)]
    cases (s.run (String.ofList (trim line.toList))).outcome <;> simp [Except.mapError]
  simp only [hscript]
  refine ⟨fun hlength e => ?_, s.outcome_run_trim_iff line⟩
  rw [s.outcome_run_trim hlength]
  cases (s.run (String.ofList (trim line.toList))).outcome with
  | ok value => simp [Except.mapError]
  | error cause => simp [Except.mapError, StatementError.indent_inj]

/-- The group is opened in column 6, after a no-break space. In the script that is column 5. -/
theorem noBreakSpace_runScript_error_iff_indent :
    indentation "\u00a0y = (1" = 1 ∧
      ((new 256).run "\u00a0y = (1").outcome = .error (.parse (.unclosedGroup 6)) ∧
      ((new 256).runScript "\u00a0y = (1").outcome = .error ⟨1, .parse (.unclosedGroup 5)⟩ ∧
      ¬ ∀ e, ((new 256).runScript "\u00a0y = (1").outcome = .error ⟨1, e⟩ ↔
        ((new 256).run "\u00a0y = (1").outcome = .error e := by
  have hindentation : indentation "\u00a0y = (1" = 1 := if_neg (List.cons_ne_nil _ _)
  have htokens : tokenize "\u00a0y = (1" =
      [⟨.symbol "y", 2⟩, ⟨.equals, 4⟩, ⟨.openParen, 6⟩, ⟨.number "1", 7⟩] := rfl
  have hparse : parse (tokenize "\u00a0y = (1") = .error (.unclosedGroup 6) := by
    rw [htokens, parse, readStatement_of_assignment rfl, readStatement_of_expression rfl]
    rfl
  have hrun := (run_of_parse_error hparse (s := new 256)).1
  obtain ⟨hshift, hagree⟩ :=
    runScript_error_iff_indent (new 256) "\u00a0y = (1" (by decide) rfl (by decide)
  rw [hindentation] at hshift hagree
  have hscript := (hshift (by decide) (.parse (.unclosedGroup 5))).2 hrun
  refine ⟨hindentation, hrun, hscript, fun hsame => ?_⟩
  rcases hagree.1 hsame with hzero | hparsed
  · cases hzero
  · exact hparsed _ hrun

/-- The operator stands in column 5, and a script says column 3. -/
theorem indented_operator_columns_differ :
    ((new 256).run "  1 +").outcome = .error (.parse (.danglingOperator .add 5)) ∧
      ((new 256).runScript "  1 +").outcome =
        .error ⟨1, .parse (.danglingOperator .add 3)⟩ := by
  have hline : parse (tokenize "  1 +") = .error (.danglingOperator .add 5) := by
    rw [parse, readStatement_of_expression rfl]
    rfl
  have htrim : parse (tokenize "1 +") = .error (.danglingOperator .add 3) := by
    rw [parse, readStatement_of_expression rfl]
    rfl
  have hstatement : String.ofList (trim "  1 +".toList) = "1 +" := rfl
  refine ⟨(run_of_parse_error hline).1, ?_⟩
  rw [outcome_runScript_line _ (by decide) rfl, hstatement, (run_of_parse_error htrim).1]
  rfl

end Session

end ChainCalc
