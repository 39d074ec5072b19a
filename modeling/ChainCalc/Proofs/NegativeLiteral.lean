import ChainCalc.Proofs.Headings
import ChainCalc.Proofs.Separation
import ChainCalc.Proofs.StatementGrammar

/-!
# A negative number after an operand is a subtraction

The lexer joins a minus sign to the digit behind it, and the reader takes the two apart again where
an operand is complete. A reader that has just taken a lexeme which can end an operand is at such a
place, whatever came before (`Reader.Run.exists_links`), and from there both spellings bring it to
the same one (`Reader.run_minus_iff`). Headings are out of the way, as neither spelling can stand in
one (`Grammar.statement_append_iff`), so the spellings mean the same in every statement.
-/

namespace ChainCalc

open Grammar

/-- The lexemes that an operand can end with. -/
def Lexeme.endsOperand : Lexeme → Bool
  | number _ | symbol _ | closeParen => true
  | openParen | equals | operator _ | comma => false

/-! ### The two spellings, for a reader -/

namespace Reader

variable {r s : Reader} {token : Token} {tokens : List Token} {links : Links}

theorem Step.exists_links (h : Step r token s) (he : token.lexeme.endsOperand) :
    ∃ links, s.place.links? = some links := by
  cases h with
  | number | name | noArguments | minus | closeGroup | closeCall => exact ⟨_, rfl⟩
  | group | call | operator | comma => cases he

theorem Run.exists_links (h : Run r tokens s)
    (he : (tokens.map Token.lexeme).getLast?.any Lexeme.endsOperand) :
    ∃ links, s.place.links? = some links := by
  rcases tokens.eq_nil_or_concat with rfl | ⟨before, token, rfl⟩
  · cases he
  · rw [List.concat_eq_append] at h he
    obtain ⟨r₁, -, hlast⟩ := h.exists_of_append
    cases hlast with
    | cons hstep hnil =>
      cases hnil
      exact hstep.exists_links (by simpa using he)

theorem run_minus_iff (hl : r.place.links? = some links) (digits : List Char)
    (column minusColumn numberColumn : Nat) :
    Run r [⟨.number (String.ofList ('-' :: digits)), column⟩] s ↔
      Run r [⟨.operator .sub, minusColumn⟩, ⟨.number (String.ofList digits), numberColumn⟩] s := by
  obtain ⟨frames, place⟩ := r
  have hjoined := Run.single (Step.minus frames digits column hl)
  have hapart := Run.cons (.operator frames .sub minusColumn hl)
    (.single (.number frames (.after links .sub minusColumn) (String.ofList digits) numberColumn))
  constructor
  · intro h
    rw [h.unique hjoined]
    exact hapart
  · intro h
    rw [h.unique hapart]
    exact hjoined

end Reader

/-! ### In expressions and statements -/

namespace Grammar

variable {pre : List Lexeme} {t : Term}

/-- Tokens in the middle of an expression may be replaced by others that move the reader alike. -/
theorem expression_replace {es : List Token} (xs ys post : List Token)
    (hxy : ∀ r s, Reader.Run .start es r → Reader.Run r xs s → Reader.Run r ys s)
    (h : Expression ((es ++ (xs ++ post)).map Token.lexeme) t) :
    Expression ((es ++ (ys ++ post)).map Token.lexeme) t := by
  obtain ⟨r, hrun, hdone⟩ := expression_iff_run.1 h
  obtain ⟨r₁, hes, hrun⟩ := hrun.exists_of_append
  obtain ⟨r₂, hxs, hpost⟩ := hrun.exists_of_append
  exact expression_iff_run.2 ⟨r, hes.append ((hxy r₁ r₂ hes hxs).append hpost), hdone⟩

theorem expression_minus_iff {es : List Lexeme} (he : es.getLast?.any Lexeme.endsOperand)
    (digits : List Char) (post : List Lexeme) :
    Expression (es ++ .number (String.ofList ('-' :: digits)) :: post) t ↔
      Expression (es ++ .operator .sub :: .number (String.ofList digits) :: post) t := by
  obtain ⟨es, rfl⟩ := Token.exists_map_lexeme es
  obtain ⟨post, rfl⟩ := Token.exists_map_lexeme post
  let joined : List Token := [⟨.number (String.ofList ('-' :: digits)), 1⟩]
  let apart : List Token := [⟨.operator .sub, 1⟩, ⟨.number (String.ofList digits), 1⟩]
  have hsame : ∀ r s, Reader.Run .start es r → (Reader.Run r joined s ↔ Reader.Run r apart s) := by
    intro r s hes
    obtain ⟨links, hl⟩ := hes.exists_links he
    exact Reader.run_minus_iff hl digits 1 1 1
  have hjoined := expression_replace (t := t) joined apart post fun r s hes => (hsame r s hes).1
  have hapart := expression_replace (t := t) apart joined post fun r s hes => (hsame r s hes).2
  simp only [List.map_append] at hjoined hapart
  exact ⟨hjoined, hapart⟩

/-- The last heading ends with `=`, so a lexeme that ends an operand is behind all of them. -/
theorem Headings.getLast?_append {hs es : List Lexeme} {f : Term → Term} (h : Headings hs f)
    (he : (hs ++ es).getLast?.any Lexeme.endsOperand) : es.getLast?.any Lexeme.endsOperand := by
  cases hlast : es.getLast? with
  | some l => simpa [List.getLast?_append, hlast] using he
  | none =>
    rw [List.getLast?_eq_none_iff.1 hlast, List.append_nil] at he
    rcases h.eq_nil_or_getLast? with rfl | hequals
    · cases he
    · rw [hequals] at he
      cases he

theorem statement_minus_iff (hpre : pre.getLast?.any Lexeme.endsOperand) (digits : List Char)
    (post : List Lexeme) :
    Statement (pre ++ .number (String.ofList ('-' :: digits)) :: post) t ↔
      Statement (pre ++ .operator .sub :: .number (String.ofList digits) :: post) t := by
  rw [statement_append_iff (by simp [IsParameter]) (by simp),
    statement_append_iff (by simp [IsParameter]) (by simp)]
  constructor
  · rintro ⟨hs, f, es, e, rfl, hhs, he, rfl⟩
    have hes := hhs.getLast?_append hpre
    exact ⟨hs, f, es, e, rfl, hhs, (expression_minus_iff hes digits post).1 he, rfl⟩
  · rintro ⟨hs, f, es, e, rfl, hhs, he, rfl⟩
    have hes := hhs.getLast?_append hpre
    exact ⟨hs, f, es, e, rfl, hhs, (expression_minus_iff hes digits post).2 he, rfl⟩

end Grammar

/-! ### In texts -/

/-- A minus sign stands alone unless a digit is behind it, and then it is joined to the number. -/
theorem lexemes_minus (cs : List Char) :
    lexemes ('-' :: cs) = .operator .sub :: lexemes cs ∨
      ∃ digits ls, lexemes ('-' :: cs) = .number (String.ofList ('-' :: digits)) :: ls ∧
        lexemes cs = .number (String.ofList digits) :: ls := by
  cases hd : cs.head?.any Char.isDigit with
  | false =>
    have hclosed : (Lexeme.operator .sub).closedBy cs.head? := by simp [Lexeme.closedBy, hd]
    exact .inl (lexemes_spell_append rfl hclosed)
  | true =>
    cases cs with
    | nil => cases hd
    | cons d cs =>
      have hdigit : isNumeric d := isNumeric_of_isDigit hd
      have hjoined : startsNumber '-' (d :: cs) := by simpa [startsNumber] using .inr hd
      have hapart : startsNumber d cs := by simp [startsNumber, hdigit]
      refine .inr ⟨d :: cs.takeWhile isNumeric, lexemes (cs.drop (cs.takeWhile isNumeric).length),
        ?_, lexemes_of_longest? (Lexeme.longest?_of_startsNumber hapart)⟩
      rw [lexemes_of_longest? (Lexeme.longest?_of_startsNumber hjoined),
        List.takeWhile_cons_of_pos hdigit]
      rfl

theorem lexemes_blank (cs : List Char) : lexemes (' ' :: cs) = lexemes cs :=
  lexemes_of_longest?_none rfl

theorem lexemes_append_blank (cs rest : List Char) :
    lexemes (cs ++ ' ' :: rest) = lexemes cs ++ lexemes rest := by
  have hblank : closesAll (some ' ') := rfl
  rw [lexemes_append_of_closesAll hblank, lexemes_blank]

theorem lexemes_minus_blank (cs : List Char) :
    lexemes ('-' :: ' ' :: cs) = .operator .sub :: lexemes cs := by
  have hclosed : (Lexeme.operator .sub).closedBy (' ' :: cs).head? := rfl
  rw [← lexemes_blank cs]
  exact lexemes_spell_append rfl hclosed

/-- Joined to what is behind it or not, the minus sign is the one between two blanks. -/
theorem statement_lexemes_minus {cs : List Char}
    (hcs : (lexemes cs).getLast?.any Lexeme.endsOperand) (rest : List Char) (t : Term) :
    Statement (lexemes cs ++ lexemes ('-' :: rest)) t ↔
      Statement (lexemes (cs ++ ' ' :: '-' :: ' ' :: rest)) t := by
  rw [lexemes_append_blank, lexemes_minus_blank]
  rcases lexemes_minus rest with h | ⟨digits, ls, hjoined, hapart⟩
  · rw [h]
  · rw [hjoined, hapart, statement_minus_iff hcs]

theorem getLast?_endsOperand {tokens : List Token}
    (h : tokens.getLast?.any (·.lexeme.endsOperand)) :
    (tokens.map Token.lexeme).getLast?.any Lexeme.endsOperand := by
  rw [List.getLast?_map, Option.any_map]
  exact h

/-- Lexemes with the same derivations are accepted alike, with the same term. -/
theorem toOption_parse_eq {tokens tokens' : List Token}
    (h : ∀ t, Statement (tokens.map Token.lexeme) t ↔ Statement (tokens'.map Token.lexeme) t) :
    (parse tokens).toOption = (parse tokens').toOption := by
  have hok : ∀ (x : Except ParseError Term) t, x.toOption = some t ↔ x = .ok t := by
    intro x t
    cases x <;> simp [Except.toOption]
  refine Option.ext fun t => ?_
  rw [hok, hok, parse_eq_ok_iff, parse_eq_ok_iff, h]

/-- A negative number after an operand is a subtraction in every context: both spellings give the
same term, or both fail, wherever their tokens stand. So with blanks around the minus sign, with one
in front of it only and with none a text means the same. -/
theorem parse_minus_after_operand :
    (∀ (pre pre' post post' : List Token) (text : String) (column minusColumn numberColumn : Nat),
      pre.getLast?.any (·.lexeme.endsOperand) →
      pre'.map Token.lexeme = pre.map Token.lexeme →
      post'.map Token.lexeme = post.map Token.lexeme →
      (parse (pre ++ ⟨.number ("-" ++ text), column⟩ :: post)).toOption =
        (parse (pre' ++ ⟨.operator .sub, minusColumn⟩ :: ⟨.number text, numberColumn⟩ ::
          post')).toOption) ∧
    ∀ before after : String, (tokenize before).getLast?.any (·.lexeme.endsOperand) →
      (parse (tokenize (before ++ "-" ++ after))).toOption =
          (parse (tokenize (before ++ " - " ++ after))).toOption ∧
        (parse (tokenize (before ++ " -" ++ after))).toOption =
          (parse (tokenize (before ++ " - " ++ after))).toOption := by
  constructor
  · intro pre pre' post post' text column minusColumn numberColumn hpre hpre' hpost'
    have htext : "-" ++ text = String.ofList ('-' :: text.toList) := by
      rw [← String.toList_inj]
      simp
    refine toOption_parse_eq fun t => ?_
    have hiff := statement_minus_iff (t := t) (getLast?_endsOperand hpre) text.toList
      (post.map Token.lexeme)
    rw [String.ofList_toList, ← htext] at hiff
    simpa [hpre', hpost'] using hiff
  · intro before after hbefore
    have hlast : (lexemes before.toList).getLast?.any Lexeme.endsOperand := by
      rw [← map_lexeme_tokenize]
      exact getLast?_endsOperand hbefore
    have hminus : closesAll (some '-') := rfl
    have hjoined := lexemes_append_of_closesAll hminus before.toList after.toList
    have hfront := lexemes_append_blank before.toList ('-' :: after.toList)
    constructor
    · refine toOption_parse_eq fun t => ?_
      have hiff := statement_lexemes_minus hlast after.toList t
      rw [← hjoined] at hiff
      simpa [map_lexeme_tokenize] using hiff
    · refine toOption_parse_eq fun t => ?_
      have hiff := statement_lexemes_minus hlast after.toList t
      rw [← hfront] at hiff
      simpa [map_lexeme_tokenize] using hiff

/-- The tokens of `f(x) = (x -3) * 2`, those of `f(x -3) = 1`, which fails in both spellings, and a
body with and without blanks around the minus sign. -/
theorem body_parse_minus_after_operand :
    let pre : List Token := [⟨.symbol "f", 1⟩, ⟨.openParen, 2⟩, ⟨.symbol "x", 3⟩]
    let grouped : List Token := pre ++
      [⟨.closeParen, 4⟩, ⟨.equals, 6⟩, ⟨.openParen, 8⟩, ⟨.symbol "x", 9⟩]
    let post : List Token := [⟨.closeParen, 13⟩, ⟨.operator .mul, 15⟩, ⟨.number "2", 17⟩]
    let tail : List Token := [⟨.closeParen, 6⟩, ⟨.equals, 8⟩, ⟨.number "1", 10⟩]
    let product : Term :=
      .declare "f" ["x"] (.chain [.chain [.var "x", .number "3"] [.sub], .number "2"] [.mul])
    let difference : Term := .declare "f" ["x"] (.chain [.var "x", .number "3"] [.sub])
    parse (grouped ++ ⟨.operator .sub, 11⟩ :: ⟨.number "3", 12⟩ :: post) = .ok product ∧
      (parse (grouped ++ ⟨.number ("-" ++ "3"), 11⟩ :: post)).toOption =
        (parse (grouped ++ ⟨.operator .sub, 11⟩ :: ⟨.number "3", 12⟩ :: post)).toOption ∧
      (parse (pre ++ ⟨.number ("-" ++ "3"), 4⟩ :: tail)).toOption =
        (parse (pre ++ ⟨.operator .sub, 4⟩ :: ⟨.number "3", 6⟩ :: tail)).toOption ∧
      parse (tokenize ("f(x) = x" ++ " - " ++ "3")) = .ok difference ∧
      (parse (tokenize ("f(x) = x" ++ "-" ++ "3"))).toOption =
        (parse (tokenize ("f(x) = x" ++ " - " ++ "3"))).toOption := by
  intro pre grouped post tail product difference
  have hparams : ∀ p ∈ [.symbol "x", .closeParen], IsParameter p := by simp [IsParameter]
  have hdifference := Expression.chain (.var "x") (.link .sub (.number "3") .nil) (by simp)
  have hproduct := Expression.chain (.group hdifference) (.link .mul (.number "2") .nil) (by simp)
  have hgrouped : parse (grouped ++ ⟨.operator .sub, 11⟩ :: ⟨.number "3", 12⟩ :: post) =
      .ok product := parse_eq_ok_iff.2 (.declare "f" hparams (.expression hproduct))
  have htext : parse (tokenize ("f(x) = x" ++ " - " ++ "3")) = .ok difference := by
    rw [parse_eq_ok_iff, map_lexeme_tokenize]
    exact .declare "f" hparams (.expression hdifference)
  obtain ⟨htokens, htexts⟩ := parse_minus_after_operand
  exact ⟨hgrouped, htokens grouped grouped post post "3" 11 11 12 rfl rfl rfl,
    htokens pre pre tail tail "3" 4 4 6 rfl rfl rfl, htext, (htexts "f(x) = x" "3" rfl).1⟩

end ChainCalc
