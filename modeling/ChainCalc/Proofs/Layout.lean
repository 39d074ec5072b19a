import ChainCalc.Proofs.Relocation
import ChainCalc.Proofs.StatementEffect

/-!
# Layout has no meaning

Where the tokens of a statement stand decides nothing but the columns of its errors. Two lists of
tokens that show the same kinds and texts are read side by side, so they have the same term or fail
alike (`parse_alike`). Texts with such tokens then do the same in every session
(`Session.run_alike`, `layout_has_no_meaning`).
-/

namespace ChainCalc

open EvalM Grammar

theorem Lexeme.eq_of_kind_of_text {l l' : Lexeme} (hkind : l.kind = l'.kind)
    (htext : l.text = l'.text) : l = l' := by
  rcases l with _ | _ | _ | _ | (_ | _ | _ | _ | _) | _ | _ <;>
    rcases l' with _ | _ | _ | _ | (_ | _ | _ | _ | _) | _ | _ <;>
    simp_all [kind, text]

/-- What a token shows of itself apart from its place: the kind and the text. -/
def Token.face (t : Token) : String × String := (t.lexeme.kind, t.lexeme.text)

theorem Token.moved_of_face_eq {t t' : Token} (h : t.face = t'.face) :
    t.Moved (fun _ _ => True) t' := by
  obtain ⟨hkind, htext⟩ := Prod.ext_iff.1 h
  exact ⟨Lexeme.eq_of_kind_of_text hkind htext, trivial⟩

namespace ParseError

/-- Errors of one kind, about the same operator, function or token, wherever these stand. -/
def Alike (e e' : ParseError) : Prop := e.Moved (fun _ _ => True) e'

/-- Errors that are alike have the same message, but for the column. -/
theorem Alike.detail_eq {e e' : ParseError} (h : e.Alike e') : e.detail = e'.detail := by
  cases h with
  | unexpectedToken h | missingOperator h | invalidDeclaration h | trailingTokens h =>
    obtain ⟨lexeme, column, column', -, rfl, rfl⟩ := h.exists_eq
    rfl
  | emptyExpression | missingOperand | consecutiveOperators | danglingOperator | unclosedGroup
  | malformedCall => rfl

end ParseError

theorem parse_alike {ts ts' : List Token} (h : ts.map Token.face = ts'.map Token.face) :
    (∃ t, parse ts = .ok t ∧ parse ts' = .ok t) ∨
      ∃ e e', parse ts = .error e ∧ parse ts' = .error e' ∧ e.Alike e' := by
  have hts : List.Forall₂ (Token.Moved fun _ _ => True) ts ts' := by
    rw [← List.forall₂_eq_eq_eq, List.forall₂_map_left_iff, List.forall₂_map_right_iff] at h
    exact h.imp fun t t' => Token.moved_of_face_eq
  by_cases hnil : ts = []
  · subst hnil
    cases hts
    have hempty : parse [] = .error (.emptyExpression 1) := by
      rw [parse, readStatement_of_expression rfl]
      rfl
    exact .inr ⟨_, _, hempty, hempty, .emptyExpression trivial⟩
  · have hmoved := parse_moved (fun _ _ _ _ => trivial) hts hnil
    generalize parse ts = x, parse ts' = y at hmoved ⊢
    cases hmoved with
    | error he => exact .inr ⟨_, _, rfl, rfl, he⟩
    | ok ht =>
      subst ht
      exact .inl ⟨_, rfl, rfl⟩

namespace Session

/-- Texts that show the same tokens leave the same session, and have the same outcome unless they
cannot be read. -/
theorem run_alike (s : Session) {source source' : String}
    (h : (tokenize source).map Token.face = (tokenize source').map Token.face) :
    (s.run source).session = (s.run source').session ∧
      ((s.run source).outcome = (s.run source').outcome ∨
        ∃ e e', (s.run source).outcome = .error (.parse e) ∧
          (s.run source').outcome = .error (.parse e') ∧ e.Alike e') := by
  rcases parse_alike h with ⟨t, ht, ht'⟩ | ⟨e, e', he, he', halike⟩
  · rcases hrun : runOn (t.evalWith s.callRule) s.machine with ⟨r, m⟩
    obtain ⟨hout, hsession⟩ := run_of_runOn ht hrun
    obtain ⟨hout', hsession'⟩ := run_of_runOn ht' hrun
    exact ⟨hsession.trans hsession'.symm, .inl (hout.trans hout'.symm)⟩
  · obtain ⟨hout, hsession⟩ := run_of_parse_error he (s := s)
    obtain ⟨hout', hsession'⟩ := run_of_parse_error he' (s := s)
    exact ⟨hsession.trans hsession'.symm, .inr ⟨e, e', hout, hout', halike⟩⟩

end Session

/-- Tokens of the same kinds and texts are the same term, or fail for the same reason, in whatever
columns they stand. Texts with these tokens have the same value or runtime error in every session,
and leave the same variables and functions. -/
theorem layout_has_no_meaning (ts ts' : List Token)
    (h : ts.map Token.face = ts'.map Token.face) :
    ((∃ t, parse ts = .ok t ∧ parse ts' = .ok t) ∨
        ∃ e e', parse ts = .error e ∧ parse ts' = .error e' ∧ e.Alike e' ∧ e.detail = e'.detail) ∧
      ∀ (s : Session) (source source' : String), tokenize source = ts → tokenize source' = ts' →
        (∀ r, (s.run source).outcome = .ok r ↔ (s.run source').outcome = .ok r) ∧
          (∀ e, (s.run source).outcome = .error (.runtime e) ↔
            (s.run source').outcome = .error (.runtime e)) ∧
          (s.run source).session = (s.run source').session := by
  constructor
  · rcases parse_alike h with hok | ⟨e, e', he, he', halike⟩
    · exact .inl hok
    · exact .inr ⟨e, e', he, he', halike, halike.detail_eq⟩
  · rintro s source source' rfl rfl
    obtain ⟨hsession, hout | ⟨e, e', hout, hout', -⟩⟩ := s.run_alike h
    · rw [hout]
      exact ⟨fun r => Iff.rfl, fun e => Iff.rfl, hsession⟩
    · rw [hout, hout']
      refine ⟨?_, ?_, hsession⟩
      all_goals
        intro r
        constructor <;> rintro ⟨⟩

/-- The list of arguments is never closed, in a text with other blanks and a stray character. -/
theorem spaced_call_layout_has_no_meaning :
    parse (tokenize "f(2.5") = .error (.malformedCall "f" 1) ∧
      parse (tokenize "\t f $( 2.5") = .error (.malformedCall "f" 3) ∧
      (ParseError.malformedCall "f" 1).Alike (.malformedCall "f" 3) ∧
      (Session.shadowed.run "a=f(2.5)").outcome = .ok (some 2.5) ∧
      (Session.shadowed.run "a = f ( 2.5 )").outcome = .ok (some 2.5) ∧
      (Session.shadowed.run "a = f ( 2.5 )").session =
        (Session.shadowed.run "a=f(2.5)").session := by
  have hopen : parse (tokenize "f(2.5") = .error (.malformedCall "f" 1) := by
    have htokens : tokenize "f(2.5" =
        [⟨.symbol "f", 1⟩, ⟨.openParen, 2⟩, ⟨.number "2.5", 3⟩] := rfl
    rw [htokens, parse, readStatement_of_expression rfl]
    rfl
  have hspaced : parse (tokenize "\t f $( 2.5") = .error (.malformedCall "f" 3) := by
    have htokens : tokenize "\t f $( 2.5" =
        [⟨.symbol "f", 3⟩, ⟨.openParen, 6⟩, ⟨.number "2.5", 8⟩] := rfl
    rw [htokens, parse, readStatement_of_expression rfl]
    rfl
  have hcall := Operand.call "f" (.last (.lone (.number "2.5")))
  have hparse : parse (tokenize "a=f(2.5)") = _ :=
    parse_tokenize_eq_ok_iff.2 (.assign "a" (.expression (.lone hcall)))
  have hout : (Session.shadowed.run "a=f(2.5)").outcome = .ok (some 2.5) :=
    (Session.run_of_runOn hparse rfl).1
  obtain ⟨hvalue, -, hsession⟩ :=
    (layout_has_no_meaning (tokenize "a=f(2.5)") (tokenize "a = f ( 2.5 )") rfl).2
      Session.shadowed _ _ rfl rfl
  refine ⟨hopen, hspaced, ?_, hout, (hvalue _).1 hout, hsession.symm⟩
  rcases (layout_has_no_meaning (tokenize "f(2.5") (tokenize "\t f $( 2.5") rfl).1 with
    ⟨t, ht, -⟩ | ⟨e, e', he, he', halike, -⟩
  · rw [hopen] at ht
    cases ht
  · rw [hopen] at he
    rw [hspaced] at he'
    cases he
    cases he'
    exact halike

end ChainCalc
