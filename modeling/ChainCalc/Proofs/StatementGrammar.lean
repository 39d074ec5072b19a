import ChainCalc.Proofs.ChainGrammar
import ChainCalc.Term.Parser

/-!
# Reading a statement is deriving it

The look-ahead for `=` never shuts out a derivation: an expression has no `=` at all
(`Grammar.Expression.equals_notMem`), and the parameters of a declaration stand before its first
one. So the heading of a statement is that of each of its derivations, and `parse` accepts exactly
the grammar.
-/

namespace ChainCalc

open Grammar

namespace Heading
variable {name x : String} {params : List String} {column : Nat} {tokens rest : List Token}

theorem ofParams_cons {l : Lexeme} (h : IsParameter l) :
    ofParams name params (⟨l, column⟩ :: tokens) =
      ofParams name ((name? l).toList ++ params) tokens := by
  rcases h with ⟨x, rfl⟩ | rfl | rfl | rfl <;> simp [ofParams, name?]

/-- The names of a longer list, whose first one is taken up before the others. -/
theorem names_cons (l : Lexeme) (ls : List Lexeme) :
    ((name? l).toList ++ params).reverse ++ ls.filterMap name? =
      params.reverse ++ (l :: ls).filterMap name? := by
  cases h : name? l <;> simp [h]

theorem ofParams_of_params {ps : List Token} (h : ∀ p ∈ ps, IsParameter p.lexeme) :
    ofParams name params (ps ++ ⟨.equals, column⟩ :: rest) =
      declaration name (params.reverse ++ (ps.map Token.lexeme).filterMap name?) column rest := by
  induction ps generalizing params with
  | nil => simp [ofParams]
  | cons p ps ih =>
    obtain ⟨hp, hps⟩ := List.forall_mem_cons.1 h
    rw [List.cons_append, ofParams_cons hp, ih hps, names_cons, List.map_cons]

theorem ofParams_eq_declaration {ys : List String}
    (h : ofParams name params tokens = declaration x ys column rest) :
    ∃ ps, tokens = ps ++ ⟨.equals, column⟩ :: rest ∧ (∀ p ∈ ps, IsParameter p.lexeme) ∧
      x = name ∧ ys = params.reverse ++ (ps.map Token.lexeme).filterMap name? := by
  induction tokens generalizing params with
  | nil => simp [ofParams] at h
  | cons token tokens ih =>
    by_cases hp : IsParameter token.lexeme
    · rw [ofParams_cons hp] at h
      obtain ⟨ps, rfl, hps, rfl, rfl⟩ := ih h
      exact ⟨token :: ps, rfl, List.forall_mem_cons.2 ⟨hp, hps⟩, rfl, names_cons ..⟩
    · obtain ⟨lexeme, tokenColumn⟩ := token
      cases lexeme with
      | equals =>
        simp only [ofParams, declaration.injEq] at h
        obtain ⟨rfl, rfl, rfl, rfl⟩ := h
        exact ⟨[], rfl, by simp, rfl, by simp⟩
      | number text | operator op =>
        simp only [ofParams] at h
        split at h <;> cases h
      | symbol | comma | openParen | closeParen => simp [IsParameter] at hp

theorem ofParams_ne_assignment :
    ofParams name params tokens ≠ assignment x column rest := by
  fun_induction ofParams name params tokens <;> simp_all

theorem ofParams_of_no_equals (h : ∀ token ∈ tokens, token.lexeme ≠ .equals) :
    ofParams name params tokens = expression := by
  induction tokens generalizing params with
  | nil => rfl
  | cons token tokens ih =>
    obtain ⟨hne, hnone⟩ := List.forall_mem_cons.1 h
    by_cases hp : IsParameter token.lexeme
    · rw [ofParams_cons hp]
      exact ih hnone
    · obtain ⟨lexeme, tokenColumn⟩ := token
      cases lexeme with
      | equals => exact absurd rfl hne
      | number text | operator op =>
        simp only [ofParams]
        rw [if_neg (by simpa using hnone)]
      | symbol | comma | openParen | closeParen => simp [IsParameter] at hp

theorem ofTokens_eq_assignment (h : ofTokens tokens = assignment name column rest) :
    ∃ nameColumn, tokens = ⟨.symbol name, nameColumn⟩ :: ⟨.equals, column⟩ :: rest := by
  fun_cases ofTokens tokens with
  | case1 x nameColumn equalsColumn tokens =>
    simp only [ofTokens, assignment.injEq] at h
    obtain ⟨rfl, rfl, rfl⟩ := h
    exact ⟨nameColumn, rfl⟩
  | case2 x _ _ tokens => exact absurd h ofParams_ne_assignment
  | case3 => simp_all [ofTokens]

theorem ofTokens_eq_declaration (h : ofTokens tokens = declaration name params column rest) :
    ∃ nameColumn openColumn ps,
      tokens = ⟨.symbol name, nameColumn⟩ :: ⟨.openParen, openColumn⟩ ::
        (ps ++ ⟨.equals, column⟩ :: rest) ∧
      (∀ p ∈ ps, IsParameter p.lexeme) ∧ params = (ps.map Token.lexeme).filterMap name? := by
  fun_cases ofTokens tokens with
  | case1 x nameColumn equalsColumn tokens => simp [ofTokens] at h
  | case2 x nameColumn openColumn tokens =>
    obtain ⟨ps, rfl, hps, rfl, rfl⟩ := ofParams_eq_declaration h
    exact ⟨nameColumn, openColumn, ps, rfl, hps, rfl⟩
  | case3 => simp_all [ofTokens]

theorem ofTokens_of_params {ps : List Token} {nameColumn openColumn : Nat}
    (h : ∀ p ∈ ps, IsParameter p.lexeme) :
    ofTokens (⟨.symbol name, nameColumn⟩ :: ⟨.openParen, openColumn⟩ ::
        (ps ++ ⟨.equals, column⟩ :: rest)) =
      declaration name ((ps.map Token.lexeme).filterMap name?) column rest :=
  ofParams_of_params h

theorem ofTokens_of_no_equals (h : .equals ∉ tokens.map Token.lexeme) :
    ofTokens tokens = expression := by
  have hne : ∀ token ∈ tokens, token.lexeme ≠ .equals := fun token ht heq =>
    h (heq ▸ List.mem_map_of_mem ht)
  fun_cases ofTokens tokens with
  | case1 x nameColumn equalsColumn tokens =>
    exact absurd rfl (hne ⟨.equals, equalsColumn⟩ (by simp))
  | case2 x _ _ tokens => exact ofParams_of_no_equals fun token ht => hne token (by simp [ht])
  | case3 => rfl

end Heading

/-! ### Statements -/

section
variable {column equalsColumn : Nat} {tokens rest : List Token} {name : String}
  {params : List String}

theorem readStatement_of_assignment
    (h : Heading.ofTokens tokens = .assignment name equalsColumn rest) :
    readStatement column tokens =
      (readStatement (nextColumn equalsColumn) rest).map fun (value, rest) =>
        (.assign name value, rest) := by
  rw [readStatement]
  split <;> simp_all

theorem readStatement_of_declaration
    (h : Heading.ofTokens tokens = .declaration name params equalsColumn rest) :
    readStatement column tokens =
      (readStatement (nextColumn equalsColumn) rest).map fun (body, rest) =>
        (.declare name params body, rest) := by
  rw [readStatement]
  split <;> simp_all

theorem readStatement_of_malformed {token : Token}
    (h : Heading.ofTokens tokens = .malformed token) :
    readStatement column tokens = .error (.invalidDeclaration token) := by
  rw [readStatement]
  split <;> simp_all

theorem readStatement_of_expression (h : Heading.ofTokens tokens = .expression) :
    readStatement column tokens = readChain column tokens := by
  rw [readStatement]
  split <;> simp_all

end

theorem exists_ok_of_map_eq_ok {ε α β : Type} {x : Except ε α} {f : α → β} {b : β}
    (h : x.map f = .ok b) : ∃ a, x = .ok a ∧ f a = b := by
  cases x with
  | error e => cases h
  | ok a => exact ⟨a, rfl, Except.ok.inj h⟩

theorem readStatement_sound {column : Nat} {tokens rest : List Token} {t : Term}
    (h : readStatement column tokens = .ok (t, rest)) :
    ∃ read, tokens = read ++ rest ∧ Statement (read.map Token.lexeme) t := by
  fun_induction readStatement column tokens generalizing t rest with
  | case1 column tokens name equalsColumn after hheading ih =>
    obtain ⟨⟨value, rest⟩, hvalue, heq⟩ := exists_ok_of_map_eq_ok h
    cases heq
    obtain ⟨nameColumn, rfl⟩ := Heading.ofTokens_eq_assignment hheading
    obtain ⟨read, rfl, hread⟩ := ih hvalue
    exact ⟨⟨.symbol name, nameColumn⟩ :: ⟨.equals, equalsColumn⟩ :: read, rfl, .assign name hread⟩
  | case2 column tokens name params equalsColumn after hheading ih =>
    obtain ⟨⟨body, rest⟩, hbody, heq⟩ := exists_ok_of_map_eq_ok h
    cases heq
    obtain ⟨nameColumn, openColumn, ps, rfl, hps, rfl⟩ := Heading.ofTokens_eq_declaration hheading
    obtain ⟨read, rfl, hread⟩ := ih hbody
    refine ⟨⟨.symbol name, nameColumn⟩ :: ⟨.openParen, openColumn⟩ ::
      (ps ++ ⟨.equals, equalsColumn⟩ :: read), by simp, ?_⟩
    have hps' : ∀ l ∈ ps.map Token.lexeme, IsParameter l := by simpa using hps
    simpa using Statement.declare name hps' hread
  | case3 column tokens token hheading => cases h
  | case4 column tokens hheading =>
    obtain ⟨read, rfl, hread, -⟩ := readChain_eq_ok_iff.1 h
    exact ⟨read, rfl, .expression hread⟩

theorem Grammar.Statement.readStatement {ls : List Lexeme} {t : Term} (h : Statement ls t)
    {tokens : List Token} (hts : tokens.map Token.lexeme = ls) (column : Nat) :
    readStatement column tokens = .ok (t, []) := by
  induction h generalizing tokens column with
  | assign name h ih =>
    obtain ⟨nameColumn, _, rfl, hequals⟩ := Token.eq_cons_of_map_lexeme hts
    obtain ⟨equalsColumn, rest, rfl, hrest⟩ := Token.eq_cons_of_map_lexeme hequals
    rw [readStatement_of_assignment rfl, ih hrest]
    rfl
  | declare name hps h ih =>
    obtain ⟨nameColumn, _, rfl, hopen⟩ := Token.eq_cons_of_map_lexeme hts
    obtain ⟨openColumn, _, rfl, hparams⟩ := Token.eq_cons_of_map_lexeme hopen
    obtain ⟨ps, _, rfl, rfl, hequals⟩ := List.map_eq_append_iff.1 hparams
    obtain ⟨equalsColumn, rest, rfl, hrest⟩ := Token.eq_cons_of_map_lexeme hequals
    have hps' : ∀ p ∈ ps, IsParameter p.lexeme := by simpa using hps
    rw [readStatement_of_declaration (Heading.ofTokens_of_params hps'), ih hrest]
    rfl
  | expression h =>
    subst hts
    rw [readStatement_of_expression (Heading.ofTokens_of_no_equals h.equals_notMem)]
    exact readChain_eq_ok_iff.2 ⟨tokens, (List.append_nil tokens).symm, h, trivial⟩

theorem parse_eq_ok {tokens : List Token} {t : Term} :
    parse tokens = .ok t ↔ readStatement 1 tokens = .ok (t, []) := by
  rw [parse]
  split
  · simp_all
  · simp_all
  · simp_all

theorem parse_eq_ok_iff {tokens : List Token} {t : Term} :
    parse tokens = .ok t ↔ Statement (tokens.map Token.lexeme) t := by
  rw [parse_eq_ok]
  constructor
  · intro h
    obtain ⟨read, rfl, hread⟩ := readStatement_sound h
    simpa using hread
  · intro h
    exact h.readStatement rfl 1

/-- The lexemes of some tokens are any list, so reading decides between two derivations. -/
theorem Grammar.Statement.unique {ls : List Lexeme} {t t' : Term} (h : Statement ls t)
    (h' : Statement ls t') : t = t' := by
  obtain ⟨tokens, rfl⟩ := Token.exists_map_lexeme ls
  exact Except.ok.inj ((parse_eq_ok_iff.2 h).symm.trans (parse_eq_ok_iff.2 h'))

/-- No list of lexemes derives two terms. -/
def Grammar.Unambiguous : Prop := ∀ ls t t', Statement ls t → Statement ls t' → t = t'

/-- `parse` accepts exactly the grammar, whatever the columns, and gives the term derived. -/
theorem parse_eq_ok_iff_statement_and_unambiguous :
    (∀ tokens t, parse tokens = .ok t ↔ Statement (tokens.map Token.lexeme) t) ∧
      Grammar.Unambiguous :=
  ⟨fun _ _ => parse_eq_ok_iff, fun _ _ _ h h' => h.unique h'⟩

end ChainCalc
