import ChainCalc.Proofs.Canonical
import ChainCalc.Proofs.Spelling
import ChainCalc.Proofs.StatementGrammar
import ChainCalc.Term.Render

/-!
# Rendering is undone by reading

The text of a canonical term gives lexemes that derive the term. Each part of the text ends before
a blank, a comma or a parenthesis, so the lexemes of the whole are those of its parts; and a chain
inside a chain gets parentheses, which make it an operand again.

So every canonical term is read from its own text, and the terms that can be read at all are the
canonical ones (`exists_parse_iff_canonical`).
-/

namespace ChainCalc

open Grammar

/-- The characters `cs` are an expression for `t`. -/
def Writes (cs : List Char) (t : Term) : Prop := ∃ ls, Expression ls t ∧ Spells cs ls

namespace Term

theorem spells_name {name : String} (h : isNameText name.toList) :
    Spells name.toList [.symbol name] :=
  Spells.lexeme (l := .symbol name) h

/-- An expression that is no chain is an operand already. -/
theorem operand_of_not_isChain {t : Term} {ls : List Lexeme} (h : Expression ls t)
    (ht : t.isChain = false) : Operand ls t := by
  cases h with
  | lone h => exact h
  | chain => cases ht

theorem enclose_spells {t : Term} (h : Writes t.spell t) :
    ∃ ls, Operand ls t ∧ Spells (t.enclose t.spell) ls := by
  obtain ⟨ls, hexpr, hs⟩ := h
  rw [enclose]
  split
  · have hclose := hs.append (Spells.lexeme (l := .closeParen) rfl) rfl
    exact ⟨_, .group hexpr, hclose.mark (l := .openParen) (fun _ => rfl) rfl⟩
  · exact ⟨ls, operand_of_not_isChain hexpr (Bool.eq_false_iff.2 ‹_›), hs⟩

theorem spellArguments_spells {t : Term} {ts : List Term}
    (hs : ∀ u ∈ t :: ts, Writes u.spell u) :
    ∃ ls, Arguments ls (t :: ts) ∧ Spells (spellArguments (t :: ts)) ls := by
  induction ts generalizing t with
  | nil =>
    obtain ⟨ls, hexpr, hs⟩ := hs t (by simp)
    exact ⟨ls, .last hexpr, by simpa [spellArguments, spellMoreArguments] using hs⟩
  | cons u us ih =>
    obtain ⟨ht, hus⟩ := List.forall_mem_cons.1 hs
    obtain ⟨ls, hexpr, hls⟩ := ht
    obtain ⟨ms, harguments, hms⟩ := ih hus
    have hmore := hms.blank.mark (l := .comma) (fun _ => rfl) rfl
    exact ⟨_, .cons hexpr harguments, hls.append hmore rfl⟩

theorem spellLinks_spells {ts : List Term} {operators : List Operator}
    (hlength : operators.length = ts.length) (hs : ∀ t ∈ ts, Writes t.spell t) :
    ∃ ls, Tail ls (operators.zip ts) ∧ Spells (spellLinks ts operators) ls ∧
      closesAll (spellLinks ts operators).head? := by
  induction ts generalizing operators with
  | nil =>
    obtain rfl := List.length_eq_zero_iff.1 hlength
    exact ⟨[], .nil, .nil, rfl⟩
  | cons t ts ih =>
    cases operators with
    | nil => cases hlength
    | cons op operators =>
      obtain ⟨ht, hts⟩ := List.forall_mem_cons.1 hs
      obtain ⟨ls, hoperand, hls⟩ := enclose_spells ht
      obtain ⟨ms, htail, hms, hclose⟩ := ih (Nat.succ.inj hlength) hts
      -- the blank after the sign keeps a minus from joining the digits of its operand
      have hlink := (Spells.lexeme (l := .operator op) rfl).append (hls.append hms hclose).blank rfl
      exact ⟨_, .link op hoperand htail, hlink.blank, rfl⟩

theorem CanonicalExpression.writes {t : Term} (h : CanonicalExpression t) : Writes t.spell t := by
  induction h with
  | @number text h => exact ⟨_, .lone (.number text), Spells.lexeme (l := .number text) h⟩
  | @var name h => exact ⟨_, .lone (.var name), spells_name h⟩
  | @call name arguments h _ ih =>
    cases arguments with
    | nil =>
      have hclose := Spells.lexeme (l := .closeParen) rfl
      have hopen := hclose.mark (l := .openParen) (fun _ => rfl) rfl
      refine ⟨_, .lone (.callNone name), ?_⟩
      simpa [spell, spellArguments, Lexeme.spell] using (spells_name h).append hopen rfl
    | cons t ts =>
      obtain ⟨ls, harguments, hls⟩ := spellArguments_spells ih
      have hclose := hls.append (Spells.lexeme (l := .closeParen) rfl) rfl
      have hopen := hclose.mark (l := .openParen) (fun _ => rfl) rfl
      refine ⟨_, .lone (.call name harguments), ?_⟩
      simpa [spell, Lexeme.spell] using (spells_name h).append hopen rfl
  | @chain operands operators htwo hlength _ ih =>
    cases operands with
    | nil => simp at htwo
    | cons t ts =>
      obtain ⟨ht, hts⟩ := List.forall_mem_cons.1 ih
      obtain ⟨ls, hoperand, hls⟩ := enclose_spells ht
      have hlength : operators.length = ts.length := Nat.succ.inj hlength
      obtain ⟨ms, htail, hms, hclose⟩ := spellLinks_spells hlength hts
      have hne : operators.zip ts ≠ [] := by
        intro hnil
        have hzip := congrArg List.length hnil
        simp only [List.length_zip, hlength, Nat.min_self, List.length_nil] at hzip
        simp [hzip] at htwo
      have hexpr := Expression.chain hoperand htail hne
      rw [List.map_snd_zip (Nat.le_of_eq hlength.symm),
        List.map_fst_zip (Nat.le_of_eq hlength)] at hexpr
      exact ⟨_, hexpr, hls.append hms hclose⟩

theorem params_spells {params : List String} (hs : ∀ p ∈ params, isNameText p.toList) :
    ∃ ls, (∀ l ∈ ls, IsParameter l) ∧ ls.filterMap name? = params ∧
      Spells (List.intercalate [',', ' '] (params.map String.toList)) ls := by
  induction params with
  | nil => exact ⟨[], by simp, rfl, .nil⟩
  | cons p params ih =>
    obtain ⟨hp, hps⟩ := List.forall_mem_cons.1 hs
    cases params with
    | nil =>
      refine ⟨[.symbol p], by simp [IsParameter], rfl, ?_⟩
      simpa [List.intercalate] using spells_name hp
    | cons q params =>
      obtain ⟨ls, hls, hnames, hspells⟩ := ih hps
      have hmore := hspells.blank.mark (l := .comma) (fun _ => rfl) rfl
      refine ⟨.symbol p :: .comma :: ls, by simpa [IsParameter] using hls, ?_, ?_⟩
      · show p :: ls.filterMap name? = p :: q :: params
        rw [hnames]
      · simpa [List.intercalate, Lexeme.spell] using (spells_name hp).append hmore rfl

theorem CanonicalStatement.spells {t : Term} (h : CanonicalStatement t) :
    ∃ ls, Statement ls t ∧ Spells t.spell ls := by
  induction h with
  | @assign name value hname _ ih =>
    obtain ⟨ls, hvalue, hls⟩ := ih
    have hequals := hls.blank.mark (l := .equals) (fun _ => rfl) rfl
    exact ⟨_, .assign name hvalue, (spells_name hname).append hequals.blank rfl⟩
  | @declare name params body hname hparams _ ih =>
    obtain ⟨ls, hbody, hls⟩ := ih
    obtain ⟨ps, hps, rfl, hpsSpells⟩ := params_spells hparams
    have hequals := hls.blank.mark (l := .equals) (fun _ => rfl) rfl
    have hclose := hequals.blank.mark (l := .closeParen) (fun _ => rfl) rfl
    have hopen := (hpsSpells.append hclose rfl).mark (l := .openParen) (fun _ => rfl) rfl
    -- the closing parenthesis is one of the lexemes before the `=`
    have hps' : ∀ p ∈ ps ++ [.closeParen], IsParameter p := by
      simpa [IsParameter, or_imp, forall_and] using hps
    have hdeclare := Statement.declare name hps' hbody
    rw [List.filterMap_append, show [Lexeme.closeParen].filterMap name? = [] from rfl,
      List.append_nil] at hdeclare
    refine ⟨_, hdeclare, ?_⟩
    simpa [spell, Lexeme.spell] using (spells_name hname).append hopen rfl
  | expression h =>
    obtain ⟨ls, hexpr, hls⟩ := h.writes
    exact ⟨ls, .expression hexpr, hls⟩

end Term

/-- A text reads as the term that its lexemes derive. -/
theorem parse_tokenize_eq_ok_iff {source : String} {t : Term} :
    parse (tokenize source) = .ok t ↔ Statement (lexemes source.toList) t := by
  rw [parse_eq_ok_iff, map_lexeme_tokenize]

theorem Term.CanonicalStatement.parse_render {t : Term} (h : t.CanonicalStatement) :
    parse (tokenize t.render) = .ok t := by
  obtain ⟨ls, hstatement, hls⟩ := h.spells
  rw [parse_tokenize_eq_ok_iff, render, String.toList_ofList, hls.lexemes_eq]
  exact hstatement

theorem canonical_of_parse_tokenize {source : String} {t : Term}
    (h : parse (tokenize source) = .ok t) : t.CanonicalStatement :=
  (parse_tokenize_eq_ok_iff.1 h).canonical fun _ hl => wellSpelled_of_mem_lexemes hl

/-- What a text reads as is read again from its own text, which is therefore a normal form. -/
theorem parse_tokenize_render {source : String} {t : Term} (h : parse (tokenize source) = .ok t) :
    parse (tokenize t.render) = .ok t ∧
      (parse (tokenize t.render)).map Term.render = .ok t.render := by
  have hparse := (canonical_of_parse_tokenize h).parse_render
  exact ⟨hparse, by rw [hparse]; rfl⟩

/-- A loose list of parameters and a negative number after an operand are written anew. -/
theorem parse_tokenize_render_loose_declaration :
    parse (tokenize "f(a (b) = y = (a -3) * g(-2, a)") =
        .ok (.declare "f" ["a", "b"] (.assign "y" (.chain
          [.chain [.var "a", .number "3"] [.sub], .call "g" [.number "-2", .var "a"]] [.mul]))) ∧
      parse (tokenize "f(a, b) = y = (a - 3) * g(-2, a)") =
        .ok (.declare "f" ["a", "b"] (.assign "y" (.chain
          [.chain [.var "a", .number "3"] [.sub], .call "g" [.number "-2", .var "a"]] [.mul]))) := by
  have hgroup := Operand.group (.chain (.var "a") (.minus ['3'] .nil) (by simp))
  have hcall := Operand.call "g" (.cons (.lone (.number "-2")) (.last (.lone (.var "a"))))
  have hchain := Expression.chain hgroup (.link .mul hcall .nil) (by simp)
  have hbody := Statement.assign "y" (.expression hchain)
  have hparams : ∀ p ∈ [.symbol "a", .openParen, .symbol "b", .closeParen], IsParameter p := by
    simp [IsParameter]
  have hparse : parse (tokenize "f(a (b) = y = (a -3) * g(-2, a)") = _ :=
    parse_tokenize_eq_ok_iff.2 (.declare "f" hparams hbody)
  exact ⟨hparse, (parse_tokenize_render hparse).1⟩

/-! ### What a text can read as -/

/-- The terms that can be read are the canonical ones. So each chain in such a term, at any depth,
has the operators that it needs, and nothing in an operand or an argument is an assignment or a
declaration. -/
theorem exists_parse_iff_canonical :
    (∀ t : Term, (∃ source, parse (tokenize source) = .ok t) ↔ t.CanonicalStatement) ∧
      ∀ source t, parse (tokenize source) = .ok t →
        (∀ operands operators, (Term.chain operands operators).Part t →
          Term.wellFormedChain operands operators ∧
            ∀ u ∈ operands, ∀ v : Term, v.Part u → v.isExpression) ∧
        ∀ name arguments, (Term.call name arguments).Part t →
          ∀ u ∈ arguments, ∀ v : Term, v.Part u → v.isExpression := by
  refine ⟨fun t => ⟨?_, fun h => ⟨t.render, h.parse_render⟩⟩, fun source t hparse => ?_⟩
  · rintro ⟨source, h⟩
    exact canonical_of_parse_tokenize h
  · have ht := canonical_of_parse_tokenize hparse
    -- a chain or a call is no assignment and no declaration, and what is in it is part of it
    refine ⟨fun operands operators hpart => ?_, fun name arguments hpart u hu v hv => ?_⟩
    · have hchain := (ht.part hpart).expression_of_isExpression rfl
      exact ⟨hchain.wellFormedChain,
        fun u hu v hv => (hchain.part (.operand operators hu hv)).isExpression⟩
    · have hcall := (ht.part hpart).expression_of_isExpression rfl
      exact (hcall.part (.argument name hu hv)).isExpression

/-- The second argument of `h` is a chain. -/
def powerOfCall : Term :=
  .declare "f" ["x"] (.chain
    [.call "h" [.var "x", .chain [.number "2", .number "1"] [.sub]], .number "2"] [.pow])

theorem powerOfCall_parse_iff_canonical :
    parse (tokenize "f(x) = h(x, 2 -1) ^ 2") = .ok powerOfCall ∧ powerOfCall.CanonicalStatement ∧
      Term.wellFormedChain [.number "2", .number "1"] [.sub] := by
  have hdifference := Expression.chain (.number "2") (.minus ['1'] .nil) (by simp)
  have hcall := Operand.call "h" (.cons (.lone (.var "x")) (.last hdifference))
  have hpower := Expression.chain hcall (.link .pow (.number "2") .nil) (by simp)
  have hparams : ∀ p ∈ [.symbol "x", .closeParen], IsParameter p := by simp [IsParameter]
  have hparse : parse (tokenize "f(x) = h(x, 2 -1) ^ 2") = .ok powerOfCall :=
    parse_tokenize_eq_ok_iff.2 (.declare "f" hparams (.expression hpower))
  obtain ⟨himage, hparts⟩ := exists_parse_iff_canonical
  refine ⟨hparse, (himage powerOfCall).1 ⟨_, hparse⟩, ((hparts _ _ hparse).1 _ _ ?_).1⟩
  exact .body "f" ["x"] (.operand [.pow] (List.mem_cons_self ..)
    (.argument "h" (List.mem_cons_of_mem _ (List.mem_cons_self ..)) .whole))

end ChainCalc
