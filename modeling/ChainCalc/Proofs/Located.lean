import ChainCalc.Proofs.ChainGrammar

/-!
# Where a reader has its columns from

A reader keeps columns for its errors: that of the operator or the name that it has just read, and
those of the constructs that are open. `Reader.Located r tokens` is `Reader.Reads` with the tokens
in place of their lexemes, so that each of these columns is found on the token that it belongs to.
The columns in what waits outside of a construct are not followed, as no error names them any more.

At the start of a chain nothing of it has been read. Then the last token is the `(` of the innermost
construct, or a comma between two of its arguments (`Frame.LocatedAll.getLast?_all`).
-/

namespace ChainCalc

open Grammar

theorem Grammar.Given.eq_nil {ls : List Lexeme} (h : Given ls []) : ls = [] := by
  cases h
  rfl

theorem Grammar.Given.eq_nil_or_getLast? {ls : List Lexeme} {ts : List Term} (h : Given ls ts) :
    ls = [] ∨ ls.getLast? = some .comma := by
  cases h with
  | nil => exact .inl rfl
  | snoc => exact .inr (by simp [List.getLast?_append])

/-- The lexemes behind which an expression starts. -/
def Lexeme.opensExpression : Lexeme → Bool
  | equals | openParen | comma => true
  | closeParen | number _ | operator _ | symbol _ => false

/-- The opening and the arguments that are complete are these tokens. -/
def Opening.Located : Opening → List Token → Prop
  | group column, tokens => tokens = [⟨.openParen, column⟩]
  | call name column arguments, tokens =>
    ∃ openColumn given, tokens = ⟨.symbol name, column⟩ :: ⟨.openParen, openColumn⟩ :: given ∧
      Given (given.map Token.lexeme) arguments

inductive Frame.LocatedAll : List Frame → List Token → Prop
  | nil : LocatedAll [] []
  | cons {frames : List Frame} {opening : Opening} {due : Due} {outer before opened : List Token}
      (hs : LocatedAll frames outer) (hd : due.Reads (before.map Token.lexeme))
      (ho : opening.Located opened) :
      LocatedAll (⟨opening, due⟩ :: frames) (outer ++ (before ++ opened))

theorem Frame.LocatedAll.getLast?_all {frames : List Frame} {tokens : List Token}
    (h : LocatedAll frames tokens) :
    (tokens.map Token.lexeme).getLast?.all Lexeme.opensExpression := by
  rcases h with _ | ⟨hs, hd, ho⟩
  · rfl
  · rename_i opening _ _ _ _
    rcases opening with column | ⟨name, column, arguments⟩
    · obtain rfl := ho
      simp [List.getLast?_append, Lexeme.opensExpression]
    · obtain ⟨openColumn, given, rfl, hg⟩ := ho
      rcases hg.eq_nil_or_getLast? with hnil | hcomma
      · simp [List.getLast?_append, List.getLast?_cons, hnil, Lexeme.opensExpression]
      · simp [List.getLast?_append, List.getLast?_cons, hcomma, Lexeme.opensExpression]

def Place.Located : Place → List Token → Prop
  | operand .first, tokens => tokens = []
  | operand (.after links op column), tokens =>
    ∃ before, tokens = before ++ [⟨.operator op, column⟩] ∧ links.Reads (before.map Token.lexeme)
  | name due x column, tokens =>
    ∃ before, tokens = before ++ [⟨.symbol x, column⟩] ∧ due.Reads (before.map Token.lexeme)
  | operator links, tokens => links.Reads (tokens.map Token.lexeme)

theorem Place.Located.reads {place : Place} {tokens : List Token} (h : place.Located tokens) :
    place.Reads (tokens.map Token.lexeme) := by
  rcases place with (_ | ⟨links, op, column⟩) | ⟨due, x, column⟩ | links
  · exact congrArg (List.map Token.lexeme) h
  · obtain ⟨before, rfl, hlinks⟩ := h
    exact ⟨before.map Token.lexeme, by simp, hlinks⟩
  · obtain ⟨before, rfl, hdue⟩ := h
    exact ⟨before.map Token.lexeme, by simp, hdue⟩
  · exact h

namespace Reader

variable {r r' : Reader} {token : Token} {tokens more : List Token}

def Located (r : Reader) (tokens : List Token) : Prop :=
  ∃ opened here, tokens = opened ++ here ∧ Frame.LocatedAll r.frames opened ∧ r.place.Located here

theorem located_start : start.Located [] := ⟨[], [], rfl, .nil, rfl⟩

/-- Closing the innermost frame: the tokens of its construct are the operand that was due. -/
theorem Located.close {frames : List Frame} {due : Due} {outer before : List Token} {t : Term}
    (hf : Frame.LocatedAll frames outer) (hd : due.Reads (before.map Token.lexeme))
    (construct : List Token) (ht : Operand (construct.map Token.lexeme) t) :
    Located ⟨frames, .operator (due.fill t)⟩ (outer ++ (before ++ construct)) :=
  ⟨outer, before ++ construct, rfl, hf, by simpa [Place.Located] using hd.fill ht⟩

theorem Located.step (h : r.Located tokens) (hs : Step r token r') :
    r'.Located (tokens ++ [token]) := by
  obtain ⟨opened, here, rfl, hf, hp⟩ := h
  have hreads := hp.reads
  cases hs with
  | number frames due text column =>
    have hfill := Due.Reads.fill hreads (.number text)
    exact ⟨opened, here ++ [⟨.number text, column⟩], by simp, hf,
      by simpa [Place.Located] using hfill⟩
  | name frames due x column =>
    exact ⟨opened, here ++ [⟨.symbol x, column⟩], by simp, hf, here, rfl, hreads⟩
  | group frames due column => exact ⟨_, [], by simp, .cons hf hreads rfl, rfl⟩
  | call frames due x nameColumn column =>
    obtain ⟨before, rfl, hd⟩ := hp
    exact ⟨_, [], by simp, .cons hf hd ⟨column, [], rfl, .nil⟩, rfl⟩
  | operator frames op column hl =>
    exact ⟨opened, here ++ [⟨.operator op, column⟩], by simp, hf, here, rfl, hreads.links hl⟩
  | minus frames digits column hl =>
    have hminus := (hreads.links hl).minus digits
    exact ⟨opened, here ++ [⟨.number (String.ofList ('-' :: digits)), column⟩], by simp, hf,
      by simpa [Place.Located] using hminus⟩
  | noArguments frames due x nameColumn column =>
    obtain rfl : here = [] := hp
    rcases hf with _ | ⟨hf, hd, openColumn, given, rfl, hg⟩
    obtain rfl : given = [] := List.map_eq_nil_iff.1 hg.eq_nil
    have hclose := Located.close hf hd [⟨.symbol x, nameColumn⟩, ⟨.openParen, openColumn⟩,
      ⟨.closeParen, column⟩] (.callNone x)
    simpa using hclose
  | closeGroup frames due openColumn column hl =>
    rcases hf with _ | ⟨hf, hd, ho⟩
    obtain rfl := ho
    have hgroup := Operand.group (hreads.links hl).expression
    have hclose := Located.close hf hd
      (⟨.openParen, openColumn⟩ :: (here ++ [⟨.closeParen, column⟩])) (by simpa using hgroup)
    simpa using hclose
  | closeCall frames due x arguments nameColumn column hl =>
    rcases hf with _ | ⟨hf, hd, openColumn, given, rfl, hg⟩
    have hcall := Operand.call x (hg.append (.last (hreads.links hl).expression))
    have hclose := Located.close hf hd (⟨.symbol x, nameColumn⟩ :: ⟨.openParen, openColumn⟩ ::
      (given ++ here ++ [⟨.closeParen, column⟩])) (by simpa using hcall)
    simpa using hclose
  | @comma frames due _ links x arguments nameColumn column hl =>
    rcases hf with _ | ⟨hf, hd, openColumn, given, rfl, hg⟩
    have hgiven : Given ((given ++ (here ++ [Token.mk .comma column])).map Token.lexeme)
        (links.term :: arguments) := by
      simpa using hg.snoc (hreads.links hl).expression
    exact ⟨_, [], by simp, .cons hf hd ⟨openColumn, _, rfl, hgiven⟩, rfl⟩

theorem Located.run (h : r.Located tokens) (hs : Run r more r') : r'.Located (tokens ++ more) := by
  induction hs generalizing tokens with
  | nil => simpa using h
  | cons hstep _ ih => simpa using ih (h.step hstep)

end Reader

end ChainCalc
