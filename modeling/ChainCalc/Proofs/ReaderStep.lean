import ChainCalc.Term.Chain

/-!
# The moves of a reader

What a token can do to a reader, as a relation: `Reader.Step` has one rule for each way to move on,
and `Reader.Run` is any number of moves. `step_eq_next_iff`, `step_eq_stop_iff` and
`finish_eq_ok_iff` tie them to the reader, and `read_eq_ok_iff` says what it takes to read a chain.
-/

namespace ChainCalc

/-- The chain at a place where its last operand is complete. -/
def Place.links? : Place → Option Links
  | operand _ => none
  | name due x _ => some (due.fill (.var x))
  | operator links => some links

namespace Reader

/-- The token moves the reader on. -/
inductive Step : Reader → Token → Reader → Prop
  | number (frames : List Frame) (due : Due) (text : String) (column : Nat) :
      Step ⟨frames, .operand due⟩ ⟨.number text, column⟩
        ⟨frames, .operator (due.fill (.number text))⟩
  | name (frames : List Frame) (due : Due) (x : String) (column : Nat) :
      Step ⟨frames, .operand due⟩ ⟨.symbol x, column⟩ ⟨frames, .name due x column⟩
  | group (frames : List Frame) (due : Due) (column : Nat) :
      Step ⟨frames, .operand due⟩ ⟨.openParen, column⟩
        ⟨⟨.group column, due⟩ :: frames, .operand .first⟩
  | call (frames : List Frame) (due : Due) (x : String) (nameColumn column : Nat) :
      Step ⟨frames, .name due x nameColumn⟩ ⟨.openParen, column⟩
        ⟨⟨.call x nameColumn [], due⟩ :: frames, .operand .first⟩
  | noArguments (frames : List Frame) (due : Due) (x : String) (nameColumn column : Nat) :
      Step ⟨⟨.call x nameColumn [], due⟩ :: frames, .operand .first⟩ ⟨.closeParen, column⟩
        ⟨frames, .operator (due.fill (.call x []))⟩
  | operator (frames : List Frame) {place : Place} {links : Links} (op : Operator) (column : Nat)
      (h : place.links? = some links) :
      Step ⟨frames, place⟩ ⟨.operator op, column⟩ ⟨frames, .operand (.after links op column)⟩
  | minus (frames : List Frame) {place : Place} {links : Links} (digits : List Char) (column : Nat)
      (h : place.links? = some links) :
      Step ⟨frames, place⟩ ⟨.number (String.ofList ('-' :: digits)), column⟩
        ⟨frames, .operator (links.push .sub (.number (String.ofList digits)))⟩
  | closeGroup (frames : List Frame) (due : Due) {place : Place} {links : Links}
      (openColumn column : Nat) (h : place.links? = some links) :
      Step ⟨⟨.group openColumn, due⟩ :: frames, place⟩ ⟨.closeParen, column⟩
        ⟨frames, .operator (due.fill links.term)⟩
  | closeCall (frames : List Frame) (due : Due) {place : Place} {links : Links} (x : String)
      (arguments : List Term) (nameColumn column : Nat) (h : place.links? = some links) :
      Step ⟨⟨.call x nameColumn arguments, due⟩ :: frames, place⟩ ⟨.closeParen, column⟩
        ⟨frames, .operator (due.fill (.call x (links.term :: arguments).reverse))⟩
  | comma (frames : List Frame) (due : Due) {place : Place} {links : Links} (x : String)
      (arguments : List Term) (nameColumn column : Nat) (h : place.links? = some links) :
      Step ⟨⟨.call x nameColumn arguments, due⟩ :: frames, place⟩ ⟨.comma, column⟩
        ⟨⟨.call x nameColumn (links.term :: arguments), due⟩ :: frames, .operand .first⟩

variable {frames : List Frame} {due : Due} {place : Place} {links : Links} {token : Token}
  {r r' : Reader} {t : Term}

theorem step_of_links? (h : place.links? = some links) (hne : token.lexeme ≠ .openParen) :
    step ⟨frames, place⟩ token = stepOperator frames links token := by
  match place, h with
  | .operator _, h => cases h; rfl
  | .name due x column, h =>
    cases h
    simp only [step]

theorem Step.of_stepOperand (h : stepOperand frames due token = .ok r') :
    Step ⟨frames, .operand due⟩ token r' := by
  obtain ⟨lexeme, column⟩ := token
  unfold stepOperand at h
  split at h <;> rename_i hl <;> cases hl
  · cases h; exact .number ..
  · cases h; exact .name ..
  · cases h; exact .group ..
  · cases h
  · split at h <;> cases h
  · split at h <;> cases h
    exact .noArguments ..
  · split at h <;> cases h

theorem Step.of_stepOperator (hp : place.links? = some links)
    (h : stepOperator frames links token = .ok (.next r')) : Step ⟨frames, place⟩ token r' := by
  obtain ⟨lexeme, column⟩ := token
  unfold stepOperator at h
  split at h <;> rename_i hl <;> cases hl
  · cases h; exact .operator _ _ _ hp
  · split at h <;> cases h
    rename_i text _ digits hdigits
    obtain rfl : text = String.ofList ('-' :: digits) := by rw [← hdigits, String.ofList_toList]
    exact .minus _ _ _ hp
  · cases h
  · cases h
  · cases h
  · split at h <;> cases h
    · exact .closeGroup _ _ _ _ hp
    · exact .closeCall _ _ _ _ _ _ hp
  · split at h <;> cases h
    exact .comma _ _ _ _ _ _ hp

theorem step_eq_next_iff : r.step token = .ok (.next r') ↔ Step r token r' := by
  constructor
  · intro h
    match r with
    | ⟨frames, .operand due⟩ =>
      cases hs : stepOperand frames due token with
      | error e => simp [step, hs, Except.map] at h
      | ok r₁ =>
        simp only [step, hs, Except.map, Except.ok.injEq, Progress.next.injEq] at h
        exact h ▸ .of_stepOperand hs
    | ⟨frames, .operator links⟩ => exact .of_stepOperator rfl h
    | ⟨frames, .name due x nameColumn⟩ =>
      by_cases hl : token.lexeme = .openParen
      · obtain ⟨lexeme, column⟩ := token
        cases hl
        cases h
        exact .call ..
      · rw [step_of_links? rfl hl] at h
        exact .of_stepOperator rfl h
  · intro h
    cases h with
    | number | name | group | call | noArguments => rfl
    | operator _ _ _ h => rw [step_of_links? h (by simp)]; rfl
    | minus _ digits _ h =>
      rw [step_of_links? h (by simp)]
      simp only [stepOperator, String.toList_ofList]
    | closeGroup _ _ _ _ h => rw [step_of_links? h (by simp)]; rfl
    | closeCall _ _ _ _ _ _ h => rw [step_of_links? h (by simp)]; rfl
    | comma _ _ _ _ _ _ h => rw [step_of_links? h (by simp)]; rfl

theorem Step.unique {r'' : Reader} (h : Step r token r') (h' : Step r token r'') : r' = r'' := by
  have hnext := (step_eq_next_iff.2 h).symm.trans (step_eq_next_iff.2 h')
  cases hnext
  rfl

/-- The reader may end here, with the term `t`. -/
def Done (r : Reader) (t : Term) : Prop :=
  r.frames = [] ∧ ∃ links, r.place.links? = some links ∧ links.term = t

/-- What may follow a chain: nothing, or a token that is left to whoever asked for the chain. -/
def Ends : List Token → Prop
  | [] => True
  | token :: _ => token.lexeme = .closeParen ∨ token.lexeme = .comma

theorem stepOperator_eq_stop (h : stepOperator frames links token = .ok (.stop t)) :
    frames = [] ∧ links.term = t ∧ (token.lexeme = .closeParen ∨ token.lexeme = .comma) := by
  unfold stepOperator at h
  split at h <;> rename_i hl
  · cases h
  · split at h <;> cases h
  · cases h
  · cases h
  · cases h
  · split at h <;> cases h
    exact ⟨rfl, rfl, .inl hl⟩
  · split at h <;> cases h
    exact ⟨rfl, rfl, .inr hl⟩

theorem step_eq_stop_iff : r.step token = .ok (.stop t) ↔ r.Done t ∧ Ends [token] := by
  constructor
  · intro h
    match r with
    | ⟨frames, .operand due⟩ =>
      cases hs : stepOperand frames due token <;> simp [step, hs, Except.map] at h
    | ⟨frames, .operator links⟩ =>
      obtain ⟨hf, ht, hl⟩ := stepOperator_eq_stop h
      exact ⟨⟨hf, links, rfl, ht⟩, hl⟩
    | ⟨frames, .name due x nameColumn⟩ =>
      by_cases hl : token.lexeme = .openParen
      · simp [step, hl] at h
      · rw [step_of_links? rfl hl] at h
        obtain ⟨hf, ht, hl⟩ := stepOperator_eq_stop h
        exact ⟨⟨hf, _, rfl, ht⟩, hl⟩
  · rintro ⟨⟨hf, links, hp, rfl⟩, hl⟩
    obtain ⟨frames, place⟩ := r
    cases hf
    rcases hl with hl | hl
    · rw [step_of_links? hp (by simp [hl])]
      simp [stepOperator, hl]
    · rw [step_of_links? hp (by simp [hl])]
      simp [stepOperator, hl]

theorem finish_eq_ok_iff {column : Nat} : r.finish column = .ok t ↔ r.Done t := by
  have hclose : ∀ frames links, close frames links = .ok t ↔ frames = [] ∧ links.term = t := by
    intro frames links
    cases frames <;> simp [close]
  match r with
  | ⟨[], .operand .first⟩ => simp [finish, Done, Place.links?]
  | ⟨_ :: _, .operand .first⟩ => simp [finish, Done, Place.links?]
  | ⟨_, .operand (.after ..)⟩ => simp [finish, Done, Place.links?]
  | ⟨frames, .name due x nameColumn⟩ => simp [finish, Done, Place.links?, hclose]
  | ⟨frames, .operator links⟩ => simp [finish, Done, Place.links?, hclose]

/-- The tokens move the reader on, one after the other. -/
inductive Run : Reader → List Token → Reader → Prop
  | nil (r : Reader) : Run r [] r
  | cons {r r₁ r₂ : Reader} {token : Token} {tokens : List Token} (h : Step r token r₁)
      (hs : Run r₁ tokens r₂) : Run r (token :: tokens) r₂

namespace Run
variable {r₁ r₂ : Reader} {tokens more rest : List Token}

theorem single (h : Step r token r') : Run r [token] r' := .cons h (.nil r')

theorem append (h : Run r tokens r₁) (hs : Run r₁ more r₂) : Run r (tokens ++ more) r₂ := by
  induction h with
  | nil => exact hs
  | cons h _ ih => exact .cons h (ih hs)

theorem exists_of_append (h : Run r (tokens ++ more) r₂) :
    ∃ r₁, Run r tokens r₁ ∧ Run r₁ more r₂ := by
  induction tokens generalizing r with
  | nil => exact ⟨r, .nil r, h⟩
  | cons token tokens ih =>
    cases h with
    | cons hstep h =>
      obtain ⟨r₁, hrun, hmore⟩ := ih h
      exact ⟨r₁, .cons hstep hrun, hmore⟩

theorem unique (h : Run r tokens r₁) (h' : Run r tokens r₂) : r₁ = r₂ := by
  induction h with
  | nil => cases h'; rfl
  | cons hstep _ ih =>
    cases h' with
    | cons hstep' h' =>
      cases hstep.unique hstep'
      exact ih h'

theorem read_append {column : Nat} (h : Run r tokens r') :
    r.read column (tokens ++ rest) = r'.read column rest := by
  induction h with
  | nil => rfl
  | cons h _ ih =>
    rw [List.cons_append, read, step_eq_next_iff.2 h]
    exact ih

end Run

theorem read_of_done {column : Nat} {rest : List Token} (h : r.Done t) (hr : Ends rest) :
    r.read column rest = .ok (t, rest) := by
  cases rest with
  | nil => rw [read, finish_eq_ok_iff.2 h]; rfl
  | cons token tokens => rw [read, step_eq_stop_iff.2 ⟨h, hr⟩]

theorem read_eq_ok_iff {column : Nat} {tokens rest : List Token} :
    r.read column tokens = .ok (t, rest) ↔
      ∃ read r', tokens = read ++ rest ∧ Run r read r' ∧ r'.Done t ∧ Ends rest := by
  constructor
  · intro h
    induction tokens generalizing r with
    | nil =>
      cases hf : r.finish column with
      | error e => simp [read, hf, Except.map] at h
      | ok t' =>
        obtain ⟨rfl, rfl⟩ : t' = t ∧ [] = rest := by simpa [read, hf, Except.map] using h
        exact ⟨[], r, rfl, .nil r, finish_eq_ok_iff.1 hf, trivial⟩
    | cons token tokens ih =>
      rw [read] at h
      split at h
      · cases h
      · rename_i hs
        cases h
        exact ⟨[], r, rfl, .nil r, step_eq_stop_iff.1 hs⟩
      · rename_i hs
        obtain ⟨pre, r₂, rfl, hrun, hdone⟩ := ih h
        exact ⟨token :: pre, r₂, rfl, .cons (step_eq_next_iff.1 hs) hrun, hdone⟩
  · rintro ⟨pre, r₂, rfl, hrun, hdone, hends⟩
    rw [hrun.read_append, read_of_done hdone hends]

end Reader

end ChainCalc
