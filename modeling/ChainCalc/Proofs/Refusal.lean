import ChainCalc.Proofs.StatementGrammar

/-!
# How reading fails

The other side of `Reader.Step`. `Reader.Refuses r token e` has one rule for each way in which a
reader cannot take a token, and `Reader.Unfinished r column e` one for each way in which the tokens
end too early. A chain cannot be read exactly if the reader gets to such a place
(`Reader.read_eq_error_iff`).

A reader that has come to a place can always be brought to an end from there: what is due is
supplied, and each open construct is closed (`Reader.exists_done`). So it is only a refused token
that shuts the way, never a token that has been taken.
-/

namespace ChainCalc

open Grammar

/-- A lexeme that starts an operand, and is no subtraction after another one. -/
def Lexeme.StartsOperand : Lexeme → Prop
  | symbol _ | openParen => True
  | number text => text.toList.head? ≠ some '-'
  | closeParen | equals | operator _ | comma => False

namespace Reader

inductive Refuses : Reader → Token → ParseError → Prop
  | equals (r : Reader) (column : Nat) :
      Refuses r ⟨.equals, column⟩ (.unexpectedToken ⟨.equals, column⟩)
  | comma (frames : List Frame) (due : Due) {place : Place} {links : Links}
      (openColumn column : Nat) (h : place.links? = some links) :
      Refuses ⟨⟨.group openColumn, due⟩ :: frames, place⟩ ⟨.comma, column⟩
        (.unexpectedToken ⟨.comma, column⟩)
  | missingOperand (frames : List Frame) (op : Operator) (column : Nat) :
      Refuses ⟨frames, .operand .first⟩ ⟨.operator op, column⟩ (.missingOperand op column)
  | consecutive (frames : List Frame) (links : Links) (last op : Operator)
      (lastColumn column : Nat) :
      Refuses ⟨frames, .operand (.after links last lastColumn)⟩ ⟨.operator op, column⟩
        (.consecutiveOperators op column)
  | dangling (frames : List Frame) (links : Links) (op : Operator) (column : Nat) {token : Token}
      (ht : Ends [token]) :
      Refuses ⟨frames, .operand (.after links op column)⟩ token (.danglingOperator op column)
  /-- The list of arguments of a call may be empty, but no other chain. -/
  | empty (frames : List Frame) {token : Token} (ht : Ends [token])
      (hnot : token.lexeme = .closeParen → ∀ x column due outer,
        frames ≠ ⟨.call x column [], due⟩ :: outer) :
      Refuses ⟨frames, .operand .first⟩ token (.emptyExpression token.column)
  | operand (frames : List Frame) {place : Place} {links : Links} {token : Token}
      (h : place.links? = some links) (ht : token.lexeme.StartsOperand)
      (hnot : token.lexeme = .openParen → ∀ due x column, place ≠ .name due x column) :
      Refuses ⟨frames, place⟩ token (.missingOperator token)

inductive Unfinished : Reader → Nat → ParseError → Prop
  | start (column : Nat) : Unfinished .start column (.emptyExpression column)
  | opened (frame : Frame) (frames : List Frame) (column : Nat) :
      Unfinished ⟨frame :: frames, .operand .first⟩ column
        (.emptyExpression frame.opening.column)
  | dangling (frames : List Frame) (links : Links) (op : Operator) (opColumn column : Nat) :
      Unfinished ⟨frames, .operand (.after links op opColumn)⟩ column
        (.danglingOperator op opColumn)
  | unclosed (frame : Frame) (frames : List Frame) {place : Place} {links : Links} (column : Nat)
      (h : place.links? = some links) :
      Unfinished ⟨frame :: frames, place⟩ column frame.opening.unclosed

variable {frames : List Frame} {due : Due} {place : Place} {links : Links} {token : Token}
  {r : Reader} {column : Nat} {e : ParseError}

theorem Refuses.of_stepOperand (h : stepOperand frames due token = .error e) :
    Refuses ⟨frames, .operand due⟩ token e := by
  obtain ⟨lexeme, column⟩ := token
  unfold stepOperand at h
  split at h <;> rename_i hl <;> cases hl
  · cases h
  · cases h
  · cases h
  · cases h; exact .equals ..
  · split at h <;> cases h
    · exact .missingOperand ..
    · exact .consecutive ..
  · split at h <;> cases h
    · rename_i hnot
      exact .empty _ (.inl rfl) fun _ => hnot
    · exact .dangling _ _ _ _ (.inl rfl)
  · split at h <;> cases h
    · exact .empty _ (.inr rfl) (by simp)
    · exact .dangling _ _ _ _ (.inr rfl)

theorem Refuses.of_stepOperator (hp : place.links? = some links)
    (hnot : token.lexeme = .openParen → ∀ due x column, place ≠ .name due x column)
    (h : stepOperator frames links token = .error e) : Refuses ⟨frames, place⟩ token e := by
  obtain ⟨lexeme, column⟩ := token
  unfold stepOperator at h
  split at h <;> rename_i hl <;> cases hl
  · cases h
  · split at h <;> cases h
    rename_i text htext
    refine .operand _ hp (fun hhead => ?_) hnot
    obtain ⟨digits, hdigits⟩ := List.head?_eq_some_iff.1 hhead
    exact htext digits hdigits
  · cases h; exact .operand _ hp trivial hnot
  · cases h; exact .operand _ hp trivial hnot
  · cases h; exact .equals ..
  · split at h <;> cases h
  · split at h <;> cases h
    exact .comma _ _ _ _ hp

theorem step_eq_error_iff : r.step token = .error e ↔ Refuses r token e := by
  constructor
  · intro h
    rcases r with ⟨frames, due | ⟨due, x, column⟩ | links⟩
    · rcases hs : stepOperand frames due token with e' | r'
      · obtain rfl : e' = e := by simpa [step, hs, Except.map] using h
        exact .of_stepOperand hs
      · simp [step, hs, Except.map] at h
    · by_cases hl : token.lexeme = .openParen
      · simp [step, hl] at h
      · rw [step_of_links? rfl hl] at h
        exact .of_stepOperator rfl (fun heq => absurd heq hl) h
    · exact .of_stepOperator rfl (by simp) h
  · intro h
    cases h with
    | missingOperand | consecutive => rfl
    | equals r column => rcases r with ⟨frames, due | ⟨due, x, c⟩ | links⟩ <;> rfl
    | comma _ _ _ _ h =>
      rw [step_of_links? h (by simp)]
      rfl
    | dangling _ _ _ _ ht =>
      obtain ⟨lexeme, column⟩ := token
      rcases ht with rfl | rfl <;> rfl
    | empty frames ht hnot =>
      obtain ⟨lexeme, column⟩ := token
      rcases ht with rfl | rfl
      · rcases frames with _ | ⟨⟨_ | ⟨x, c, _ | _⟩, due⟩, outer⟩
        · rfl
        · rfl
        · exact absurd rfl (hnot rfl x c due outer)
        · rfl
      · rfl
    | @operand frames place links token h ht hnot =>
      obtain ⟨lexeme, column⟩ := token
      cases lexeme with
      | closeParen | equals | operator | comma => exact ht.elim
      | symbol name =>
        rw [step_of_links? h (by simp)]
        rfl
      | openParen =>
        rcases place with due | ⟨due, x, c⟩ | links
        · cases h
        · exact absurd rfl (hnot rfl due x c)
        · rfl
      | number text =>
        rw [step_of_links? h (by simp)]
        simp only [stepOperator]
        split
        · rename_i digits hdigits
          exact absurd (by simp [hdigits]) ht
        · rfl

theorem finish_eq_error_iff : r.finish column = .error e ↔ Unfinished r column e := by
  constructor
  · intro h
    rcases r with ⟨frames, (_ | ⟨links, op, opColumn⟩) | ⟨due, x, c⟩ | links⟩
    · rcases frames with _ | ⟨frame, frames⟩ <;> cases h
      · exact .start column
      · exact .opened frame frames column
    · cases h
      exact .dangling ..
    · rcases frames with _ | ⟨frame, frames⟩ <;> cases h
      exact .unclosed frame frames column rfl
    · rcases frames with _ | ⟨frame, frames⟩ <;> cases h
      exact .unclosed frame frames column rfl
  · intro h
    cases h with
    | start | opened | dangling => rfl
    | @unclosed frame frames place links column h =>
      rcases place with due | ⟨due, x, c⟩ | links
      · cases h
      · rfl
      · rfl

theorem read_eq_error_iff {tokens : List Token} :
    r.read column tokens = .error e ↔
      ∃ before r', Run r before r' ∧ (tokens = before ∧ Unfinished r' column e ∨
        ∃ token after, tokens = before ++ token :: after ∧ Refuses r' token e) := by
  constructor
  · intro h
    induction tokens generalizing r with
    | nil =>
      rcases hf : r.finish column with e' | t
      · obtain rfl : e' = e := by simpa [read, hf, Except.map] using h
        exact ⟨[], r, .nil r, .inl ⟨rfl, finish_eq_error_iff.1 hf⟩⟩
      · simp [read, hf, Except.map] at h
    | cons token tokens ih =>
      rw [read] at h
      split at h
      · rename_i hs
        cases h
        exact ⟨[], r, .nil r, .inr ⟨token, tokens, rfl, step_eq_error_iff.1 hs⟩⟩
      · cases h
      · rename_i hs
        obtain ⟨before, r', hrun, hfail⟩ := ih h
        refine ⟨token :: before, r', .cons (step_eq_next_iff.1 hs) hrun, ?_⟩
        simpa using hfail
  · rintro ⟨before, r', hrun, ⟨rfl, hend⟩ | ⟨token, after, rfl, hrefused⟩⟩
    · have hread : r.read column (tokens ++ []) = r'.read column [] := hrun.read_append
      rw [List.append_nil] at hread
      rw [hread, read, finish_eq_error_iff.2 hend]
      rfl
    · rw [hrun.read_append, read, step_eq_error_iff.2 hrefused]

/-! ### Every place leads to an end -/

/-- Where an operand is complete, as many `)` as there are open constructs lead to an end. -/
theorem exists_run_close (frames : List Frame) {place : Place} {links : Links}
    (hl : place.links? = some links) :
    ∃ r t, Run ⟨frames, place⟩ (List.replicate frames.length ⟨.closeParen, 1⟩) r ∧ r.Done t := by
  induction frames generalizing place links with
  | nil => exact ⟨_, links.term, .nil _, rfl, links, hl, rfl⟩
  | cons frame frames ih =>
    obtain ⟨opening, due⟩ := frame
    rcases opening with c | ⟨x, c, arguments⟩
    · have hnext : (Place.operator (due.fill links.term)).links? = some _ := rfl
      obtain ⟨r, t, hrun, hdone⟩ := ih hnext
      exact ⟨r, t, .cons (.closeGroup frames due c 1 hl) hrun, hdone⟩
    · have hnext : (Place.operator
          (due.fill (.call x (links.term :: arguments).reverse))).links? = some _ := rfl
      obtain ⟨r, t, hrun, hdone⟩ := ih hnext
      exact ⟨r, t, .cons (.closeCall frames due x arguments c 1 hl) hrun, hdone⟩

theorem exists_done (r : Reader) :
    ∃ more r' t, .equals ∉ more.map Token.lexeme ∧ Run r more r' ∧ r'.Done t := by
  obtain ⟨supplied, place, links, hnone, hrun, hl⟩ : ∃ supplied place links,
      .equals ∉ supplied.map Token.lexeme ∧ Run r supplied ⟨r.frames, place⟩ ∧
        place.links? = some links := by
    rcases r with ⟨frames, due | ⟨due, x, c⟩ | links⟩
    · exact ⟨[⟨.number "1", 1⟩], _, _, by simp, .single (.number ..), rfl⟩
    · exact ⟨[], _, _, by simp, .nil _, rfl⟩
    · exact ⟨[], _, _, by simp, .nil _, rfl⟩
  obtain ⟨r', t, hclose, hdone⟩ := exists_run_close r.frames hl
  refine ⟨_, r', t, ?_, hrun.append hclose, hdone⟩
  rw [List.map_append, List.mem_append]
  rintro (h | h)
  · exact hnone h
  · simp at h

end Reader

end ChainCalc
