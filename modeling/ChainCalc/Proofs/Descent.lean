import ChainCalc.Proofs.Canonical
import ChainCalc.Proofs.ChainGrammar

/-!
# Chains read by recursive descent

`Reader` keeps the open groups and calls on a stack. `Descent.chain` reads a chain with one function
for each construct instead, and counts operands and operators. Three of its exits are there only
because the functions check what their callers have already seen to (`Exit.afterArgument`,
`Exit.noOperand`, `Exit.unpaired`), and no tokens lead to them. The proof follows the descent with
the reader: the frames of the open constructs stand for its calls, and where the reader is in the
innermost chain says how many operands and operators there are (`Descent.Tally.At`).
-/

namespace ChainCalc

/-- Why reading by descent ends without a term. -/
inductive Exit
  | failed (e : ParseError)
  /-- An argument is followed by a token other than `,` and `)`. -/
  | afterArgument (name : String) (token : Token)
  /-- An operand starts with a token that starts none. -/
  | noOperand (token : Token)
  /-- There are as many operators as operands, but no operator to blame for it. -/
  | unpaired
deriving Repr, DecidableEq

/-- What is read from some tokens, and the tokens after it, which are no more than there were. -/
abbrev Descent (α : Type) (tokens : List Token) : Type :=
  Except Exit (α × { rest : List Token // rest.length ≤ tokens.length })

/-- After an operand, a number with a minus sign in front is to be subtracted without the sign. -/
def Token.subtracted? (token : Token) : Option Term :=
  match token.lexeme with
  | .number text =>
    match text.toList with
    | '-' :: digits => some (.number (String.ofList digits))
    | _ => none
  | _ => none

def Token.StartsOperand (token : Token) : Prop :=
  match token.lexeme with
  | .number _ | .symbol _ | .openParen => True
  | .closeParen | .equals | .operator _ | .comma => False

namespace Descent

/-- The same when there were more tokens to begin with. -/
def widen {α : Type} {tokens more : List Token} (h : tokens.length ≤ more.length) :
    Descent α tokens → Descent α more
  | .error e => .error e
  | .ok (a, ⟨rest, hrest⟩) => .ok (a, ⟨rest, Nat.le_trans hrest h⟩)

/-- The same with all the tokens left. -/
def leaving {α : Type} (tokens : List Token) : Except Exit α → Descent α tokens
  | .error e => .error e
  | .ok a => .ok (a, ⟨tokens, Nat.le_refl _⟩)

/-- Operands and operators so far, latest first, and the last operator with a token of its own. -/
structure Tally where
  operands : List Term := []
  operators : List Operator := []
  last : Option (Operator × Nat) := none

namespace Tally

/-- An operand is due if there are as many operators as operands. -/
def isDue (s : Tally) : Bool := s.operands.length == s.operators.length

/-- The term of a chain that ends here. `column` is to blame if it has no operands. -/
def finish (s : Tally) (column : Nat) : Except Exit Term :=
  match s.operands with
  | [] => .error (.failed (.emptyExpression column))
  | operand :: _ =>
    if s.isDue then
      match s.last with
      | some (op, column) => .error (.failed (.danglingOperator op column))
      | none => .error .unpaired
    else if s.operators.isEmpty then .ok operand
    else .ok (.chain s.operands.reverse s.operators.reverse)

end Tally

mutual

/-- Reads a chain. -/
def chain (column : Nat) (tokens : List Token) : Descent Term tokens :=
  links ((tokens.head?.map Token.column).getD column) {} tokens
termination_by (tokens.length, 1)

/-- Reads on in a chain. -/
def links (column : Nat) (s : Tally) (tokens : List Token) : Descent Term tokens :=
  match tokens with
  | [] => leaving [] (s.finish column)
  | token :: tokens =>
    match token.lexeme with
    | .operator op =>
      if s.isDue then
        .error (.failed (if s.operands.isEmpty then .missingOperand op token.column
          else .consecutiveOperators op token.column))
      else
        (links column { s with operators := op :: s.operators, last := some (op, token.column) }
          tokens).widen (Nat.le_succ _)
    | .closeParen | .comma => leaving (token :: tokens) (s.finish column)
    | .equals => .error (.failed (.unexpectedToken token))
    | _ =>
      if s.isDue then
        match operand token tokens with
        | .error e => .error e
        | .ok (t, ⟨rest, h⟩) =>
          (links column { s with operands := t :: s.operands } rest).widen (Nat.le_succ_of_le h)
      else
        match token.subtracted? with
        | some t =>
          (links column { s with operands := t :: s.operands, operators := .sub :: s.operators }
            tokens).widen (Nat.le_succ _)
        | none => .error (.failed (.missingOperator token))
termination_by (tokens.length, 0)

/-- Reads an operand that starts with a token. -/
def operand (token : Token) (tokens : List Token) : Descent Term tokens :=
  match token.lexeme with
  | .number text => .ok (.number text, ⟨tokens, Nat.le_refl _⟩)
  | .symbol name =>
    match tokens with
    | [] => .ok (.var name, ⟨[], Nat.le_refl _⟩)
    | next :: tokens =>
      match next.lexeme with
      | .openParen =>
        match arguments name token.column tokens with
        | .error e => .error e
        | .ok (ts, ⟨rest, h⟩) => .ok (.call name ts, ⟨rest, Nat.le_succ_of_le h⟩)
      | _ => .ok (.var name, ⟨next :: tokens, Nat.le_refl _⟩)
  | .openParen => group token.column tokens
  | _ => .error (.noOperand token)
termination_by (tokens.length, 3)

/-- Reads a group after its `(`. -/
def group (column : Nat) (tokens : List Token) : Descent Term tokens :=
  match chain column tokens with
  | .error e => .error e
  | .ok (_, ⟨[], _⟩) => .error (.failed (.unclosedGroup column))
  | .ok (t, ⟨token :: rest, h⟩) =>
    match token.lexeme with
    | .closeParen => .ok (t, ⟨rest, Nat.le_of_succ_le h⟩)
    | _ => .error (.failed (.unexpectedToken token))
termination_by (tokens.length, 2)

/-- Reads the arguments of a call after its `(`. -/
def arguments (name : String) (column : Nat) (tokens : List Token) : Descent (List Term) tokens :=
  match tokens with
  | [] => moreArguments name column [] []
  | token :: tokens =>
    match token.lexeme with
    | .closeParen => .ok ([], ⟨tokens, Nat.le_succ _⟩)
    | _ => moreArguments name column [] (token :: tokens)
termination_by (tokens.length, 3)

/-- Reads further arguments, of which there must be one. -/
def moreArguments (name : String) (column : Nat) (done : List Term) (tokens : List Token) :
    Descent (List Term) tokens :=
  match chain column tokens with
  | .error e => .error e
  | .ok (_, ⟨[], _⟩) => .error (.failed (.malformedCall name column))
  | .ok (t, ⟨token :: rest, h⟩) =>
    match token.lexeme with
    | .comma => (moreArguments name column (t :: done) rest).widen (Nat.le_of_succ_le h)
    | .closeParen => .ok ((t :: done).reverse, ⟨rest, Nat.le_of_succ_le h⟩)
    | _ => .error (.afterArgument name token)
termination_by (tokens.length, 2)

end

/-! ### The reader follows the descent -/

/-- If the descent fails with an error, then so does the reading `r`; if it gives `a` and leaves
tokens with the property `p`, then `r` is the reading `k` of these. There is no other exit. -/
inductive Follows {α : Type} {tokens : List Token} (p : List Token → Prop)
    (k : α → List Token → Except ParseError (Term × List Token))
    (r : Except ParseError (Term × List Token)) : Descent α tokens → Prop
  | failed {e : ParseError} (h : r = .error e) : Follows p k r (.error (.failed e))
  | ok {a : α} {rest : List Token} (hrest : rest.length ≤ tokens.length) (hp : p rest)
      (h : r = k a rest) : Follows p k r (.ok (a, ⟨rest, hrest⟩))

theorem Follows.widen {α : Type} {tokens more : List Token} {p : List Token → Prop}
    {k : α → List Token → Except ParseError (Term × List Token)}
    {r : Except ParseError (Term × List Token)} {d : Descent α tokens} (hd : Follows p k r d)
    (h : tokens.length ≤ more.length) : Follows p k r (d.widen h) := by
  cases hd with
  | failed h => exact .failed h
  | ok hrest hp h => exact .ok _ hp h

/-- The column to blame if the tokens end where the first operand is due. -/
def startColumn (frames : List Frame) (column : Nat) : Nat :=
  match frames with
  | [] => column
  | frame :: _ => frame.opening.column

namespace Tally

/-- The operands and operators of links. -/
def ofLinks (l : Links) (last : Option (Operator × Nat)) : Tally :=
  ⟨l.rest.map Prod.snd ++ [l.first], l.rest.map Prod.fst, last⟩

/-- Those of links with an operator after them. -/
def pending (l : Links) (op : Operator) (column : Nat) : Tally :=
  ⟨l.rest.map Prod.snd ++ [l.first], op :: l.rest.map Prod.fst, some (op, column)⟩

/-- The operands and operators are those of a place. The last operator is known where it lacks an
operand; elsewhere a minus sign may have come after it. -/
inductive At : Tally → Place → Prop
  | start : At {} (.operand .first)
  | operator (l : Links) (last : Option (Operator × Nat)) : At (ofLinks l last) (.operator l)
  | operand (l : Links) (op : Operator) (column : Nat) :
      At (pending l op column) (.operand (.after l op column))

theorem isDue_ofLinks (l : Links) (last : Option (Operator × Nat)) :
    (ofLinks l last).isDue = false := by
  simp [isDue, ofLinks]

theorem isDue_pending (l : Links) (op : Operator) (column : Nat) :
    (pending l op column).isDue = true := by
  simp [isDue, pending]

theorem finish_ofLinks (l : Links) (last : Option (Operator × Nat)) (column : Nat) :
    (ofLinks l last).finish column = .ok l.term := by
  obtain ⟨first, _ | ⟨⟨op, t⟩, rest⟩⟩ := l
  · rfl
  · simp [finish, isDue, ofLinks, Links.term]

theorem finish_pending (l : Links) (op : Operator) (c column : Nat) :
    (pending l op c).finish column = .error (.failed (.danglingOperator op c)) := by
  rw [finish, isDue_pending, pending]
  cases hoperands : l.rest.map Prod.snd ++ [l.first] with
  | nil => simp at hoperands
  | cons => rfl

variable {s : Tally} {due : Due}

theorem At.isDue (h : s.At (.operand due)) : s.isDue := by
  cases h with
  | start => rfl
  | operand l op column => exact isDue_pending l op column

theorem At.fill (h : s.At (.operand due)) (t : Term) :
    At { s with operands := t :: s.operands } (.operator (due.fill t)) := by
  cases h with
  | start => exact .operator ⟨t, []⟩ none
  | operand l op column => exact .operator (l.push op t) (some (op, column))

end Tally

open Reader

/-- What happens to a chain at its end depends on its term only. -/
theorem read_operator_of_ends (frames : List Frame) (l : Links) (column : Nat) {rest : List Token}
    (hrest : Ends rest) :
    read ⟨frames, .operator l⟩ column rest =
      read ⟨frames, .operator ⟨l.term, []⟩⟩ column rest := by
  cases rest with
  | nil => cases frames <;> rfl
  | cons token rest =>
    obtain ⟨lexeme, c⟩ := token
    rcases hrest with rfl | rfl
    · rcases frames with _ | ⟨⟨_ | _, _⟩, _⟩ <;> rfl
    · rcases frames with _ | ⟨⟨_ | _, _⟩, _⟩ <;> rfl

/-- The descent has read a chain inside `frames`, and the reader has its term in the place of it. -/
abbrev FollowsChain (frames : List Frame) (base : Nat) {tokens : List Token}
    (r : Except ParseError (Term × List Token)) (d : Descent Term tokens) : Prop :=
  Follows Ends (fun t rest => read ⟨frames, .operator ⟨t, []⟩⟩ base rest) r d

/-- The tokens do not start with the `)` of a call without arguments. -/
def NoEmptyCall (frames : List Frame) (tokens : List Token) : Prop :=
  ∀ x c due outer, frames = ⟨.call x c [], due⟩ :: outer →
    ∀ token ∈ tokens.head?, token.lexeme ≠ .closeParen

/-- Before the first operand, the column to blame is that of the next token, if there is one. -/
def Blames (frames : List Frame) (base : Nat) (tokens : List Token) (column : Nat) : Prop :=
  column = (tokens.head?.map Token.column).getD (startColumn frames base)

/-- The reader reads on in a chain as the descent does. -/
def LinksFollow (tokens : List Token) : Prop :=
  ∀ (frames : List Frame) (base column : Nat) (s : Tally) (place : Place), s.At place →
    (place = .operand .first → Blames frames base tokens column ∧ NoEmptyCall frames tokens) →
    FollowsChain frames base (read ⟨frames, place⟩ base tokens) (links column s tokens)

/-- The reader reads a chain as the descent does. -/
def ChainFollows (tokens : List Token) : Prop :=
  ∀ (frames : List Frame) (base : Nat), NoEmptyCall frames tokens →
    FollowsChain frames base (read ⟨frames, .operand .first⟩ base tokens)
      (chain (startColumn frames base) tokens)

theorem LinksFollow.chain {tokens : List Token} (h : LinksFollow tokens) : ChainFollows tokens := by
  intro frames base hopen
  rw [Descent.chain]
  exact h frames base _ {} _ .start fun _ => ⟨rfl, hopen⟩

theorem ChainFollows.group {tokens : List Token} (h : ChainFollows tokens) (frames : List Frame)
    (due : Due) (column base : Nat) :
    Follows (fun _ => True) (fun t rest => read ⟨frames, .operator (due.fill t)⟩ base rest)
      (read ⟨⟨.group column, due⟩ :: frames, .operand .first⟩ base tokens)
      (group column tokens) := by
  have hchain := h (⟨.group column, due⟩ :: frames) base nofun
  rw [Descent.group]
  change Follows _ _ _ (Descent.chain column tokens) at hchain
  generalize read _ base tokens = r, Descent.chain column tokens = d at hchain
  cases hchain with
  | failed h => exact .failed h
  | @ok t rest hrest hends h =>
    cases rest with
    | nil => exact .failed h
    | cons token rest =>
      obtain ⟨lexeme, c⟩ := token
      rcases hends with rfl | rfl
      · exact .ok _ trivial h
      · exact .failed h

/-- The induction is on the number of tokens, as each argument leaves fewer to the next. -/
theorem moreArguments_follows {tokens : List Token}
    (h : ∀ fewer : List Token, fewer.length ≤ tokens.length → ChainFollows fewer)
    (frames : List Frame) (due : Due) (name : String) (column base : Nat) (done : List Term)
    (hdone : done = [] → ∀ token ∈ tokens.head?, token.lexeme ≠ .closeParen) :
    Follows (fun _ => True)
      (fun ts rest => read ⟨frames, .operator (due.fill (.call name ts))⟩ base rest)
      (read ⟨⟨.call name column done, due⟩ :: frames, .operand .first⟩ base tokens)
      (moreArguments name column done tokens) := by
  induction hn : tokens.length using Nat.strongRecOn generalizing tokens done with
  | ind n ih =>
    have hopen : NoEmptyCall (⟨.call name column done, due⟩ :: frames) tokens := by
      rintro x c due' outer ⟨⟩
      exact hdone rfl
    have hchain := h tokens (Nat.le_refl _) _ base hopen
    rw [moreArguments]
    change Follows _ _ _ (Descent.chain column tokens) at hchain
    generalize read _ base tokens = r, Descent.chain column tokens = d at hchain
    cases hchain with
    | failed h => exact .failed h
    | @ok t rest hrest hends hr =>
      cases rest with
      | nil => exact .failed hr
      | cons token rest =>
        obtain ⟨lexeme, c⟩ := token
        rcases hends with rfl | rfl
        · exact .ok _ trivial hr
        · -- the next chain has one more argument before it, so a `)` no longer closes an empty call
          have hlt : rest.length < tokens.length := hrest
          rw [hr]
          exact (ih rest.length (hn ▸ hlt) (fun fewer hfewer => h fewer (by omega)) (t :: done)
            nofun rfl).widen _

theorem arguments_follows {tokens : List Token}
    (h : ∀ fewer : List Token, fewer.length ≤ tokens.length → ChainFollows fewer)
    (frames : List Frame) (due : Due) (name : String) (column base : Nat) :
    Follows (fun _ => True)
      (fun ts rest => read ⟨frames, .operator (due.fill (.call name ts))⟩ base rest)
      (read ⟨⟨.call name column [], due⟩ :: frames, .operand .first⟩ base tokens)
      (arguments name column tokens) := by
  cases tokens with
  | nil =>
    rw [arguments]
    exact moreArguments_follows h frames due name column base [] nofun
  | cons token tokens =>
    obtain ⟨lexeme, c⟩ := token
    rw [arguments]
    split
    · rename_i hclose
      cases hclose
      exact .ok _ trivial rfl
    · rename_i hclose
      refine moreArguments_follows h frames due name column base [] ?_
      rintro _ _ ⟨⟩
      exact hclose

/-- A name is read as a variable unless a `(` follows. -/
theorem read_name (frames : List Frame) (due : Due) (name : String) (column base : Nat)
    {tokens : List Token} (h : ∀ token ∈ tokens.head?, token.lexeme ≠ .openParen) :
    read ⟨frames, .name due name column⟩ base tokens =
      read ⟨frames, .operator (due.fill (.var name))⟩ base tokens := by
  cases tokens with
  | nil => rfl
  | cons token tokens =>
    have hstep : step ⟨frames, .name due name column⟩ token =
        step ⟨frames, .operator (due.fill (.var name))⟩ token := step_of_links? rfl (h token rfl)
    rw [Reader.read, Reader.read, hstep]

theorem operand_follows {token : Token} {tokens : List Token}
    (h : ∀ fewer : List Token, fewer.length ≤ tokens.length → ChainFollows fewer)
    (frames : List Frame) (due : Due) (base : Nat)
    (hstarts : token.StartsOperand) :
    Follows (fun _ => True) (fun t rest => read ⟨frames, .operator (due.fill t)⟩ base rest)
      (read ⟨frames, .operand due⟩ base (token :: tokens)) (operand token tokens) := by
  obtain ⟨lexeme, c⟩ := token
  rw [operand]
  cases lexeme with
  | closeParen | equals | operator | comma => exact hstarts.elim
  | number text => exact .ok _ trivial rfl
  | openParen => exact (h tokens (Nat.le_refl _)).group frames due c base
  | symbol name =>
    change Follows _ _ (read ⟨frames, .name due name c⟩ base tokens) _
    cases tokens with
    | nil => exact .ok _ trivial rfl
    | cons next tokens =>
      by_cases hnext : next.lexeme = .openParen
      · obtain ⟨_, d⟩ := next
        cases hnext
        have hcall := arguments_follows (fun fewer (hle : fewer.length ≤ tokens.length) =>
          h fewer (Nat.le_succ_of_le hle)) frames due name c base
        change Follows _ _ (read ⟨⟨.call name c [], due⟩ :: frames, .operand .first⟩ base tokens) _
        dsimp only
        generalize read _ base tokens = r, arguments name c tokens = d at hcall
        cases hcall with
        | failed h => exact .failed h
        | ok hrest _ h => exact .ok _ trivial h
      · rw [read_name frames due name c base (by rintro _ ⟨⟩; exact hnext)]
        dsimp only
        split
        · exact absurd ‹_› hnext
        · exact .ok _ trivial rfl

theorem links_of_ends {tokens : List Token} (h : Ends tokens) (column : Nat) (s : Tally) :
    links column s tokens = leaving tokens (s.finish column) := by
  cases tokens with
  | nil => rw [links]
  | cons token tokens =>
    obtain ⟨lexeme, c⟩ := token
    rcases h with rfl | rfl <;> rw [links]

/-- A chain that has no operand where it ends is empty. -/
theorem read_first_of_ends {tokens : List Token} (hends : Ends tokens) {frames : List Frame}
    {base column : Nat} (hcolumn : Blames frames base tokens column)
    (hopen : NoEmptyCall frames tokens) :
    read ⟨frames, .operand .first⟩ base tokens = .error (.emptyExpression column) := by
  cases hcolumn
  cases tokens with
  | nil => cases frames <;> rfl
  | cons token tokens =>
    obtain ⟨lexeme, c⟩ := token
    rcases hends with rfl | rfl
    · rcases frames with _ | ⟨⟨_ | ⟨x, d, _ | _⟩, due⟩, outer⟩
      · rfl
      · rfl
      · exact absurd rfl (hopen x d due outer rfl _ rfl)
      · rfl
    · rfl

theorem read_after_of_ends {tokens : List Token} (hends : Ends tokens) (frames : List Frame)
    (base : Nat) (l : Links) (op : Operator) (c : Nat) :
    read ⟨frames, .operand (.after l op c)⟩ base tokens = .error (.danglingOperator op c) := by
  cases tokens with
  | nil => rfl
  | cons token tokens =>
    obtain ⟨lexeme, d⟩ := token
    rcases hends with rfl | rfl <;> rfl

theorem links_follows_of_ends {tokens : List Token} (hends : Ends tokens) {frames : List Frame}
    {base column : Nat} {s : Tally} {place : Place} (hat : s.At place)
    (hstart : place = .operand .first →
      Blames frames base tokens column ∧ NoEmptyCall frames tokens) :
    FollowsChain frames base (read ⟨frames, place⟩ base tokens) (links column s tokens) := by
  rw [links_of_ends hends]
  cases hat with
  | start =>
    obtain ⟨hcolumn, hopen⟩ := hstart rfl
    exact .failed (read_first_of_ends hends hcolumn hopen)
  | operator l last =>
    rw [Tally.finish_ofLinks]
    exact .ok _ hends (read_operator_of_ends frames l base hends)
  | operand l op c =>
    rw [Tally.finish_pending]
    exact .failed (read_after_of_ends hends frames base l op c)

/-- A token that starts an operand either fills a place or is a number to subtract. -/
theorem links_of_startsOperand {token : Token} (h : token.StartsOperand) (column : Nat) (s : Tally)
    (tokens : List Token) :
    links column s (token :: tokens) =
      if s.isDue then
        match operand token tokens with
        | .error e => .error e
        | .ok (t, ⟨rest, h⟩) =>
          (links column { s with operands := t :: s.operands } rest).widen (Nat.le_succ_of_le h)
      else
        match token.subtracted? with
        | some t =>
          (links column { s with operands := t :: s.operands, operators := .sub :: s.operators }
            tokens).widen (Nat.le_succ _)
        | none => .error (.failed (.missingOperator token)) := by
  obtain ⟨lexeme, c⟩ := token
  cases lexeme with
  | closeParen | equals | operator | comma => exact h.elim
  | number | symbol | openParen => rw [links]

theorem links_follows_of_operand {token : Token} {tokens : List Token}
    (hlinks : ∀ fewer : List Token, fewer.length ≤ tokens.length → LinksFollow fewer)
    (hstarts : token.StartsOperand) (frames : List Frame) (base column : Nat) {s : Tally}
    {due : Due} (hat : s.At (.operand due)) :
    FollowsChain frames base (read ⟨frames, .operand due⟩ base (token :: tokens))
      (links column s (token :: tokens)) := by
  have hoperand := operand_follows (fun fewer hle => (hlinks fewer hle).chain) frames due base
    hstarts
  rw [links_of_startsOperand hstarts, if_pos hat.isDue]
  generalize read ⟨frames, .operand due⟩ base (token :: tokens) = r, operand token tokens = d
    at hoperand
  cases hoperand with
  | failed h => exact .failed h
  | @ok t rest hrest _ h =>
    rw [h]
    exact (hlinks rest hrest frames base column _ _ (hat.fill t) nofun).widen _

/-- After an operand, a token that starts another one is an error unless it brings its own minus. -/
theorem read_operator_of_startsOperand {token : Token} (h : token.StartsOperand)
    (frames : List Frame) (l : Links) (column : Nat) (tokens : List Token) :
    read ⟨frames, .operator l⟩ column (token :: tokens) =
      match token.subtracted? with
      | some t => read ⟨frames, .operator (l.push .sub t)⟩ column tokens
      | none => .error (.missingOperator token) := by
  obtain ⟨lexeme, c⟩ := token
  cases lexeme with
  | closeParen | equals | operator | comma => exact h.elim
  | symbol | openParen => rfl
  | number text =>
    by_cases hminus : ∃ digits, text.toList = '-' :: digits
    · obtain ⟨digits, htext⟩ := hminus
      simp [Reader.read, step, stepOperator, Token.subtracted?, htext]
    · simp [Reader.read, step, stepOperator, Token.subtracted?, not_exists.1 hminus]

theorem links_follows_of_operator {token : Token} {tokens : List Token}
    (hlinks : LinksFollow tokens) (hstarts : token.StartsOperand) (frames : List Frame)
    (base column : Nat) (l : Links) (last : Option (Operator × Nat)) :
    FollowsChain frames base (read ⟨frames, .operator l⟩ base (token :: tokens))
      (links column (.ofLinks l last) (token :: tokens)) := by
  rw [links_of_startsOperand hstarts, Tally.isDue_ofLinks, if_neg (by decide),
    read_operator_of_startsOperand hstarts]
  cases token.subtracted? with
  | none => exact .failed rfl
  | some t => exact (hlinks frames base column _ _ (.operator (l.push .sub t) last) nofun).widen _

/-- The induction is on the number of tokens: an operand may take many of them, and whatever it
leaves are fewer than there were. -/
theorem linksFollow (tokens : List Token) : LinksFollow tokens := by
  induction hn : tokens.length using Nat.strongRecOn generalizing tokens with
  | ind n ih =>
    intro frames base column s place hat hstart
    by_cases hends : Ends tokens
    · exact links_follows_of_ends hends hat hstart
    cases tokens with
    | nil => exact absurd trivial hends
    | cons token tokens =>
      have hlinks : ∀ fewer : List Token, fewer.length ≤ tokens.length → LinksFollow fewer :=
        fun fewer hle => ih fewer.length (hn ▸ Nat.lt_succ_of_le hle) fewer rfl
      by_cases hstarts : token.StartsOperand
      · cases hat with
        | start => exact links_follows_of_operand hlinks hstarts frames base column .start
        | operand l op c =>
          exact links_follows_of_operand hlinks hstarts frames base column (.operand l op c)
        | operator l last =>
          exact links_follows_of_operator (hlinks tokens (Nat.le_refl _)) hstarts frames base column
            l last
      -- what is left are `=` and the operators
      obtain ⟨lexeme, c⟩ := token
      cases lexeme with
      | closeParen => exact absurd (.inl rfl) hends
      | comma => exact absurd (.inr rfl) hends
      | number | symbol | openParen => exact absurd trivial hstarts
      | equals =>
        rw [links]
        refine .failed ?_
        cases hat <;> rfl
      | operator op =>
        rw [links]
        cases hat with
        | start => exact .failed rfl
        | operand l before d =>
          rw [Tally.isDue_pending, if_pos rfl]
          exact .failed (by simp [Tally.pending]; rfl)
        | operator l last =>
          rw [Tally.isDue_ofLinks, if_neg (by decide)]
          exact (hlinks tokens (Nat.le_refl _) frames base column _ _ (.operand l op c) nofun).widen
            (Nat.le_succ _)

/-- What a descent gives, without the bound on the tokens left. -/
def result {α : Type} {tokens : List Token} : Descent α tokens → Except Exit (α × List Token)
  | .error e => .error e
  | .ok (a, rest) => .ok (a, rest)

theorem Follows.exists_failed {α : Type} {tokens : List Token} {p : List Token → Prop}
    {k : α → List Token → Except ParseError (Term × List Token)}
    {r : Except ParseError (Term × List Token)} {d : Descent α tokens} (h : Follows p k r d)
    {exit : Exit} (hexit : d = .error exit) : ∃ e, exit = .failed e := by
  cases h with
  | failed =>
    cases hexit
    exact ⟨_, rfl⟩
  | ok => cases hexit

/-- Outside all constructs the reader gives what the descent does. -/
theorem FollowsChain.result_eq {tokens : List Token} {column : Nat}
    {r : Except ParseError (Term × List Token)} {d : Descent Term tokens}
    (h : FollowsChain [] column r d) : d.result = r.mapError .failed := by
  cases h with
  | failed h => rw [h]; rfl
  | @ok t rest _ hends h =>
    rw [h, read_of_done ⟨rfl, ⟨t, []⟩, rfl, rfl⟩ hends]
    rfl

end Descent

/-! ### The chains of what is read -/

namespace Term

/-- Every chain in the term has two or more operands, with an operator between any two. -/
def Paired (t : Term) : Prop :=
  ∀ operands operators, Part (.chain operands operators) t →
    2 ≤ operands.length ∧ operators.length + 1 = operands.length

theorem Paired.call (f : String) {arguments : List Term} (h : ∀ t ∈ arguments, t.Paired) :
    (Term.call f arguments).Paired := by
  intro operands operators hpart
  cases hpart with
  | argument _ ht hpart => exact h _ ht operands operators hpart

theorem Paired.chain {operands : List Term} {operators : List Operator}
    (htwo : 2 ≤ operands.length) (hlength : operators.length + 1 = operands.length)
    (h : ∀ t ∈ operands, t.Paired) : (Term.chain operands operators).Paired := by
  intro operands' operators' hpart
  cases hpart with
  | whole => exact ⟨htwo, hlength⟩
  | operand _ ht hpart => exact h _ ht operands' operators' hpart

end Term

namespace Grammar

mutual

theorem Operand.paired {ls : List Lexeme} {t : Term} : Operand ls t → t.Paired
  | .number _ | .var _ => nofun
  | .callNone name => .call name (by simp)
  | .call name h => .call name h.paired
  | .group h => h.paired

theorem Tail.paired {ls : List Lexeme} {rest : List (Operator × Term)} :
    Tail ls rest → ∀ t ∈ rest.map Prod.snd, t.Paired
  | .nil => by simp
  | .link _ h hs => List.forall_mem_cons.2 ⟨h.paired, hs.paired⟩
  | .minus _ hs => List.forall_mem_cons.2 ⟨nofun, hs.paired⟩

theorem Expression.paired {ls : List Lexeme} {t : Term} : Expression ls t → t.Paired
  | .lone h => h.paired
  | .chain h hs hne => by
    have hlength := List.length_pos_iff.2 hne
    refine .chain (by simp only [List.length_cons, List.length_map]; omega) (by simp) ?_
    exact List.forall_mem_cons.2 ⟨h.paired, hs.paired⟩

theorem Arguments.paired {ls : List Lexeme} {ts : List Term} :
    Arguments ls ts → ∀ t ∈ ts, t.Paired
  | .last h => by simpa using h.paired
  | .cons h hs => List.forall_mem_cons.2 ⟨h.paired, hs.paired⟩

end

theorem Operand.ne_nil {ls : List Lexeme} {t : Term} (h : Operand ls t) : ls ≠ [] := by
  cases h <;> simp

theorem Expression.ne_nil {ls : List Lexeme} {t : Term} (h : Expression ls t) : ls ≠ [] := by
  cases h with
  | lone h => exact h.ne_nil
  | chain h => simp [h.ne_nil]

end Grammar

/-- Reading a chain is reading it by descent, which has no exits but the errors and, after a term,
the end of a chain: what is left is less than there was, and starts with a `)` or `,` if it is not
empty. The term has only chains of two or more operands with one operator less. -/
theorem readChain_exits (column : Nat) (tokens : List Token) :
    (Descent.chain column tokens).result = (readChain column tokens).mapError .failed ∧
      (∀ exit, (Descent.chain column tokens = .error exit ∨
        ∃ name, Descent.arguments name column tokens = .error exit) → ∃ e, exit = .failed e) ∧
      ∀ t rest, readChain column tokens = .ok (t, rest) →
        rest <:+ tokens ∧ rest ≠ tokens ∧ Reader.Ends rest ∧ t.Paired := by
  have hchain := (Descent.linksFollow tokens).chain [] column nofun
  refine ⟨hchain.result_eq, ?_, ?_⟩
  · rintro exit (hexit | ⟨name, hexit⟩)
    · exact hchain.exists_failed hexit
    · have harguments := Descent.arguments_follows
        (fun fewer (_ : fewer.length ≤ tokens.length) => (Descent.linksFollow fewer).chain)
        [] .first name column column
      exact harguments.exists_failed hexit
  · intro t rest hread
    obtain ⟨read, rfl, hexpr, hends⟩ := readChain_eq_ok_iff.1 hread
    have hne : read ≠ [] := by
      rintro rfl
      exact hexpr.ne_nil rfl
    exact ⟨List.suffix_append read rest, by simpa using hne, hends, hexpr.paired⟩

/-- The tokens of `f(3 -1))`, where nothing is open at the last `)`. -/
def unmatchedTokens : List Token :=
  [⟨.symbol "f", 1⟩, ⟨.openParen, 2⟩, ⟨.number "3", 3⟩, ⟨.number "-1", 5⟩, ⟨.closeParen, 7⟩,
    ⟨.closeParen, 8⟩]

theorem unmatchedTokens_readChain_exits :
    (readChain 1 unmatchedTokens =
        .ok (.call "f" [.chain [.number "3", .number "1"] [.sub]], [⟨.closeParen, 8⟩]) ∧
      [⟨.closeParen, 8⟩] <:+ unmatchedTokens ∧ [⟨.closeParen, 8⟩] ≠ unmatchedTokens ∧
      Reader.Ends [⟨.closeParen, 8⟩] ∧
      (Term.call "f" [.chain [.number "3", .number "1"] [.sub]]).Paired) ∧
    Descent.chain 1 [] = .error (.failed (.emptyExpression 1)) ∧
      ∃ e, Exit.failed (.emptyExpression 1) = .failed e := by
  have hread : readChain 1 unmatchedTokens =
      .ok (.call "f" [.chain [.number "3", .number "1"] [.sub]], [⟨.closeParen, 8⟩]) := rfl
  have hchain : Descent.chain 1 [] = .error (.failed (.emptyExpression 1)) := by
    rw [Descent.chain, Descent.links]
    rfl
  exact ⟨⟨hread, (readChain_exits 1 unmatchedTokens).2.2 _ _ hread⟩, hchain,
    (readChain_exits 1 []).2.1 _ (.inl hchain)⟩

end ChainCalc
