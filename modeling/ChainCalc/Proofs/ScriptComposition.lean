import ChainCalc.Proofs.StatementEffect
import ChainCalc.Script

/-!
# Scripts one after the other

A line feed between two scripts makes one script of them. It does what the first does and then, if
that has not failed, what the second does, whose lines have higher numbers
(`Session.runScript_append_newline`).

`lines` is taken apart at the line feeds: a text is one line without any, or a line, a line feed
and a further text (`lines_induction`). A line that is ended by a line feed may lose a carriage
return at its end, and a text that ends in a line feed has no line after it. Neither matters to a
script, since margins are trimmed and empty lines passed over (`Session.runLines_ended`).
-/

namespace ChainCalc

/-! ### Lines and margins -/

/-- Induction on the lines of a text, of which only the last one is not ended by a line feed. -/
@[elab_as_elim]
theorem lines_induction {motive : List Char → Prop} (last : ∀ l, '\n' ∉ l → motive l)
    (ended : ∀ l rest, '\n' ∉ l → motive rest → motive (l ++ '\n' :: rest)) (cs : List Char) :
    motive cs := by
  induction hn : cs.length using Nat.strongRecOn generalizing cs with
  | ind n ih =>
    by_cases h : '\n' ∈ cs
    · obtain ⟨l, rest, rfl, hl⟩ := List.eq_append_cons_of_mem h
      have hlt : rest.length < n := by
        rw [← hn, List.length_append, List.length_cons]
        omega
      exact ended l rest hl (ih rest.length hlt rest rfl)
    · exact last cs h

theorem lines_cons {c : Char} {cs : List Char} (hc : c ≠ '\n')
    (hcs : c = '\r' → cs.head? ≠ some '\n') :
    lines (c :: cs) = (c :: (lines cs).headD []) :: (lines cs).tail := by
  rw [lines]
  · cases lines cs <;> rfl
  · exact hc
  · rintro cs' hreturn rfl
    exact hcs hreturn rfl

theorem lines_of_notMem {l : List Char} (hl : '\n' ∉ l) (hne : l ≠ []) : lines l = [l] := by
  induction l with
  | nil => exact absurd rfl hne
  | cons c l ih =>
    obtain ⟨hc, hl⟩ := not_or.1 (mt List.mem_cons.2 hl)
    rw [lines_cons (Ne.symm hc) fun _ h => hl (List.mem_of_head? h)]
    cases l with
    | nil => rfl
    | cons d l => rw [ih hl (List.cons_ne_nil d l)]; rfl

/-- Up to its line feed a line is read as it stands, or without the carriage return at its end.
Whatever follows is split into lines by itself. -/
theorem exists_line_ended {l : List Char} (hl : '\n' ∉ l) :
    ∃ l', (l = l' ∨ l = l' ++ ['\r']) ∧ ∀ rest, lines (l ++ '\n' :: rest) = l' :: lines rest := by
  induction l with
  | nil => exact ⟨[], .inl rfl, fun _ => rfl⟩
  | cons c l ih =>
    obtain ⟨hc, hl⟩ := not_or.1 (mt List.mem_cons.2 hl)
    by_cases hreturn : c = '\r' ∧ l = []
    · obtain ⟨rfl, rfl⟩ := hreturn
      exact ⟨[], .inr rfl, fun _ => rfl⟩
    · obtain ⟨l', hl', hlines⟩ := ih hl
      refine ⟨c :: l', ?_, fun rest => ?_⟩
      · rcases hl' with rfl | rfl
        · exact .inl rfl
        · exact .inr rfl
      · have hnext : c = '\r' → (l ++ '\n' :: rest).head? ≠ some '\n' := by
          intro hc hnewline
          cases l with
          | nil => exact hreturn ⟨hc, rfl⟩
          | cons d l =>
            obtain rfl : d = '\n' := Option.some.inj hnewline
            exact hl List.mem_cons_self
        rw [List.cons_append, lines_cons (Ne.symm hc) hnext, hlines]
        rfl

theorem exists_lines_ended {l : List Char} (hl : '\n' ∉ l) (rest : List Char) :
    ∃ l', lines (l ++ '\n' :: rest) = l' :: lines rest ∧ (l = l' ∨ l = l' ++ ['\r']) := by
  obtain ⟨l', hl', hlines⟩ := exists_line_ended hl
  exact ⟨l', hlines rest, hl'⟩

theorem trim_append_blank {c : Char} (hc : isBlank c) (l : List Char) :
    trim (l ++ [c]) = trim l := by
  rw [trim, trim, List.dropWhile_append]
  split
  · rename_i hl
    simp [List.isEmpty_iff.1 hl, hc]
  · rw [List.reverse_append, List.reverse_singleton, List.singleton_append,
      List.dropWhile_cons_of_pos hc]

/-! ### A run and what is run after it -/

namespace ScriptRun

/-- What is run next, unless the run has failed. -/
def andThen (r : ScriptRun) (next : Session → ScriptRun) : ScriptRun :=
  match r.failure with
  | some _ => r
  | none => { next r.session with values := r.values ++ (next r.session).values }

/-- The same run with the line of a failure `k` further down. -/
def later (r : ScriptRun) (k : Nat) : ScriptRun :=
  { r with failure := r.failure.map fun e => { e with line := e.line + k } }

theorem andThen_assoc (r : ScriptRun) (f g : Session → ScriptRun) :
    (r.andThen f).andThen g = r.andThen fun s => (f s).andThen g := by
  obtain ⟨xs, failure, s⟩ := r
  cases failure with
  | some e => rfl
  | none =>
    rcases hf : f s with ⟨ys, _ | e, s'⟩
    · simp [andThen, hf]
    · simp [andThen, hf]

theorem andThen_of_error {r : ScriptRun} {e : ScriptError} (h : r.outcome = .error e)
    (next : Session → ScriptRun) : r.andThen next = r := by
  obtain ⟨xs, failure, s⟩ := r
  cases failure with
  | some => rfl
  | none => cases h

/-- The last value of all is the last of the later ones, if there are any. -/
theorem andThen_of_ok {r : ScriptRun} {x : Option Float} (h : r.outcome = .ok x)
    (next : Session → ScriptRun) :
    (r.andThen next).values = r.values ++ (next r.session).values ∧
      (r.andThen next).session = (next r.session).session ∧
      (r.andThen next).outcome = (next r.session).outcome.map (·.or x) := by
  obtain ⟨xs, failure, s⟩ := r
  cases failure with
  | some => cases h
  | none =>
    cases h
    refine ⟨rfl, rfl, ?_⟩
    rcases hnext : next s with ⟨ys, _ | e, s'⟩
    · simp [andThen, outcome, hnext, Except.map, List.getLast?_append]
    · simp [andThen, outcome, hnext, Except.map]

theorem outcome_later (r : ScriptRun) (k : Nat) :
    (r.later k).outcome = r.outcome.mapError fun e => ⟨e.line + k, e.cause⟩ := by
  obtain ⟨xs, failure, s⟩ := r
  cases failure <;> rfl

end ScriptRun

namespace Session

theorem runLines_cons (s : Session) (number : Nat) (line : List Char) (ls : List (List Char)) :
    s.runLines number (line :: ls) =
      (s.runLines number [line]).andThen fun s' => s'.runLines (number + 1) ls := by
  simp only [runLines]
  split
  · rfl
  · cases (s.run (String.ofList (trim line))).outcome with
    | error e => rfl
    | ok value => simp [ScriptRun.andThen]

theorem runLines_trim (s : Session) (number : Nat) {line line' : List Char}
    (h : trim line = trim line') : s.runLines number [line] = s.runLines number [line'] := by
  simp only [runLines, h]

theorem runLines_add (s : Session) (number k : Nat) (ls : List (List Char)) :
    s.runLines (number + k) ls = (s.runLines number ls).later k := by
  induction ls generalizing s number with
  | nil => rfl
  | cons line ls ih =>
    have hnext : number + k + 1 = number + 1 + k := by omega
    simp only [runLines]
    split
    · rw [hnext, ih]
    · cases (s.run (String.ofList (trim line))).outcome with
      | error e => rfl
      | ok value =>
        simp only [hnext, ih]
        rfl

/-- A line does the same with and without a line feed after it. -/
theorem runLines_ended (s : Session) (number : Nat) {l l' : List Char} (hl : '\n' ∉ l)
    (hl' : l = l' ∨ l = l' ++ ['\r']) :
    s.runLines number [l'] = s.runLines number (lines l) := by
  by_cases hne : l = []
  · rcases hl' with rfl | rfl
    · rw [hne]
      rfl
    · simp at hne
  · rw [lines_of_notMem hl hne]
    refine s.runLines_trim number ?_
    rcases hl' with rfl | rfl
    · rfl
    · exact (trim_append_blank (by decide) l').symm

theorem runLines_append_newline (s : Session) (number : Nat) (a b : List Char) :
    s.runLines number (lines (a ++ '\n' :: b)) =
      (s.runLines number (lines a)).andThen fun s' =>
        s'.runLines (number + (a.count '\n' + 1)) (lines b) := by
  induction a using lines_induction generalizing s number with
  | last l hl =>
    obtain ⟨l', hlines, hl'⟩ := exists_lines_ended hl b
    rw [hlines, runLines_cons, s.runLines_ended number hl hl', List.count_eq_zero.2 hl]
  | ended l rest hl ih =>
    obtain ⟨l', hlines, hl'⟩ := exists_lines_ended hl (rest ++ '\n' :: b)
    obtain ⟨l'', hlines', hl''⟩ := exists_lines_ended hl rest
    have hcount : (l ++ '\n' :: rest).count '\n' = rest.count '\n' + 1 := by
      rw [List.count_append, List.count_eq_zero.2 hl, List.count_cons_self, Nat.zero_add]
    have hnumber : ∀ n, number + 1 + n = number + (n + 1) := fun n => by omega
    rw [List.append_assoc, List.cons_append, hlines, hlines', runLines_cons,
      s.runLines_cons number l'', s.runLines_ended number hl hl', s.runLines_ended number hl hl'',
      ScriptRun.andThen_assoc, hcount]
    simp only [ih, hnumber]

theorem runScript_append (s : Session) (a b : String) :
    s.runScript (a ++ "\n" ++ b) =
      (s.runScript a).andThen fun s' => (s'.runScript b).later (a.toList.count '\n' + 1) := by
  have htext : (a ++ "\n" ++ b).toList = a.toList ++ '\n' :: b.toList := by simp
  rw [runScript, htext, runLines_append_newline]
  simp only [runLines_add]
  rfl

/-- Two scripts with a line feed between them do what the first does, and then what the second does
in the session that the first has left. If the first fails, that is all; if the second fails, its
line is counted from the start of the first. The value is that of the second, or of the first if the
second has none. -/
theorem runScript_append_newline (s : Session) (a b : String) :
    let first := s.runScript a
    let second := first.session.runScript b
    let whole := s.runScript (a ++ "\n" ++ b)
    match first.outcome with
    | .error e =>
      whole.outcome = .error e ∧ whole.values = first.values ∧ whole.session = first.session
    | .ok x =>
      whole.values = first.values ++ second.values ∧ whole.session = second.session ∧
        whole.outcome = match second.outcome with
          | .ok y => .ok (y.or x)
          | .error e => .error ⟨e.line + (a.toList.count '\n' + 1), e.cause⟩ := by
  intro first second whole
  have hwhole : whole = first.andThen _ := s.runScript_append a b
  rw [hwhole]
  cases hfirst : first.outcome with
  | error e =>
    rw [ScriptRun.andThen_of_error hfirst]
    exact ⟨hfirst, rfl, rfl⟩
  | ok x =>
    obtain ⟨hvalues, hsession, hout⟩ := ScriptRun.andThen_of_ok hfirst fun s' =>
      (s'.runScript b).later (a.toList.count '\n' + 1)
    refine ⟨hvalues, hsession, ?_⟩
    rw [hout, ScriptRun.outcome_later]
    cases second.outcome with
    | ok y => rfl
    | error e => rfl

/-- The session after `x = 1.5`. -/
def halved : Session := ⟨⟨(∅ : Variables).insert "x" 1.5, ∅⟩, { limit := 1 }⟩

/-- The second script fails on its line 2, which is line 4 of the whole. -/
theorem shifted_runScript_append_newline :
    let first := (new 1).runScript "x = 1.5\n# half"
    let whole := (new 1).runScript ("x = 1.5\n# half" ++ "\n" ++ "x\nx +")
    first.outcome = .ok (some 1.5) ∧
      (first.session.runScript "x\nx +").outcome =
        .error ⟨2, .parse (.danglingOperator .add 3)⟩ ∧
      whole.outcome = .error ⟨4, .parse (.danglingOperator .add 3)⟩ ∧
      whole.values = [1.5, 1.5] := by
  have hassign : parse (tokenize "x = 1.5") = .ok (.assign "x" (.number "1.5")) :=
    parse_tokenize_eq_ok_iff.2 (.assign "x" (.expression (.lone (.number "1.5"))))
  have hvar : parse (tokenize "x") = .ok (.var "x") :=
    parse_tokenize_eq_ok_iff.2 (.expression (.lone (.var "x")))
  have hdangling : parse (tokenize "x +") = .error (.danglingOperator .add 3) := by
    rw [parse, readStatement_of_expression rfl]
    rfl
  have hrun : ((new 1).run "x = 1.5").outcome = .ok (some 1.5) ∧
      ((new 1).run "x = 1.5").session = halved := run_of_runOn hassign rfl
  have hread : (halved.run "x").outcome = .ok (some 1.5) ∧ (halved.run "x").session = halved :=
    run_of_runOn hvar rfl
  have hfirst : (new 1).runScript "x = 1.5\n# half" = ⟨[1.5], none, halved⟩ := by
    have htrim : String.ofList (trim "x = 1.5".toList) = "x = 1.5" := rfl
    have hidle : isIdleLine (trim "x = 1.5".toList) = false := rfl
    show (new 1).runLines 1 ["x = 1.5".toList, "# half".toList] = _
    simp only [runLines, htrim, hidle, hrun]
    rfl
  have hsecond : halved.runScript "x\nx +" =
      ⟨[1.5], some ⟨2, .parse (.danglingOperator .add 3)⟩, halved⟩ := by
    have htrim : String.ofList (trim "x".toList) = "x" := rfl
    have htrim' : String.ofList (trim "x +".toList) = "x +" := rfl
    have hidle : isIdleLine (trim "x".toList) = false := rfl
    have hidle' : isIdleLine (trim "x +".toList) = false := rfl
    show halved.runLines 1 ["x".toList, "x +".toList] = _
    simp only [runLines, htrim, htrim', hidle, hidle', hread, run_of_parse_error hdangling]
    rfl
  have hwhole := runScript_append_newline (new 1) "x = 1.5\n# half" "x\nx +"
  simp only [hfirst, hsecond] at hwhole ⊢
  obtain ⟨hvalues, -, houtcome⟩ := hwhole
  exact ⟨rfl, rfl, houtcome, hvalues⟩

end Session

end ChainCalc
