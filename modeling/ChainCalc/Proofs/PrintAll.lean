import ChainCalc.Proofs.PeekOutput

/-!
# Printing all values or the last one

Whether `eval` prints every value or only the last one makes no difference to how the script runs:
exit code and errors are the same, and a script that succeeds prints the last line of what it would
print otherwise. If it fails, all that has been printed is what the lines before the failure print
(`Report.printAll_changes_only_output`).

To print only the last value it is enough to remember the latest one while the script runs, and to
print it once the run is over (`Session.latestValue_eq`, `Report.eval_eq_evalLatest`).
-/

namespace ChainCalc

/-! ### The first lines of a text -/

/-- A text up to the end of its `n`th line, with the line feed there. -/
def firstLines : Nat → List Char → List Char
  | 0, _ => []
  | _ + 1, [] => []
  | n + 1, c :: cs => c :: if c = '\n' then firstLines n cs else firstLines (n + 1) cs

section

variable {l : List Char}

theorem firstLines_zero (cs : List Char) : firstLines 0 cs = [] := by
  cases cs <;> rfl

theorem firstLines_isPrefix (n : Nat) (cs : List Char) : firstLines n cs <+: cs := by
  induction cs generalizing n with
  | nil => cases n <;> exact List.nil_prefix
  | cons c cs ih =>
    cases n with
    | zero => exact List.nil_prefix
    | succ n =>
      rw [firstLines, List.cons_prefix_cons]
      split
      · exact ⟨rfl, ih n⟩
      · exact ⟨rfl, ih (n + 1)⟩

theorem firstLines_of_notMem (hl : '\n' ∉ l) (n : Nat) : firstLines (n + 1) l = l := by
  induction l with
  | nil => rfl
  | cons c l ih =>
    obtain ⟨hc, hl⟩ := not_or.1 (mt List.mem_cons.2 hl)
    rw [firstLines, if_neg (Ne.symm hc), ih hl]

theorem firstLines_ended (hl : '\n' ∉ l) (n : Nat) (rest : List Char) :
    firstLines (n + 1) (l ++ '\n' :: rest) = l ++ '\n' :: firstLines n rest := by
  induction l with
  | nil => rfl
  | cons c l ih =>
    obtain ⟨hc, hl⟩ := not_or.1 (mt List.mem_cons.2 hl)
    rw [List.cons_append, firstLines, if_neg (Ne.symm hc), ih hl]
    rfl

theorem lines_firstLines (n : Nat) (cs : List Char) :
    lines (firstLines n cs) = (lines cs).take n := by
  induction cs using lines_induction generalizing n with
  | last l hl =>
    cases n with
    | zero => rw [firstLines_zero, List.take_zero, lines]
    | succ n =>
      rw [firstLines_of_notMem hl, List.take_of_length_le]
      by_cases hne : l = []
      · rw [hne]
        exact Nat.zero_le _
      · rw [lines_of_notMem hl hne]
        exact Nat.le_add_left 1 n
  | ended l rest hl ih =>
    cases n with
    | zero => rw [firstLines_zero, List.take_zero, lines]
    | succ n =>
      obtain ⟨l', -, hlines⟩ := exists_line_ended hl
      rw [firstLines_ended hl, hlines, hlines, ih, List.take_succ_cons]

end

/-! ### Results as lines -/

section

variable {c : Char}

theorem Decimal.mem_positional {d : Decimal} {pointZero : Bool} (h : c ∈ d.positional pointZero) :
    c ∈ d.digits ∨ c = '0' ∨ c = '.' := by
  simp only [positional] at h
  split at h
  · simp only [List.cons_append, List.mem_cons, List.mem_append, List.mem_replicate] at h
    tauto
  · split at h
    · simp only [List.mem_append, List.mem_cons] at h
      rcases h with h | h | h
      · exact .inl (List.mem_of_mem_take h)
      · exact .inr (.inr h)
      · exact .inl (List.mem_of_mem_drop h)
    · simp only [List.append_assoc, List.mem_append, List.mem_replicate] at h
      rcases h with h | h | h
      · exact .inl h
      · exact .inr (.inl h.2)
      · split at h
        · exact .inr (by simpa [or_comm] using h)
        · cases h

/-- Nothing but digits stands in a shortest decimal. -/
theorem Decimal.isDigit_of_mem_shortest {b : Binary} (h : c ∈ (shortest b).digits) : c.isDigit := by
  simp only [shortest, ofNat, List.mem_reverse] at h
  have hdigits := List.mem_reverse.1 (List.dropWhile_subset _ h)
  exact Nat.isDigit_of_mem_toDigits (by decide) (by decide) hdigits

theorem Number.not_isBlank_of_mem_write {d : Decimal} (hd : ∀ c ∈ d.digits, c.isDigit)
    (h : c ∈ resultLayout.write d) : ¬ isBlank c := by
  rcases Decimal.mem_positional h with h | rfl | rfl
  · exact not_isBlank_of_isDigit (hd c h)
  · decide
  · decide

theorem Number.not_isBlank_of_mem_text {x : Float} (h : c ∈ (text x).toList) : ¬ isBlank c := by
  have hsigned : ∀ {p : Prop} [Decidable p] {cs : List Char}, (c ∈ cs → ¬ isBlank c) →
      c ∈ (String.ofList ((if p then ['-'] else []) ++ cs)).toList → ¬ isBlank c := by
    intro p _ cs hcs hc
    rw [String.toList_ofList] at hc
    rcases List.mem_append.1 hc with hc | hc
    · split at hc
      · rw [List.mem_singleton.1 hc]
        decide
      · cases hc
    · exact hcs hc
  simp only [text, Layout.text] at h
  split at h
  · split at h
    · refine hsigned (fun hinf => ?_) h
      fin_cases hinf <;> decide
    · have hnan : c ∈ ['N', 'a', 'N'] := h
      fin_cases hnan <;> decide
  · split at h
    · exact hsigned (not_isBlank_of_mem_write (List.forall_mem_singleton.2 (by decide))) h
    · exact hsigned (not_isBlank_of_mem_write fun _ => Decimal.isDigit_of_mem_shortest) h

end

/-- Each value is printed on a line of its own. -/
theorem Report.lines_ofLines_text (values : List Float) :
    lines (ofLines (values.map Number.text)).toList =
      values.map fun x => (Number.text x).toList := by
  rw [toList_ofLines, List.map_map]
  refine lines_unlines ?_
  rw [List.forall_mem_map]
  intro x _
  exact ⟨fun h => Number.not_isBlank_of_mem_text h (by decide),
    fun h => Number.not_isBlank_of_mem_text h (by decide)⟩

/-- The last value is printed on the last line. -/
theorem Report.toList_ofLines_getLast? (values : List Float) :
    (ofLines (values.getLast?.toList.map Number.text)).toList =
      unlines (lines (ofLines (values.map Number.text)).toList).getLast?.toList := by
  rw [lines_ofLines_text, toList_ofLines, List.getLast?_map]
  cases values.getLast? <;> rfl

/-! ### The latest value -/

namespace Session

/-- Runs lines like `runLines`, but remembers only the latest value; `latest` is that of the lines
before. -/
def latestValue (s : Session) (number : Nat) (latest : Option Float) :
    List (List Char) → Except ScriptError (Option Float)
  | [] => .ok latest
  | line :: lines =>
    let statement := trim line
    if isIdleLine statement then s.latestValue (number + 1) latest lines
    else
      let first := s.run (String.ofList statement)
      match first.outcome with
      | .error e => .error ⟨number, e⟩
      | .ok value => first.session.latestValue (number + 1) (value.or latest) lines

theorem latestValue_eq (s : Session) (number : Nat) (latest : Option Float)
    (ls : List (List Char)) :
    s.latestValue number latest ls = (s.runLines number ls).outcome.map (·.or latest) := by
  induction ls generalizing s number latest with
  | nil => rfl
  | cons line ls ih =>
    simp only [latestValue, runLines]
    split
    · exact ih s (number + 1) latest
    · cases hfirst : (s.run (String.ofList (trim line))).outcome with
      | error e => rfl
      | ok value =>
        -- the run of this line, to which the others are added
        let one : ScriptRun := ⟨value.toList, none, (s.run (String.ofList (trim line))).session⟩
        have hone : one.outcome = .ok value := by
          cases value <;> rfl
        have hall := (ScriptRun.andThen_of_ok hone fun s' => s'.runLines (number + 1) ls).2.2
        simp only [ih]
        refine Eq.trans ?_ (congrArg (Except.map (·.or latest)) hall.symm)
        cases (one.session.runLines (number + 1) ls).outcome with
        | error e => rfl
        | ok x => exact congrArg Except.ok Option.or_assoc.symm

/-- What a script has done before it fails is what its lines before the failure do. -/
theorem runLines_take_of_failure {s : Session} {number : Nat} {ls : List (List Char)}
    {e : ScriptError} (h : (s.runLines number ls).failure = some e) :
    number ≤ e.line ∧ (s.runLines number (ls.take (e.line - number))).failure = none ∧
      (s.runLines number (ls.take (e.line - number))).values = (s.runLines number ls).values := by
  induction ls generalizing s number with
  | nil => cases h
  | cons line ls ih =>
    -- the lines before the failure start with this one, unless it fails itself
    have hnext : ∀ {s' : Session}, (s'.runLines (number + 1) ls).failure = some e →
        number + 1 ≤ e.line ∧ (line :: ls).take (e.line - number) =
          line :: ls.take (e.line - (number + 1)) := by
      intro s' h
      have hle := (ih h).1
      have hlater : e.line - number = e.line - (number + 1) + 1 := by omega
      exact ⟨hle, by rw [hlater, List.take_succ_cons]⟩
    simp only [runLines] at h ⊢
    split at h
    · rename_i hidle
      obtain ⟨hle, htake⟩ := hnext h
      simp only [htake, runLines, if_pos hidle]
      exact ⟨Nat.le_of_succ_le hle, (ih h).2⟩
    · rename_i hidle
      cases hfirst : (s.run (String.ofList (trim line))).outcome with
      | error cause =>
        simp only [hfirst] at h ⊢
        obtain rfl : ScriptError.mk number cause = e := Option.some.inj h
        simp [hidle, runLines]
      | ok value =>
        simp only [hfirst] at h ⊢
        obtain ⟨hle, htake⟩ := hnext h
        obtain ⟨-, hfailure, hvalues⟩ := ih h
        simp only [htake, runLines, if_neg hidle, hfirst, hfailure, hvalues, and_true]
        exact Nat.le_of_succ_le hle

end Session

namespace Report

/-- Runs a script and remembers the latest value, which is printed if no statement has failed. -/
def evalLatest (script : String) (limit : Nat) : Report :=
  match (Session.new limit).latestValue 1 none (lines script.toList) with
  | .ok value => ofOutcome (value.toList.map Number.text) none
  | .error e => ofOutcome [] (some e.message)

section

variable {script : String} {limit : Nat}

theorem eval_of_success (h : ((Session.new limit).runScript script).failure = none) :
    let values := ((Session.new limit).runScript script).values
    eval script true limit = ⟨0, ofLines (values.map Number.text), ""⟩ ∧
      eval script false limit = ⟨0, ofLines (values.getLast?.toList.map Number.text), ""⟩ := by
  simp only [eval, ScriptRun.outcome, h]
  exact ⟨rfl, rfl⟩

theorem eval_of_failure {e : ScriptError}
    (h : ((Session.new limit).runScript script).failure = some e) :
    let values := ((Session.new limit).runScript script).values
    eval script true limit = ⟨1, ofLines (values.map Number.text), ofLines [e.message]⟩ ∧
      eval script false limit = ⟨1, "", ofLines [e.message]⟩ := by
  simp only [eval, ScriptRun.outcome, h]
  exact ⟨rfl, rfl⟩

/-- The lines before the one that fails succeed and print the same. -/
theorem eval_firstLines_of_failure {e : ScriptError}
    (h : ((Session.new limit).runScript script).failure = some e) :
    eval (String.ofList (firstLines (e.line - 1) script.toList)) true limit =
      ⟨0, ofLines (((Session.new limit).runScript script).values.map Number.text), ""⟩ := by
  obtain ⟨-, hfailure, hvalues⟩ := Session.runLines_take_of_failure h
  have hcut : (Session.new limit).runScript
      (String.ofList (firstLines (e.line - 1) script.toList)) =
        (Session.new limit).runLines 1 ((lines script.toList).take (e.line - 1)) := by
    rw [Session.runScript, String.toList_ofList, lines_firstLines]
  rw [← hcut] at hfailure hvalues
  rw [(eval_of_success hfailure).1, hvalues, Session.runScript]

end

theorem eval_eq_evalLatest (script : String) (limit : Nat) :
    eval script false limit = evalLatest script limit := by
  have hlatest : (Session.new limit).latestValue 1 none (lines script.toList) =
      ((Session.new limit).runScript script).outcome.map (·.or none) :=
    (Session.new limit).latestValue_eq 1 none (lines script.toList)
  rw [evalLatest, hlatest, ScriptRun.outcome]
  cases hrun : ((Session.new limit).runScript script).failure with
  | none =>
    rw [(eval_of_success hrun).2]
    simp only [Except.map, Option.or_none]
    rfl
  | some e =>
    rw [(eval_of_failure hrun).2]
    rfl

/-- The exit code and the errors are the same whether every value is printed or only the last one,
and remembering the latest value is enough for the second. If the script succeeds, then only the
last of the lines is printed that are printed otherwise. If it fails on some line, then nothing is
printed, or else what the lines before that one print, which succeed by themselves. -/
theorem printAll_changes_only_output (script : String) (limit : Nat) :
    (eval script false limit).code = (eval script true limit).code ∧
      (eval script false limit).errors = (eval script true limit).errors ∧
      eval script false limit = evalLatest script limit ∧
      match ((Session.new limit).runScript script).failure with
      | none => (eval script true limit).code = 0 ∧
          (eval script false limit).output.toList =
            unlines (lines (eval script true limit).output.toList).getLast?.toList
      | some e => (eval script true limit).code = 1 ∧
          (eval script true limit).errors = ofLines [e.message] ∧
          (eval script false limit).output = "" ∧
          ∃ cut : String, cut.toList <+: script.toList ∧
            lines cut.toList = (lines script.toList).take (e.line - 1) ∧
            eval cut true limit = ⟨0, (eval script true limit).output, ""⟩ := by
  have hlatest := eval_eq_evalLatest script limit
  cases hrun : ((Session.new limit).runScript script).failure with
  | none =>
    obtain ⟨hall, hplain⟩ := eval_of_success hrun
    rw [hall, ← hlatest, hplain]
    exact ⟨rfl, rfl, rfl, rfl, toList_ofLines_getLast? _⟩
  | some e =>
    obtain ⟨hall, hplain⟩ := eval_of_failure hrun
    rw [hall, ← hlatest, hplain]
    refine ⟨rfl, rfl, rfl, rfl, rfl, rfl, _, ?_, ?_, eval_firstLines_of_failure hrun⟩
    · rw [String.toList_ofList]
      exact firstLines_isPrefix _ _
    · rw [String.toList_ofList]
      exact lines_firstLines _ _

end Report

end ChainCalc
