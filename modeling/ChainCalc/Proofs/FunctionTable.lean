import ChainCalc.Proofs.StatementEffect
import ChainCalc.Script

/-!
# The table of functions

A term changes the table only if it is itself a declaration; what is declared further inside is
never carried out (`Evaluator.evaluate_declares_only_at_root`). So over a whole history of
statements, scripts and variables set from outside, the table holds for each name what its latest
declaration made, with the variables of that moment (`Session.functions_are_latest_snapshots`).

A history is taken apart into the statements that were run, each with the session just before it.
`Session.Reaches` ties them together: each statement starts on the session that the ones before it
have left. What holds along `Reaches` follows from what one statement does, which is
`Session.run_effect`.

As each function of the table was read from a text, it can be written as one, and that text declares
the same function again (`Session.run_render_restores_function`).
-/

namespace ChainCalc

open EvalM Grammar

/-! ### Declarations at the root -/

namespace Evaluator

/-- Only a declaration at the root of a term is carried out: any other term leaves the functions as
they were, whether it fails or not. Only such a declaration succeeds without a value, so what is
run for its value never does. -/
theorem evaluate_declares_only_at_root (e : Evaluator) (env : Environment) (t : Term) :
    (¬ t.isDeclaration → (e.evaluate env t).environment.functions = env.functions) ∧
      ((e.evaluate env t).outcome = .ok none ↔ t.isDeclaration) ∧
      ∀ (u : Term) (budget : Nat) (m : Machine), u.hasValue →
        (runOn (u.eval e.limit budget) m).1 ≠ .ok none := by
  refine ⟨fun ht => ?_, ⟨fun hnone => ?_, fun ht => ?_⟩, fun u budget m hu => ?_⟩
  · have hkeeps := Term.keeps_calls (Term.keeps_callRule e.limit (e.limit - e.depth)) ht
    rw [Session.evaluate_eq ⟨env, e⟩]
    exact congrArg Prod.fst (hkeeps (Session.machine ⟨env, e⟩))
  · by_cases ht : t.isDeclaration
    · exact ht
    · exact absurd hnone (Term.runOn_eval_ne_ok_none _ _ ht (Session.machine ⟨env, e⟩))
  · cases t with
    | declare name params body =>
      rw [Session.evaluate_eq ⟨env, e⟩]
      rfl
    | number | var | call | assign | chain => cases ht
  · exact Term.runOn_eval_ne_ok_none _ _ (Term.not_isDeclaration_of_hasValue hu) m

/-- Here a call of `f` would declare `g`. -/
def declaring : Environment :=
  Environment.setFunction {} "f" ⟨["x"], .assign "y" (.declare "g" [] (.var "x")), ∅⟩

theorem declaring_evaluate_declares_only_at_root :
    (evaluate {} declaring (.call "f" [.number "1"])).outcome =
        .error (.missingValue "y = g() = x") ∧
      (evaluate {} declaring (.call "f" [.number "1"])).environment.functions =
        declaring.functions ∧
      (evaluate {} declaring (.call "f" [.declare "g" [] (.number "1")])).outcome ≠ .ok none := by
  refine ⟨rfl, ?_, ?_⟩
  · exact (evaluate_declares_only_at_root {} declaring _).1 (by decide)
  · exact fun h => absurd ((evaluate_declares_only_at_root {} declaring _).2.1.1 h) (by decide)

end Evaluator

/-! ### Histories -/

/-- What can be asked of a session. -/
inductive Operation
  | run (source : String)
  | script (source : String)
  | set (name : String) (value : Float)

/-- A statement that was run, and the session just before. -/
structure Execution where
  before : Session
  source : String

namespace Execution

def result (x : Execution) : StatementRun := x.before.run x.source

/-- The statement declares `f` and succeeds. -/
def Declares (x : Execution) (f : String) (params : List String) (body : Term) : Prop :=
  (∃ r, x.result.outcome = .ok r) ∧ parse (tokenize x.source) = .ok (.declare f params body)

/-- What the statement puts into the table under the name `f`. -/
def declared? (x : Execution) (f : String) : Option Closure :=
  match x.result.outcome, parse (tokenize x.source) with
  | .ok _, .ok (.declare name params body) =>
    if f = name then some ⟨params, body, x.before.environment.vars⟩ else none
  | _, _ => none

theorem declared?_eq_some_iff {x : Execution} {f : String} {c : Closure} :
    x.declared? f = some c ↔
      x.Declares f c.params c.body ∧ c.captured = x.before.environment.vars := by
  unfold declared? Declares
  constructor
  · intro h
    split at h
    · rename_i r name params body hout hparse
      split at h
      · rename_i hname
        cases h
        exact ⟨⟨⟨r, hout⟩, by rw [hparse, hname]⟩, rfl⟩
      · cases h
    · cases h
  · rintro ⟨⟨⟨r, hout⟩, hparse⟩, hcaptured⟩
    rw [hout, hparse]
    simp [← hcaptured]

theorem declared?_eq_none_iff {x : Execution} {f : String} :
    x.declared? f = none ↔ ∀ params body, ¬ x.Declares f params body := by
  rw [Option.eq_none_iff_forall_ne_some]
  constructor
  · intro h params body hx
    exact h ⟨params, body, x.before.environment.vars⟩ (declared?_eq_some_iff.2 ⟨hx, rfl⟩)
  · intro h c hc
    exact h c.params c.body (declared?_eq_some_iff.1 hc).1

end Execution

namespace Session

/-- The session after an operation. -/
def perform (s : Session) : Operation → Session
  | .run source => (s.run source).session
  | .script source => (s.runScript source).session
  | .set name x => { s with environment := s.environment.setVariable name x }

def performAll (s : Session) (ops : List Operation) : Session := ops.foldl perform s

/-- The statements that a script gets to: those up to the first one that fails. -/
def executedLines (s : Session) : List (List Char) → List Execution
  | [] => []
  | line :: lines =>
    if isIdleLine (trim line) then s.executedLines lines
    else
      let x : Execution := ⟨s, String.ofList (trim line)⟩
      match x.result.outcome with
      | .error _ => [x]
      | .ok _ => x :: x.result.session.executedLines lines

def executed (s : Session) : Operation → List Execution
  | .run source => [⟨s, source⟩]
  | .script source => s.executedLines (lines source.toList)
  | .set .. => []

/-- All statements that are run in the course of some operations, in order. -/
def history (s : Session) : List Operation → List Execution
  | [] => []
  | op :: ops => s.executed op ++ (s.perform op).history ops

/-- The executions follow one another from `s` to `s'`, with variables set in between. -/
inductive Reaches : Session → List Execution → Session → Prop
  | refl (s : Session) : Reaches s [] s
  | run {s s' : Session} {xs : List Execution} (source : String)
      (h : Reaches (s.run source).session xs s') : Reaches s (⟨s, source⟩ :: xs) s'
  | set {s s' : Session} {xs : List Execution} (name : String) (x : Float)
      (h : Reaches { s with environment := s.environment.setVariable name x } xs s') :
      Reaches s xs s'

namespace Reaches

variable {s s' s'' : Session} {xs ys : List Execution}

theorem append (h : s.Reaches xs s') (h' : s'.Reaches ys s'') : s.Reaches (xs ++ ys) s'' := by
  induction h with
  | refl => exact h'
  | run source _ ih => exact .run source (ih h')
  | set name x _ ih => exact .set name x (ih h')

end Reaches

theorem reaches_runLines (s : Session) (number : Nat) (lines : List (List Char)) :
    s.Reaches (s.executedLines lines) (s.runLines number lines).session := by
  induction lines generalizing s number with
  | nil => exact .refl s
  | cons line lines ih =>
    rw [executedLines, runLines]
    split
    · exact ih s (number + 1)
    · cases hout : (s.run (String.ofList (trim line))).outcome with
      | error e =>
        simp only [Execution.result, hout]
        exact .run _ (.refl _)
      | ok r =>
        simp only [Execution.result, hout]
        exact .run _ (ih _ (number + 1))

theorem reaches_perform (s : Session) (op : Operation) :
    s.Reaches (s.executed op) (s.perform op) := by
  cases op with
  | run source => exact .run source (.refl _)
  | script source => exact s.reaches_runLines 1 _
  | set name x => exact .set name x (.refl _)

theorem reaches_performAll (s : Session) (ops : List Operation) :
    s.Reaches (s.history ops) (s.performAll ops) := by
  induction ops generalizing s with
  | nil => exact .refl s
  | cons op ops ih => exact (s.reaches_perform op).append (ih (s.perform op))

/-- A statement changes the table only under the name that it declares. -/
theorem getElem?_functions_run (s : Session) (source f : String) :
    (s.run source).session.environment.functions[f]? =
      ((Execution.mk s source).declared? f).or s.environment.functions[f]? := by
  have heffect := s.run_effect source
  simp only [Execution.declared?, Execution.result]
  generalize (s.run source).outcome = r, (s.run source).session = s' at heffect ⊢
  cases heffect with
  | failed e => rfl
  | @declared name params body hparse =>
    rw [hparse, Environment.getElem?_functions_setFunction]
    by_cases hf : f = name <;> simp [hf]
  | @valued t x hparse hcore hx =>
    rw [hparse, Environment.functions_setAll]
    cases t with
    | declare => cases hcore
    | number | var | call | assign | chain => rfl

theorem evaluator_run (s : Session) (source : String) :
    (s.run source).session.evaluator = s.evaluator := by
  have heffect := s.run_effect source
  generalize (s.run source).outcome = r, (s.run source).session = s' at heffect ⊢
  cases heffect <;> rfl

namespace Reaches

variable {s s' : Session} {xs : List Execution}

/-- Under each name stands what the latest declaration put there. -/
theorem getElem?_functions (h : s.Reaches xs s') (f : String) :
    s'.environment.functions[f]? =
      (xs.reverse.findSome? (·.declared? f)).or s.environment.functions[f]? := by
  induction h with
  | refl => rfl
  | @run s s' xs source h ih =>
    rw [ih, getElem?_functions_run, List.reverse_cons, List.findSome?_append, Option.or_assoc]
    simp
  | set name x h ih => exact ih

theorem evaluator_eq (h : s.Reaches xs s') : s'.evaluator = s.evaluator := by
  induction h with
  | refl => rfl
  | run source h ih => rw [ih, evaluator_run]
  | set name x h ih => exact ih

end Reaches

theorem getElem?_functions_performAll (limit : Nat) (ops : List Operation) (f : String) :
    ((new limit).performAll ops).environment.functions[f]? =
      ((new limit).history ops).reverse.findSome? (·.declared? f) := by
  rw [((new limit).reaches_performAll ops).getElem?_functions]
  exact Option.or_none

/-- Whatever has been asked of a session, a function is there exactly if a statement has declared
it. It is the one that the latest such statement made, with the variables as they were just before
that statement. -/
theorem functions_are_latest_snapshots (limit : Nat) (ops : List Operation) (f : String) :
    (f ∈ ((new limit).performAll ops).environment.functions ↔
        ∃ x ∈ (new limit).history ops, ∃ params body, x.Declares f params body) ∧
      ∀ c, ((new limit).performAll ops).environment.functions[f]? = some c ↔
        ∃ earlier x later, (new limit).history ops = earlier ++ x :: later ∧
          x.Declares f c.params c.body ∧ c.captured = x.before.environment.vars ∧
          ∀ y ∈ later, ∀ params body, ¬ y.Declares f params body := by
  have hlookup := getElem?_functions_performAll limit ops f
  refine ⟨?_, fun c => ?_⟩
  · rw [Std.ExtTreeMap.mem_iff_isSome_getElem?, hlookup, List.isSome_findSome?]
    simp only [List.any_reverse, List.any_eq_true]
    refine exists_congr fun x => and_congr_right fun _ => ?_
    rw [← Option.ne_none_iff_isSome, Ne, Execution.declared?_eq_none_iff]
    simp only [Classical.not_forall, Classical.not_not]
  · rw [hlookup, List.findSome?_eq_some_iff]
    constructor
    · rintro ⟨later, x, earlier, hsplit, hx, hlater⟩
      obtain ⟨hdeclares, hcaptured⟩ := Execution.declared?_eq_some_iff.1 hx
      refine ⟨earlier.reverse, x, later.reverse, ?_, hdeclares, hcaptured, fun y hy => ?_⟩
      · simpa using congrArg List.reverse hsplit
      · exact Execution.declared?_eq_none_iff.1 (hlater y (List.mem_reverse.1 hy))
    · rintro ⟨earlier, x, later, hsplit, hdeclares, hcaptured, hlater⟩
      refine ⟨later.reverse, x, earlier.reverse, ?_,
        Execution.declared?_eq_some_iff.2 ⟨hdeclares, hcaptured⟩, fun y hy => ?_⟩
      · simp [hsplit]
      · exact Execution.declared?_eq_none_iff.2 (hlater y (List.mem_reverse.1 hy))

/-- A function is declared, declared again, and not changed by a third attempt, which fails. -/
def redeclaring : List Operation :=
  [.run "f(x) = x", .set "k" 2.5, .run "f(a) = a * k", .set "k" 3.5, .run "f(1) = 2"]

theorem redeclaring_functions_are_latest_snapshots :
    let product : Term := .chain [.var "a", .var "k"] [.mul]
    ∃ x y z, (new 1).history redeclaring = [x, y, z] ∧ x.Declares "f" ["x"] (.var "x") ∧
      y.Declares "f" ["a"] product ∧ (∀ params body, ¬ z.Declares "f" params body) ∧
      "f" ∈ ((new 1).performAll redeclaring).environment.functions ∧
      ((new 1).performAll redeclaring).environment.functions["f"]? =
        some ⟨["a"], product, (∅ : Variables).insert "k" 2.5⟩ := by
  intro product
  have hparam : ∀ name, ∀ p ∈ [.symbol name, .closeParen], IsParameter p := by
    simp [IsParameter]
  have hproduct := Expression.chain (.var "a") (.link .mul (.var "k") .nil) (by simp)
  have hfirst : parse (tokenize "f(x) = x") = .ok (.declare "f" ["x"] (.var "x")) :=
    parse_tokenize_eq_ok_iff.2 (.declare "f" (hparam "x") (.expression (.lone (.var "x"))))
  have hsecond : parse (tokenize "f(a) = a * k") = .ok (.declare "f" ["a"] product) :=
    parse_tokenize_eq_ok_iff.2 (.declare "f" (hparam "a") (.expression hproduct))
  have hthird : parse (tokenize "f(1) = 2") = .error (.invalidDeclaration ⟨.number "1", 3⟩) := by
    have htokens : tokenize "f(1) = 2" = [⟨.symbol "f", 1⟩, ⟨.openParen, 2⟩, ⟨.number "1", 3⟩,
      ⟨.closeParen, 4⟩, ⟨.equals, 6⟩, ⟨.number "2", 8⟩] := rfl
    rw [htokens, parse, readStatement_of_malformed rfl]
  let x : Execution := ⟨new 1, "f(x) = x"⟩
  let y : Execution := ⟨(new 1).performAll (redeclaring.take 2), "f(a) = a * k"⟩
  let z : Execution := ⟨(new 1).performAll (redeclaring.take 4), "f(1) = 2"⟩
  have hhistory : (new 1).history redeclaring = [x, y, z] := rfl
  have hx : x.Declares "f" ["x"] (.var "x") := ⟨⟨none, (run_of_declaration hfirst).1⟩, hfirst⟩
  have hy : y.Declares "f" ["a"] product := ⟨⟨none, (run_of_declaration hsecond).1⟩, hsecond⟩
  have hz : ∀ params body, ¬ z.Declares "f" params body := by
    rintro params body ⟨-, hparse⟩
    cases hthird.symm.trans hparse
  have hcaptured : y.before.environment.vars = (∅ : Variables).insert "k" 2.5 := by
    show (((new 1).run "f(x) = x").session.environment.setVariable "k" 2.5).vars = _
    rw [(run_of_declaration hfirst).2]
    rfl
  obtain ⟨hmem, hlookup⟩ := functions_are_latest_snapshots 1 redeclaring "f"
  refine ⟨x, y, z, hhistory, hx, hy, hz, hmem.2 ⟨y, by simp [hhistory], _, _, hy⟩, ?_⟩
  exact (hlookup _).2 ⟨[x], y, [z], hhistory, hy, hcaptured.symm, by simpa using hz⟩

/-! ### Functions as texts -/

/-- Each function of the table was read from a text, with its name. -/
theorem canonical_declaration {limit : Nat} {ops : List Operation} {name : String} {f : Closure}
    (h : ((new limit).performAll ops).environment.functions[name]? = some f) :
    (Term.declare name f.params f.body).CanonicalStatement := by
  rw [getElem?_functions_performAll] at h
  obtain ⟨x, -, hx⟩ := List.exists_of_findSome?_eq_some h
  obtain ⟨⟨-, hparse⟩, -⟩ := Execution.declared?_eq_some_iff.1 hx
  exact canonical_of_parse_tokenize hparse

/-- A function can be saved as the text of its declaration. In any session with the variables that
it has captured, the text succeeds without a value, puts the very same function under its name, and
does nothing else. -/
theorem run_render_restores_function (limit : Nat) (ops : List Operation) {f : String} {c : Closure}
    (h : ((new limit).performAll ops).environment.functions[f]? = some c) (s : Session)
    (hvars : s.environment.vars = c.captured) :
    let saved := (Term.declare f c.params c.body).render
    (s.run saved).outcome = .ok none ∧
      (s.run saved).session.environment.functions[f]? = some c ∧
      (s.run saved).session = { s with environment := s.environment.setFunction f c } := by
  intro saved
  have hparse : parse (tokenize saved) = .ok (.declare f c.params c.body) :=
    (canonical_declaration h).parse_render
  obtain ⟨hout, hsession⟩ := run_of_declaration hparse (s := s)
  rw [hvars] at hsession
  refine ⟨hout, ?_, hsession⟩
  rw [hsession, Environment.getElem?_functions_setFunction, if_pos rfl]

/-- The parameters of `f` are written in a loose way, and its body reads `k`. -/
def scaledHistory : List Operation := [.run "k = 2.5", .run "f(a (b) = y = a * k"]

def scaled : Closure where
  params := ["a", "b"]
  body := .assign "y" (.chain [.var "a", .var "k"] [.mul])
  captured := (∅ : Variables).insert "k" 2.5

/-- A session with the same variables and another `f`. -/
def otherSession : Session where
  environment := Environment.setFunction ⟨scaled.captured, ∅⟩ "f" ⟨[], .var "k", ∅⟩
  evaluator := { limit := 0 }

theorem scaled_run_render_restores_function :
    ((new 1).performAll scaledHistory).environment.functions["f"]? = some scaled ∧
      (otherSession.run "f(a, b) = y = a * k").outcome = .ok none ∧
      (otherSession.run "f(a, b) = y = a * k").session.environment.functions["f"]? =
        some scaled := by
  have hassign : parse (tokenize "k = 2.5") = _ :=
    parse_tokenize_eq_ok_iff.2 (.assign "k" (.expression (.lone (.number "2.5"))))
  have hfirst : ((new 1).run "k = 2.5").session = _ := (run_of_runOn hassign rfl).2
  have hparams : ∀ p ∈ [.symbol "a", .openParen, .symbol "b", .closeParen], IsParameter p := by
    simp [IsParameter]
  have hproduct := Expression.chain (.var "a") (.link .mul (.var "k") .nil) (by simp)
  have hdeclare : parse (tokenize "f(a (b) = y = a * k") = _ :=
    parse_tokenize_eq_ok_iff.2 (.declare "f" hparams (.assign "y" (.expression hproduct)))
  have hf : ((new 1).performAll scaledHistory).environment.functions["f"]? = some scaled := by
    show (((new 1).run "k = 2.5").session.run _).session.environment.functions["f"]? = _
    rw [hfirst, (run_of_declaration hdeclare).2]
    rfl
  obtain ⟨hout, hrestored, -⟩ := run_render_restores_function 1 scaledHistory hf otherSession rfl
  exact ⟨hf, hout, hrestored⟩

end Session

end ChainCalc
