import ChainCalc.Proofs.Frame
import ChainCalc.Proofs.RoundTrip
import ChainCalc.Session

/-!
# The effect of a statement on its session

A statement is a declaration, or an expression that is assigned to any number of names.
`Session.run_effect` says all that running it can do to a session: nothing if it fails, one new
function if it declares one, and otherwise the value of the expression under each of the names.
-/

namespace ChainCalc

open EvalM Grammar

namespace Environment

theorem getElem?_vars_setVariable (env : Environment) (name : String) (x : Float) (other : String) :
    (env.setVariable name x).vars[other]? = if other = name then some x else env.vars[other]? := by
  rw [setVariable, Std.ExtTreeMap.getElem?_insert]
  by_cases h : other = name
  · simp [h]
  · simp [h, Ne.symm h]

theorem getElem?_functions_setFunction (env : Environment) (name : String) (f : Closure)
    (other : String) :
    (env.setFunction name f).functions[other]? =
      if other = name then some f else env.functions[other]? := by
  rw [setFunction, Std.ExtTreeMap.getElem?_insert]
  by_cases h : other = name
  · simp [h]
  · simp [h, Ne.symm h]

/-- Sets each of the names to `x`. -/
def setAll (env : Environment) (names : List String) (x : Float) : Environment :=
  names.foldr (fun name env => env.setVariable name x) env

theorem functions_setAll (env : Environment) (names : List String) (x : Float) :
    (env.setAll names x).functions = env.functions := by
  induction names with
  | nil => rfl
  | cons name names ih => exact ih

theorem getElem?_vars_setAll (env : Environment) (names : List String) (x : Float) (name : String) :
    (env.setAll names x).vars[name]? = if name ∈ names then some x else env.vars[name]? := by
  induction names with
  | nil => simp [setAll]
  | cons first names ih =>
    show ((env.setAll names x).setVariable first x).vars[name]? = _
    rw [getElem?_vars_setVariable, ih]
    by_cases h : name = first
    · simp [h]
    · simp [h]

/-- Sets each of the names to the value that was computed for them, if there is one. -/
def store (env : Environment) (names : List String) :
    Except RuntimeError (Option Float) → Environment
  | .ok (some x) => env.setAll names x
  | _ => env

end Environment

namespace Machine

def environment (m : Machine) : Environment := ⟨m.vars, m.functions⟩

/-- Assigns `x` to each of the names, the last one first. -/
def assignAll (m : Machine) (names : List String) (x : Float) : Machine :=
  names.foldr (fun name m => m.assign name x) m

theorem environment_assignAll (m : Machine) (names : List String) (x : Float) :
    (m.assignAll names x).environment = m.environment.setAll names x := by
  induction names with
  | nil => rfl
  | cons name names ih => exact congrArg (·.setVariable name x) ih

theorem depth_assignAll (m : Machine) (names : List String) (x : Float) :
    (m.assignAll names x).depth = m.depth := by
  induction names with
  | nil => rfl
  | cons name names ih => exact ih

end Machine

/-! ### Targets and core -/

namespace Term

/-- The names that a term assigns its value to, as they stand: `a` and `b` for `a = b = 1`. -/
def targets : Term → List String
  | assign name value => name :: value.targets
  | _ => []

/-- What is assigned to the targets. -/
def core : Term → Term
  | assign _ value => value.core
  | t => t

variable {rule : CallRule} {m m' : Machine}

theorem foldr_assign_targets_core (t : Term) : t.targets.foldr assign t.core = t := by
  induction t using Term.induction with
  | assign name value ih => exact congrArg (assign name) ih
  | number | var | call | declare | chain => rfl

theorem hasValue_core (t : Term) : t.core.hasValue = t.hasValue := by
  induction t using Term.induction with
  | assign name value ih => exact ih
  | number | var | call | declare | chain => rfl

theorem runOn_demand_of_hasValue {t : Term} (ht : t.hasValue) (run : EvalM (Option Float))
    (m : Machine) :
    runOn (t.demand run) m = match runOn run m with
      | (.ok (some x), m') => (.ok x, m')
      | (.ok none, m') => (.error (.missingValue t.render), m')
      | (.error e, m') => (.error e, m') := by
  rw [demand, if_pos ht, runOn_bind]
  rcases runOn run m with ⟨_ | _ | _, _⟩ <;> rfl

/-- The value of the core is the value of the whole, and each target gets it. -/
theorem runOn_of_core {t : Term} {x : Float} (ht : t.hasValue)
    (h : runOn (t.core.evalWith rule) m = (.ok (some x), m')) :
    runOn (t.evalWith rule) m = (.ok (some x), m'.assignAll t.targets x) := by
  induction t using Term.induction with
  | assign name value ih =>
    have hvalue : value.hasValue := ht
    rw [evalWith, runOn_bind, runOn_demand_of_hasValue hvalue, ih hvalue h]
    rfl
  | number | var | call | declare | chain => exact h

/-- If the core fails, no target is assigned. -/
theorem runOn_of_core_error {t : Term} {e : RuntimeError} (ht : t.hasValue)
    (h : runOn (t.core.evalWith rule) m = (.error e, m')) :
    runOn (t.evalWith rule) m = (.error e, m') := by
  induction t using Term.induction with
  | assign name value ih =>
    have hvalue : value.hasValue := ht
    rw [evalWith, runOn_bind, runOn_demand_of_hasValue hvalue, ih hvalue h]
  | number | var | call | declare | chain => exact h

/-- A declaration cannot be assigned, and the attempt does not run it. -/
theorem runOn_assign_of_not_hasValue (name : String) {value : Term} (hvalue : ¬ value.hasValue) :
    runOn ((assign name value).evalWith rule) m = (.error (.missingValue value.render), m) := by
  rw [evalWith, demand, if_neg hvalue]
  rfl

namespace CanonicalExpression

variable {t : Term}

theorem hasValue (h : t.CanonicalExpression) : t.hasValue := by
  cases h <;> rfl

theorem core_eq (h : t.CanonicalExpression) : t.core = t := by
  cases h <;> rfl

theorem not_assigns (h : t.CanonicalExpression) (name : String) : ¬ t.Assigns name := by
  intro ha
  induction ha with
  | here | value => cases h
  | argument f ht _ ih =>
    cases h with
    | call _ hs => exact ih (hs _ ht)
  | operand operators ht _ ih =>
    cases h with
    | chain _ _ hs => exact ih (hs _ ht)

end CanonicalExpression

theorem CanonicalStatement.core {t : Term} (h : t.CanonicalStatement) :
    t.core.isDeclaration ∨ t.core.CanonicalExpression := by
  induction h with
  | assign _ _ ih => exact ih
  | declare => exact .inl rfl
  | expression h =>
    rw [h.core_eq]
    exact .inr h

end Term

/-! ### Runs of a statement -/

namespace Session

/-- The machine on which a statement of the session is run. -/
def machine (s : Session) : Machine :=
  ⟨s.environment.vars, s.environment.functions, s.evaluator.depth, []⟩

/-- How a statement of the session carries out a call. -/
def callRule (s : Session) : CallRule :=
  Term.callRule s.evaluator.limit (s.evaluator.limit - s.evaluator.depth)

theorem evaluate_eq (s : Session) (t : Term) :
    s.evaluator.evaluate s.environment t =
      let p := runOn (t.evalWith s.callRule) s.machine
      ⟨p.1, p.2.environment, { s.evaluator with depth := p.2.depth }, p.2.trace.reverse⟩ := by
  rw [Evaluator.evaluate, Term.eval_eq_evalWith]
  rfl

variable {s : Session} {source : String} {t : Term}

theorem run_of_parse_error {e : ParseError} (h : parse (tokenize source) = .error e) :
    (s.run source).outcome = .error (.parse e) ∧ (s.run source).session = s := by
  have hparse : parse ((pieces source).filterMap Piece.token?) = .error e := h
  simp [Session.run, hparse]

theorem run_of_runOn {r : Except RuntimeError (Option Float)} {m : Machine}
    (h : parse (tokenize source) = .ok t)
    (hrun : runOn (t.evalWith s.callRule) s.machine = (r, m)) :
    (s.run source).outcome = r.mapError .runtime ∧
      (s.run source).session = ⟨m.environment, { s.evaluator with depth := m.depth }⟩ := by
  have hparse : parse ((pieces source).filterMap Piece.token?) = .ok t := h
  simp [Session.run, hparse, evaluate_eq, hrun]

theorem run_of_declaration {name : String} {params : List String} {body : Term}
    (h : parse (tokenize source) = .ok (.declare name params body)) :
    (s.run source).outcome = .ok none ∧ (s.run source).session =
      { s with environment :=
          s.environment.setFunction name ⟨params, body, s.environment.vars⟩ } :=
  run_of_runOn h rfl

theorem eq_of_state_eq {m : Machine} (h : m.state = s.machine.state) :
    m.environment = s.environment ∧ { s.evaluator with depth := m.depth } = s.evaluator := by
  obtain ⟨hvars, hfunctions, hdepth⟩ :
      m.vars = s.environment.vars ∧ m.functions = s.environment.functions ∧
        m.depth = s.evaluator.depth := by
    simpa [Machine.state, machine] using h
  rw [Machine.environment, hvars, hfunctions, hdepth]
  exact ⟨rfl, rfl⟩

/-- What running a statement can do to a session. -/
inductive Effect (s : Session) (source : String) :
    Except StatementError (Option Float) → Session → Prop
  | failed (e : StatementError) : Effect s source (.error e) s
  | declared {name : String} {params : List String} {body : Term}
      (h : parse (tokenize source) = .ok (.declare name params body)) :
      Effect s source (.ok none)
        { s with environment :=
            s.environment.setFunction name ⟨params, body, s.environment.vars⟩ }
  | valued {t : Term} {x : Float} (h : parse (tokenize source) = .ok t)
      (hcore : t.core.CanonicalExpression)
      (hx : (s.evaluator.evaluate s.environment t.core).outcome = .ok (some x)) :
      Effect s source (.ok (some x)) { s with environment := s.environment.setAll t.targets x }

theorem effect_of_declaration (h : parse (tokenize source) = .ok t) (hcore : t.core.isDeclaration) :
    Effect s source (s.run source).outcome (s.run source).session := by
  cases t with
  | declare name params body =>
    obtain ⟨hout, hsession⟩ := run_of_declaration h (s := s)
    rw [hout, hsession]
    exact .declared h
  | assign name value =>
    have hvalue : ¬ value.hasValue := by
      rw [← Term.hasValue_core]
      exact fun hv => Term.not_isDeclaration_of_hasValue hv hcore
    obtain ⟨hout, hsession⟩ :=
      run_of_runOn h (s := s) (Term.runOn_assign_of_not_hasValue name hvalue)
    rw [hout, hsession]
    exact .failed _
  | number | var | call | chain => cases hcore

/-- An expression is computed in the session as it is, and only its targets change. -/
theorem run_of_expression (h : parse (tokenize source) = .ok t)
    (hcore : t.core.CanonicalExpression) :
    let r := (s.evaluator.evaluate s.environment t.core).outcome
    (s.run source).outcome = r.mapError .runtime ∧
      (s.run source).session = { s with environment := s.environment.store t.targets r } := by
  have ht : t.hasValue := t.hasValue_core.symm.trans hcore.hasValue
  have hdeclaration := Term.not_isDeclaration_of_hasValue hcore.hasValue
  -- the calls of the expression leave everything as it was, so only the targets can change
  have hstate : (runOn (t.core.evalWith s.callRule) s.machine).2.state = s.machine.state :=
    Term.keeps_state _ _ hdeclaration hcore.not_assigns s.machine
  obtain ⟨henv, hevaluator⟩ := eq_of_state_eq hstate
  rw [evaluate_eq]
  rcases hrun : runOn (t.core.evalWith s.callRule) s.machine with ⟨e | r, m⟩
  · obtain ⟨hout, hsession⟩ := run_of_runOn h (Term.runOn_of_core_error ht hrun)
    rw [hrun] at henv hevaluator
    rw [hout, hsession, henv, hevaluator]
    exact ⟨rfl, rfl⟩
  · obtain ⟨x, rfl⟩ := Option.isSome_iff_exists.1 (Term.yields_evalWith hdeclaration _ _ _ hrun)
    obtain ⟨hout, hsession⟩ := run_of_runOn h (Term.runOn_of_core ht hrun)
    rw [hrun] at henv hevaluator
    rw [hout, hsession, Machine.environment_assignAll, Machine.depth_assignAll, henv, hevaluator]
    exact ⟨rfl, rfl⟩

theorem effect_of_expression (h : parse (tokenize source) = .ok t)
    (hcore : t.core.CanonicalExpression) :
    Effect s source (s.run source).outcome (s.run source).session := by
  have hdeclaration := Term.not_isDeclaration_of_hasValue hcore.hasValue
  obtain ⟨hout, hsession⟩ := run_of_expression h hcore (s := s)
  rw [hout, hsession]
  rcases hr : (s.evaluator.evaluate s.environment t.core).outcome with e | _ | x
  · exact .failed _
  · exact absurd hr (Term.runOn_eval_ne_ok_none _ _ hdeclaration s.machine)
  · exact .valued h hcore hr

theorem run_effect (s : Session) (source : String) :
    Effect s source (s.run source).outcome (s.run source).session := by
  cases h : parse (tokenize source) with
  | error e =>
    obtain ⟨hout, hsession⟩ := run_of_parse_error h (s := s)
    rw [hout, hsession]
    exact .failed _
  | ok t =>
    rcases (canonical_of_parse_tokenize h).core with hcore | hcore
    · exact effect_of_declaration h hcore
    · exact effect_of_expression h hcore

/-- A statement that fails changes nothing, however deep in its calls it fails and whatever these
have assigned before. -/
theorem session_eq_of_run_error (s : Session) (source : String) {e : StatementError}
    (h : (s.run source).outcome = .error e) : (s.run source).session = s := by
  have heffect := s.run_effect source
  rw [h] at heffect
  generalize (s.run source).session = s' at heffect
  cases heffect
  rfl

/-- Here `f` calls `g` after an assignment, and `g` assigns before it reads an unknown variable. -/
def nestedFailure : Session where
  environment := (Environment.setVariable {} "x" 1.5)
    |>.setFunction "f" ⟨["y"], .chain [.assign "x" (.var "y"), .call "g" [.var "x"]] [.add], ∅⟩
    |>.setFunction "g" ⟨["y"], .chain [.assign "x" (.var "y"), .var "z"] [.mul], ∅⟩

theorem nestedFailure_session_eq :
    (nestedFailure.run "x = f(2)").outcome = .error (.runtime (.unknownVariable "z")) ∧
      (nestedFailure.run "x = f(2)").session = nestedFailure := by
  have hcall := Operand.call "f" (.last (.lone (.number "2")))
  have hparse : parse (tokenize "x = f(2)") = _ :=
    parse_tokenize_eq_ok_iff.2 (.assign "x" (.expression (.lone hcall)))
  have hout : (nestedFailure.run "x = f(2)").outcome = .error (.runtime (.unknownVariable "z")) :=
    (run_of_runOn hparse rfl).1
  exact ⟨hout, session_eq_of_run_error nestedFailure "x = f(2)" hout⟩

/-- A statement that succeeds either declares one function, which takes a copy of the variables, or
sets its targets to the value that its core has in the session before. -/
theorem run_ok_effect (s : Session) (source : String) {r : Option Float}
    (h : (s.run source).outcome = .ok r) :
    ∃ t, parse (tokenize source) = .ok t ∧ t.targets.foldr .assign t.core = t ∧
      (s.run source).session.evaluator = s.evaluator ∧
      ((∃ name params body, t = .declare name params body ∧ r = none ∧
          (s.run source).session.environment.vars = s.environment.vars ∧
          ∀ f, (s.run source).session.environment.functions[f]? =
            if f = name then some ⟨params, body, s.environment.vars⟩
            else s.environment.functions[f]?) ∨
        (t.core.CanonicalExpression ∧ ∃ x, r = some x ∧
          (s.evaluator.evaluate s.environment t.core).outcome = .ok (some x) ∧
          (s.run source).session.environment.functions = s.environment.functions ∧
          ∀ name, (s.run source).session.environment.vars[name]? =
            if name ∈ t.targets then some x else s.environment.vars[name]?)) := by
  have heffect := s.run_effect source
  rw [h] at heffect
  generalize (s.run source).session = s' at heffect ⊢
  cases heffect with
  | @declared name params body hparse =>
    exact ⟨_, hparse, rfl, rfl, .inl ⟨name, params, body, rfl, rfl, rfl,
      s.environment.getElem?_functions_setFunction name ⟨params, body, s.environment.vars⟩⟩⟩
  | @valued t x hparse hcore hx =>
    exact ⟨t, hparse, t.foldr_assign_targets_core, rfl, .inr ⟨hcore, x, rfl, hx,
      s.environment.functions_setAll t.targets x, s.environment.getElem?_vars_setAll t.targets x⟩⟩

/-- Here `f` assigns to `x`, which has another value where `f` is called. -/
def shadowed : Session where
  environment := (Environment.setVariable {} "x" 1.5)
    |>.setFunction "f" ⟨["y"], .assign "x" (.var "y"), ∅⟩

theorem shadowed_run_ok_effect :
    (shadowed.run "a = b = f(2.5)").outcome = .ok (some 2.5) ∧
      (shadowed.run "a = b = f(2.5)").session.environment.functions =
        shadowed.environment.functions ∧
      ∀ name, (shadowed.run "a = b = f(2.5)").session.environment.vars[name]? =
        if name ∈ ["a", "b"] then some 2.5 else shadowed.environment.vars[name]? := by
  have hcall := Operand.call "f" (.last (.lone (.number "2.5")))
  have hparse : parse (tokenize "a = b = f(2.5)") = _ :=
    parse_tokenize_eq_ok_iff.2 (.assign "a" (.assign "b" (.expression (.lone hcall))))
  have hout : (shadowed.run "a = b = f(2.5)").outcome = .ok (some 2.5) :=
    (run_of_runOn hparse rfl).1
  obtain ⟨t, ht, -, -, ⟨_, _, _, -, hnone, -⟩ | ⟨-, x, hx, -, hfunctions, hvars⟩⟩ :=
    run_ok_effect shadowed "a = b = f(2.5)" hout
  · cases hnone
  · obtain rfl := Except.ok.inj (hparse.symm.trans ht)
    obtain rfl := Option.some.inj hx
    exact ⟨hout, hfunctions, hvars⟩

end Session

end ChainCalc
