import ChainCalc.Proofs.Scoping

/-!
# Independent statements

Two statements are independent if neither assigns to what the other assigns to or reads. Then their
order does not matter (`Session.run_comm_of_independent`), whatever the functions that they call
assign to and whether the statements fail or not.

By `Session.run_of_expression` a statement stores the outcome of its core, and by
`Evaluator.outcome_eq_of_agree` that outcome is the same before and after the other statement. What
is left is that two stores under different names can be swapped.
-/

namespace ChainCalc

open Grammar

namespace Environment

variable {env env' : Environment}

theorem eq_of_getElem? (hvars : ∀ name : String, env.vars[name]? = env'.vars[name]?)
    (hfunctions : env.functions = env'.functions) : env = env' := by
  obtain ⟨vars, functions⟩ := env
  obtain ⟨vars', functions'⟩ := env'
  obtain rfl : vars = vars' := Std.ExtTreeMap.ext_getElem? hvars
  obtain rfl : functions = functions' := hfunctions
  rfl

theorem functions_store (env : Environment) (names : List String)
    (r : Except RuntimeError (Option Float)) : (env.store names r).functions = env.functions := by
  rcases r with e | _ | x
  · rfl
  · rfl
  · exact env.functions_setAll names x

theorem getElem?_vars_store (env : Environment) {names : List String}
    (r : Except RuntimeError (Option Float)) {name : String} (h : name ∉ names) :
    (env.store names r).vars[name]? = env.vars[name]? := by
  rcases r with e | _ | x
  · rfl
  · rfl
  · rw [store, getElem?_vars_setAll, if_neg h]

theorem setAll_comm (env : Environment) {names names' : List String}
    (h : ∀ name ∈ names, name ∉ names') (x y : Float) :
    (env.setAll names x).setAll names' y = (env.setAll names' y).setAll names x := by
  refine eq_of_getElem? (fun name => ?_) ?_
  · simp only [getElem?_vars_setAll]
    by_cases hname : name ∈ names
    · simp [hname, h name hname]
    · simp [hname]
  · simp only [functions_setAll]

theorem store_comm (env : Environment) {names names' : List String}
    (h : ∀ name ∈ names, name ∉ names') (r r' : Except RuntimeError (Option Float)) :
    (env.store names r).store names' r' = (env.store names' r').store names r := by
  rcases r with e | _ | x
  · rfl
  · rfl
  · rcases r' with e' | _ | y
    · rfl
    · rfl
    · exact env.setAll_comm h x y

end Environment

/-- Neither statement assigns to what the other one assigns to or reads. -/
structure Term.Independent (t u : Term) : Prop where
  targets : ∀ name ∈ t.targets, name ∉ u.targets
  reads : ∀ name, t.core.Reads name → name ∉ u.targets
  reads' : ∀ name, u.core.Reads name → name ∉ t.targets

theorem Term.Independent.symm {t u : Term} (h : t.Independent u) : u.Independent t where
  targets name hu ht := h.targets name ht hu
  reads := h.reads'
  reads' := h.reads

namespace Session

/-- What is stored under names that a term does not read leaves its outcome as it was. -/
theorem outcome_store (s : Session) {t : Term} {names : List String}
    (h : ∀ name, t.Reads name → name ∉ names) (r : Except RuntimeError (Option Float)) :
    (s.evaluator.evaluate (s.environment.store names r) t).outcome =
      (s.evaluator.evaluate s.environment t).outcome := by
  refine s.evaluator.outcome_eq_of_agree (fun name hname => ?_) fun f _ => ?_
  · exact s.environment.getElem?_vars_store r (h name hname)
  · rw [Environment.functions_store]

/-- After an independent statement, a statement has the outcome that it has before it, and stores
it in what the other one has left. -/
theorem run_run_of_independent (s : Session) {a b : String} {t u : Term}
    (ha : parse (tokenize a) = .ok t) (hb : parse (tokenize b) = .ok u)
    (ht : t.core.CanonicalExpression) (hu : u.core.CanonicalExpression) (h : t.Independent u) :
    let r := (s.evaluator.evaluate s.environment t.core).outcome
    let r' := (s.evaluator.evaluate s.environment u.core).outcome
    ((s.run b).session.run a).outcome = (s.run a).outcome ∧
      ((s.run b).session.run a).session =
        { s with environment := (s.environment.store u.targets r').store t.targets r } := by
  obtain ⟨hout, -⟩ := run_of_expression ha ht (s := s)
  obtain ⟨-, hsession⟩ := run_of_expression hb hu (s := s)
  obtain ⟨hout', hsession'⟩ := run_of_expression ha ht (s := (s.run b).session)
  rw [hsession] at hout' hsession' ⊢
  rw [s.outcome_store h.reads] at hout' hsession'
  exact ⟨hout'.trans hout.symm, hsession'⟩

/-- Independent statements can be swapped: each has the same outcome in both orders, and the
session that they leave is the same. -/
theorem run_comm_of_independent (s : Session) {a b : String} {t u : Term}
    (ha : parse (tokenize a) = .ok t) (hb : parse (tokenize b) = .ok u)
    (ht : ¬ t.core.isDeclaration) (hu : ¬ u.core.isDeclaration) (h : t.Independent u) :
    (s.run a).outcome = ((s.run b).session.run a).outcome ∧
      ((s.run a).session.run b).outcome = (s.run b).outcome ∧
      ((s.run a).session.run b).session = ((s.run b).session.run a).session := by
  have ht := (canonical_of_parse_tokenize ha).core.resolve_left ht
  have hu := (canonical_of_parse_tokenize hb).core.resolve_left hu
  obtain ⟨hout, hsession⟩ := s.run_run_of_independent ha hb ht hu h
  obtain ⟨hout', hsession'⟩ := s.run_run_of_independent hb ha hu ht h.symm
  refine ⟨hout.symm, hout', ?_⟩
  rw [hsession, hsession', s.environment.store_comm h.targets]

/-- Here `f` assigns to `p` and to `q`, in its own scope. -/
def isolating : Session where
  environment := (Environment.setVariable {} "x" 1.5)
    |>.setFunction "f" ⟨["y"], .assign "p" (.assign "q" (.var "y")), ∅⟩

theorem isolating_run_comm :
    (isolating.run "p = f(x)").outcome = .ok (some 1.5) ∧
      ((isolating.run "q = r = f(2.5)").session.run "p = f(x)").outcome = .ok (some 1.5) ∧
      ((isolating.run "p = f(x)").session.run "q = r = f(2.5)").session =
        ((isolating.run "q = r = f(2.5)").session.run "p = f(x)").session := by
  have hx := Operand.call "f" (.last (.lone (.var "x")))
  have hp : parse (tokenize "p = f(x)") = _ :=
    parse_tokenize_eq_ok_iff.2 (.assign "p" (.expression (.lone hx)))
  have hnumber := Operand.call "f" (.last (.lone (.number "2.5")))
  have hq : parse (tokenize "q = r = f(2.5)") = _ :=
    parse_tokenize_eq_ok_iff.2 (.assign "q" (.assign "r" (.expression (.lone hnumber))))
  have hout : (isolating.run "p = f(x)").outcome = .ok (some 1.5) := (run_of_runOn hp rfl).1
  have hindependent : Term.Independent (.assign "p" (.call "f" [.var "x"]))
      (.assign "q" (.assign "r" (.call "f" [.number "2.5"]))) := by
    refine ⟨by decide, ?_, ?_⟩
    · rintro name (_ | _ | ⟨_, ht, h⟩)
      cases List.mem_singleton.1 ht
      cases h
      decide
    · rintro name (_ | _ | ⟨_, ht, h⟩)
      cases List.mem_singleton.1 ht
      cases h
  obtain ⟨hsame, -, hsession⟩ :=
    run_comm_of_independent isolating hp hq (by decide) (by decide) hindependent
  exact ⟨hout, hsame.symm.trans hout, hsession⟩

end Session

end ChainCalc
