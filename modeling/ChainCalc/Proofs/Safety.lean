import ChainCalc.Proofs.FunctionTable
import ChainCalc.Proofs.Strictness
import Mathlib.Data.Set.Defs

/-!
# Statements that can only fail by a division by zero

`Term.Safe` is all that can be said of an expression before it is run: its literals are numbers, its
variables are there, each call names a function that is declared, has enough arguments and stays
within the limit, and the body of the function is safe in what it captured and its parameters. Since
nothing is skipped and bodies see nothing else, running an expression tests whether it is safe
(`Term.tests_safe`): a safe one succeeds or divides by zero, and one that succeeds is safe. For a
statement of any session this is `Session.safe_statement_fails_only_by_division`.

What the bodies look like comes from the history of the session: each was read from a text.
-/

namespace ChainCalc

open EvalM Grammar

/-! ### Literals -/

/-- At least one digit and at most one point. -/
def Number.IsProper (text : String) : Prop :=
  text.toList.any Char.isDigit ∧ text.toList.count '.' ≤ 1

theorem Number.isLiteral_iff {cs : List Char} (h : cs.all isNumeric) :
    isLiteral cs ↔ cs.any Char.isDigit ∧ cs.count '.' ≤ 1 := by
  simp [isLiteral, h]

/-- Of the texts that a number can have, exactly the proper ones have a value. -/
theorem Number.read_ok_iff {text : String} (h : isNumberText text.toList) :
    (∃ x, read text = .ok x) ↔ IsProper text := by
  have hread : (∃ x, read text = .ok x) ↔ (read? text).isSome := by
    unfold read
    cases read? text <;> simp
  rw [hread]
  unfold read? IsProper
  generalize text.toList = cs at h
  cases cs with
  | nil => cases h
  | cons c cs =>
    obtain ⟨hstart, hcs⟩ : startsNumber c cs ∧ cs.all isNumeric := by
      simpa [isNumberText] using h
    by_cases hc : c = '-'
    · -- the sign is neither a digit nor a point
      subst hc
      have hany : ('-' :: cs).any Char.isDigit = cs.any Char.isDigit := rfl
      have hcount : ('-' :: cs).count '.' = cs.count '.' := List.count_cons_of_ne (by decide)
      rw [hany, hcount, ← isLiteral_iff hcs]
      simp
    · have hall : (c :: cs).all isNumeric := by simpa [startsNumber, hc, hcs] using hstart
      rw [← isLiteral_iff hall]
      simp [hc]

/-! ### Scopes -/

/-- The names that the body of a function can read. -/
def Closure.names (f : Closure) : Set String := {name | name ∈ f.captured ∨ name ∈ f.params}

theorem mem_foldl_insert {bindings : List (String × Float)} {scope : Variables} {name : String} :
    name ∈ bindings.foldl (fun scope (name, x) => scope.insert name x) scope ↔
      name ∈ scope ∨ name ∈ bindings.map Prod.fst := by
  induction bindings generalizing scope with
  | nil => simp
  | cons binding bindings ih =>
    rw [List.foldl_cons, ih, Std.ExtTreeMap.mem_insert]
    simp only [Std.LawfulEqCmp.compare_eq_iff_eq, List.map_cons, List.mem_cons]
    rw [or_comm (a := binding.1 = name), or_assoc, eq_comm (a := binding.1)]

theorem Closure.length_le_of_bind? {f : Closure} {xs : List Float} {scope : Variables}
    (h : f.bind? xs = some scope) : f.params.length ≤ xs.length := by
  refine Nat.le_of_not_lt fun hlt => ?_
  rw [bind?_eq_none_iff.2 hlt] at h
  cases h

/-- A call binds the parameters on top of what the function captured. -/
theorem Closure.names_of_bind? {f : Closure} {xs : List Float} {scope : Variables}
    (h : f.bind? xs = some scope) : {name | name ∈ scope} = f.names := by
  have hcount := length_le_of_bind? h
  have hparams : (f.params.zip xs).map Prod.fst = f.params := List.map_fst_zip hcount
  rw [bind?, if_neg (Nat.not_lt.2 hcount)] at h
  cases h
  ext name
  refine mem_foldl_insert.trans ?_
  rw [hparams]
  rfl

/-! ### Safe expressions -/

namespace Term

/-- What can be said of an expression before it is run `depth` calls deep, where the variables
`names` are in scope. A body is judged without the assignments in front of it; a declaration is
never safe. -/
inductive Safe (functions : Functions) (limit : Nat) : Nat → Set String → Term → Prop
  | number {depth : Nat} {names : Set String} {text : String} (h : Number.IsProper text) :
      Safe functions limit depth names (number text)
  | var {depth : Nat} {names : Set String} {name : String} (h : name ∈ names) :
      Safe functions limit depth names (var name)
  | call {depth : Nat} {names : Set String} {name : String} {f : Closure} {arguments : List Term}
      (hf : functions[name]? = some f) (hcount : f.params.length ≤ arguments.length)
      (hs : ∀ t ∈ arguments, Safe functions limit depth names t) (hdepth : depth < limit)
      (hbody : Safe functions limit (depth + 1) f.names f.body.core) :
      Safe functions limit depth names (call name arguments)
  | chain {depth : Nat} {names : Set String} {operands : List Term} {operators : List Operator}
      (hs : ∀ t ∈ operands, Safe functions limit depth names t) :
      Safe functions limit depth names (chain operands operators)

section Safe

variable {functions : Functions} {limit depth : Nat} {names : Set String}

theorem safe_number_iff {text : String} :
    Safe functions limit depth names (number text) ↔ Number.IsProper text := by
  constructor
  · rintro (h | _)
    exact h
  · exact .number

theorem safe_var_iff {name : String} :
    Safe functions limit depth names (var name) ↔ name ∈ names := by
  constructor
  · rintro (_ | h)
    exact h
  · exact .var

theorem safe_chain_iff {operands : List Term} {operators : List Operator} :
    Safe functions limit depth names (chain operands operators) ↔
      ∀ t ∈ operands, Safe functions limit depth names t := by
  constructor
  · rintro (_ | _ | _ | hs)
    exact hs
  · exact .chain

theorem not_safe_call {name : String} {arguments : List Term} (h : functions[name]? = none) :
    ¬ Safe functions limit depth names (call name arguments) := by
  rintro (_ | _ | ⟨hf, _⟩)
  rw [h] at hf
  cases hf

theorem safe_call_iff {name : String} {f : Closure} {arguments : List Term}
    (hf : functions[name]? = some f) :
    Safe functions limit depth names (call name arguments) ↔
      (∀ t ∈ arguments, Safe functions limit depth names t) ∧
        f.params.length ≤ arguments.length ∧ depth < limit ∧
        Safe functions limit (depth + 1) f.names f.body.core := by
  constructor
  · rintro (_ | _ | ⟨hf', hcount, hs, hdepth, hbody⟩)
    obtain rfl := Option.some.inj (hf.symm.trans hf')
    exact ⟨hs, hcount, hdepth, hbody⟩
  · rintro ⟨hs, hcount, hdepth, hbody⟩
    exact .call hf hcount hs hdepth hbody

theorem Safe.hasValue {t : Term} (h : Safe functions limit depth names t) : t.hasValue := by
  cases h <;> rfl

end Safe

end Term

/-! ### Runs of an expression -/

/-- The functions and the names of the variables. -/
def Machine.scope (m : Machine) : Functions × Set String := (m.functions, {name | name ∈ m.vars})

theorem EvalM.Keeps.scope {α : Type} {x : EvalM α} (h : Keeps Machine.state x) :
    Keeps Machine.scope x :=
  fun m => congrArg (fun s => (s.2.1, {name | name ∈ s.1})) (h m)

/-- An error that shows that something was not safe. -/
def RuntimeError.IsStatic (e : RuntimeError) : Prop := e ≠ .divisionByZero

namespace Term

open RuntimeError (IsStatic)

variable {functions : Functions} {limit depth : Nat} {names : Set String} {rule : CallRule}

/-- An expression tests whether it is safe if each of its calls tests whether the body is. -/
theorem tests_safe (hrule : ∀ name f xs scope, Keeps Machine.state (rule name f xs scope))
    (hcall : ∀ name f xs scope, functions[name]? = some f → {name | name ∈ scope} = f.names →
      Tests Machine.scope (functions, names) IsStatic
        (depth < limit ∧ Safe functions limit (depth + 1) f.names f.body.core)
        (rule name f xs scope))
    {t : Term} (ht : t.CanonicalExpression) :
    Tests Machine.scope (functions, names) IsStatic (Safe functions limit depth names t)
      (t.evalWith rule) := by
  -- an expression assigns nothing, so each part of it runs in the scope of the whole
  have hkeeps : ∀ t : Term, t.CanonicalExpression →
      Keeps Machine.scope (t.demand (t.evalWith rule)) := fun t ht => by
    refine Keeps.scope (keeps_demand fun hdeclaration => ?_)
    exact keeps_evalWith hrule t (fun name h => absurd h (ht.not_assigns name)) hdeclaration
  have hdemand : ∀ t : Term, t.CanonicalExpression →
      Tests Machine.scope (functions, names) IsStatic (Safe functions limit depth names t)
        (t.evalWith rule) →
      Tests Machine.scope (functions, names) IsStatic (Safe functions limit depth names t)
        (t.demand (t.evalWith rule)) := fun t ht h =>
    tests_demand (fun hvalue => absurd ht.hasValue hvalue) fun _ => h
  induction ht with
  | @number text htext =>
    rw [safe_number_iff, ← Number.read_ok_iff htext]
    unfold evalWith
    refine Tests.bind_pure (.ofExcept (fun x hx => ⟨x, hx⟩) fun e he _ => ?_) (.ofExcept _) _
    rintro ⟨x, hx⟩
    rw [hx] at he
    cases he
  | @var name hname =>
    rw [safe_var_iff]
    unfold evalWith
    refine .get_bind fun m hm => ?_
    have hmem : name ∈ names ↔ m.vars[name]?.isSome := by
      rw [← Std.ExtTreeMap.mem_iff_isSome_getElem?]
      exact iff_of_eq (congrArg (name ∈ ·.2) hm).symm
    rw [hmem]
    split
    · rename_i x hx
      exact .pure _ (by rw [hx]; rfl)
    · rename_i hnone
      exact .throw fun _ => by simp [hnone]
  | @call name arguments hname hs ih =>
    refine tests_call (fun f => f.params.length ≤ arguments.length ∧ depth < limit ∧
        Safe functions limit (depth + 1) f.names f.body.core)
      (fun m hm => congrArg Prod.fst hm) (fun name f xs scope => (hrule name f xs scope).scope)
      (fun t ht => hkeeps t (hs t ht)) (fun t ht => hdemand t (hs t ht) (ih t ht))
      (fun hnone _ => not_safe_call hnone) (fun f hlt _ hcalled => Nat.not_lt.2 hcalled.1 hlt)
      (fun f xs scope hf hxs hbind => ?_) (fun f hf => (safe_call_iff hf).symm)
    have hcount : f.params.length ≤ arguments.length := hxs ▸ Closure.length_le_of_bind? hbind
    have hcalled := hcall name f xs scope hf (Closure.names_of_bind? hbind)
    exact hcalled.of_iff (and_iff_right hcount).symm
  | @chain operands operators htwo hlength hs ih =>
    have hwell : wellFormedChain operands operators :=
      (CanonicalExpression.chain htwo hlength hs).wellFormedChain
    rw [safe_chain_iff]
    exact tests_chain (fun h => h rfl) (fun h => absurd hwell h)
      (fun t ht => hkeeps t (hs t ht)) fun t ht => hdemand t (hs t ht) (ih t ht)

/-- A call that may still be nested tests whether its body is safe. The body runs one call deeper,
with one call fewer left, so the two always add up to the limit. -/
theorem tests_safe_callRule
    (hfunctions : ∀ (name : String) (f : Closure), functions[name]? = some f →
      f.body.CanonicalStatement)
    {budget : Nat} (hlimit : depth + budget = limit) (name : String) (f : Closure)
    (xs : List Float) (scope : Variables) (hf : functions[name]? = some f)
    (hscope : {name | name ∈ scope} = f.names) :
    Tests Machine.scope (functions, names) IsStatic
      (depth < limit ∧ Safe functions limit (depth + 1) f.names f.body.core)
      (callRule limit budget name f xs scope) := by
  induction budget generalizing depth names name f xs scope with
  | zero => exact .throw fun _ h => absurd h.1 (by omega)
  | succ budget ih =>
    have hbody : Tests Machine.scope (functions, f.names) IsStatic
        (Safe functions limit (depth + 1) f.names f.body.core)
        (f.body.demand (f.body.eval limit budget)) := by
      rw [eval_eq_evalWith]
      refine tests_demand (fun hvalue _ hsafe => ?_) fun hvalue => tests_of_core hvalue ?_
      · exact hvalue (f.body.hasValue_core.symm.trans hsafe.hasValue)
      · rcases (hfunctions name f hf).core with hdeclaration | hexpression
        · rw [← hasValue_core] at hvalue
          exact absurd hdeclaration (not_isDeclaration_of_hasValue hvalue)
        · exact tests_safe (keeps_callRule limit budget) (ih (by omega)) hexpression
    refine (Tests.inCall hbody fun m hm => ?_).of_iff (and_iff_right (by omega)).symm
    have hm' : m.functions = functions := congrArg Prod.fst hm
    exact Prod.ext hm' hscope

end Term

/-! ### Statements of a session -/

namespace Session

/-- The body of each function was read from a text. -/
theorem canonical_body {limit : Nat} {ops : List Operation} {name : String} {f : Closure}
    (h : ((new limit).performAll ops).environment.functions[name]? = some f) :
    f.body.CanonicalStatement :=
  (canonical_declaration h).part (.body name f.params .whole)

/-- A statement tests whether its core is safe in the session. -/
theorem tests_safe_core {s : Session} {limit : Nat} (hevaluator : s.evaluator = { limit })
    (hfunctions : ∀ (name : String) (f : Closure), s.environment.functions[name]? = some f →
      f.body.CanonicalStatement) {t : Term} (hcore : t.core.CanonicalExpression) :
    Tests Machine.scope s.machine.scope RuntimeError.IsStatic
      (t.core.Safe s.environment.functions limit 0 {name | name ∈ s.environment.vars})
      (t.evalWith s.callRule) := by
  have hrule : s.callRule = Term.callRule limit limit := by
    rw [callRule, hevaluator]
    rfl
  rw [hrule]
  refine Term.tests_of_core (t.hasValue_core.symm.trans hcore.hasValue) ?_
  exact Term.tests_safe (Term.keeps_callRule limit limit)
    (Term.tests_safe_callRule hfunctions (Nat.zero_add limit)) hcore

/-- A statement with an expression at its core succeeds or divides by zero if the core is safe in
the session, and it succeeds only if the core is safe. -/
theorem safe_statement_fails_only_by_division (limit : Nat) (ops : List Operation)
    (source : String) {t : Term} (hparse : parse (tokenize source) = .ok t)
    (hcore : ¬ t.core.isDeclaration) :
    let s := (new limit).performAll ops
    let safe := t.core.Safe s.environment.functions limit 0 {name | name ∈ s.environment.vars}
    (safe → (∃ x, (s.run source).outcome = .ok (some x)) ∨
        (s.run source).outcome = .error (.runtime .divisionByZero)) ∧
      ∀ r, (s.run source).outcome = .ok r → safe := by
  intro s safe
  have hevaluator : s.evaluator = { limit } := ((new limit).reaches_performAll ops).evaluator_eq
  have hexpression := (canonical_of_parse_tokenize hparse).core.resolve_left hcore
  have htests := tests_safe_core hevaluator (fun name f => canonical_body) hexpression
  have hvalue : t.hasValue := t.hasValue_core.symm.trans hexpression.hasValue
  rcases hrun : runOn (t.evalWith s.callRule) s.machine with ⟨e | r, m⟩
  · obtain ⟨hout, -⟩ := run_of_runOn hparse hrun
    rw [hout]
    refine ⟨fun hsafe => .inr ?_, nofun⟩
    have he : ¬ e.IsStatic := fun he => htests.of_error s.machine e rfl (by rw [hrun]) he hsafe
    rw [Classical.not_not.1 he]
    rfl
  · obtain ⟨hout, -⟩ := run_of_runOn hparse hrun
    have hsome := Term.yields_evalWith (Term.not_isDeclaration_of_hasValue hvalue) _ _ _ hrun
    obtain ⟨x, rfl⟩ := Option.isSome_iff_exists.1 hsome
    rw [hout]
    exact ⟨fun _ => .inl ⟨x, rfl⟩, fun _ _ => htests.of_ok s.machine _ rfl (by rw [hrun])⟩

/-- The body of `f` assigns, and its value is a quotient. -/
def scaling : List Operation := [.run "f(a) = b = a / 2.5"]

theorem scaling_safe_statement :
    (((new 1).performAll scaling).run "x = f(7.5)").outcome = .ok (some (7.5 / 2.5)) ∧
      (Term.call "f" [.number "7.5"]).Safe ((new 1).performAll scaling).environment.functions 1 0
        {name | name ∈ ((new 1).performAll scaling).environment.vars} := by
  have hquotient := Expression.chain (.var "a") (.link .div (.number "2.5") .nil) (by simp)
  have hparams : ∀ p ∈ [.symbol "a", .closeParen], IsParameter p := by simp [IsParameter]
  have hdeclare : parse (tokenize "f(a) = b = a / 2.5") = _ :=
    parse_tokenize_eq_ok_iff.2 (.declare "f" hparams (.assign "b" (.expression hquotient)))
  have hsession : (new 1).performAll scaling = _ := (run_of_runOn hdeclare rfl).2
  have hcall := Operand.call "f" (.last (.lone (.number "7.5")))
  have hparse : parse (tokenize "x = f(7.5)") = _ :=
    parse_tokenize_eq_ok_iff.2 (.assign "x" (.expression (.lone hcall)))
  have hout : (((new 1).performAll scaling).run "x = f(7.5)").outcome =
      .ok (some (7.5 / 2.5)) := by
    rw [hsession]
    exact (run_of_runOn hparse rfl).1
  exact ⟨hout, (safe_statement_fails_only_by_division 1 scaling _ hparse (by decide)).2 _ hout⟩

end Session

end ChainCalc
