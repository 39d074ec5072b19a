import ChainCalc.Proofs.CallCounter
import ChainCalc.Proofs.Interruption
import ChainCalc.Proofs.Scoping

/-!
# The scope of a call

A call lays its parameters over what the function captured. A name may stand among the parameters
more than once, and then the last one counts; what is captured under the name of a parameter is
hidden, and what arguments there are beyond the parameters does not matter
(`Closure.getElem?_of_bind?`, `Closure.bind?_take_append`).

The scope is a copy. A call is its body run in that scope (`Evaluator.outcome_call`), and leaves the
functions as they were, so what one body assigns is not there when the next one starts
(`Closure.bind?_scopes_calls`).
-/

namespace ChainCalc

open EvalM
open Machine (SameState)

/-! ### Parameters over captured variables -/

section

variable {bindings before after : List (String × Float)} {scope : Variables} {name : String}

theorem getElem?_foldl_insert_of_notMem (h : name ∉ bindings.map Prod.fst) :
    (bindings.foldl (fun scope (name, x) => scope.insert name x) scope)[name]? =
      scope[name]? := by
  induction bindings generalizing scope with
  | nil => rfl
  | cons binding bindings ih =>
    rw [List.map_cons, List.mem_cons, not_or] at h
    rw [List.foldl_cons, ih h.2, Std.ExtTreeMap.getElem?_insert, if_neg]
    rw [Std.LawfulEqCmp.compare_eq_iff_eq]
    exact Ne.symm h.1

/-- What is bound last stays. -/
theorem getElem?_foldl_insert_append (h : name ∉ after.map Prod.fst) (x : Float) :
    ((before ++ (name, x) :: after).foldl (fun scope (name, x) => scope.insert name x)
      scope)[name]? = some x := by
  rw [List.foldl_append, List.foldl_cons, getElem?_foldl_insert_of_notMem h,
    Std.ExtTreeMap.getElem?_insert_self]

end

namespace Closure

variable {f : Closure} {arguments : List Float} {scope : Variables}

theorem isSome_bind?_iff : (f.bind? arguments).isSome ↔ f.params.length ≤ arguments.length := by
  rw [Option.isSome_iff_ne_none, Ne, bind?_eq_none_iff, Nat.not_lt]

theorem bind?_eq_some_iff : f.bind? arguments = some scope ↔ f.params.length ≤ arguments.length ∧
    (f.params.zip arguments).foldl (fun scope (name, x) => scope.insert name x) f.captured =
      scope := by
  rw [bind?]
  split
  · simp only [reduceCtorEq, false_iff]
    omega
  · simp only [Option.some.injEq, iff_and_self]
    omega

/-- A parameter has the argument at its last place. -/
theorem getElem?_of_bind? (h : f.bind? arguments = some scope) {i : Nat} {name : String}
    (hname : f.params[i]? = some name) (hlast : name ∉ f.params.drop (i + 1)) :
    ∃ x, arguments[i]? = some x ∧ scope[name]? = some x := by
  obtain ⟨hcount, rfl⟩ := bind?_eq_some_iff.1 h
  have hi : i < f.params.length := (List.getElem?_eq_some_iff.1 hname).1
  obtain ⟨x, hx⟩ : ∃ x, arguments[i]? = some x :=
    ⟨_, List.getElem?_eq_getElem (Nat.lt_of_lt_of_le hi hcount)⟩
  refine ⟨x, hx, ?_⟩
  obtain ⟨hlt, hbinding⟩ := List.getElem?_eq_some_iff.1
    (List.getElem?_zip_eq_some.2 ⟨hname, hx⟩ : (f.params.zip arguments)[i]? = some (name, x))
  have hafter : ((f.params.zip arguments).drop (i + 1)).map Prod.fst = f.params.drop (i + 1) := by
    rw [List.map_drop, List.map_fst_zip hcount]
  rw [← List.take_append_drop i (f.params.zip arguments), List.drop_eq_getElem_cons hlt, hbinding]
  exact getElem?_foldl_insert_append (hafter ▸ hlast) x

theorem getElem?_of_bind?_of_notMem (h : f.bind? arguments = some scope) {name : String}
    (hname : name ∉ f.params) : scope[name]? = f.captured[name]? := by
  obtain ⟨hcount, rfl⟩ := bind?_eq_some_iff.1 h
  refine getElem?_foldl_insert_of_notMem ?_
  rwa [List.map_fst_zip hcount]

/-- Beyond the parameters any arguments will do. -/
theorem bind?_take_append (h : f.bind? arguments = some scope) (others : List Float) :
    f.bind? (arguments.take f.params.length ++ others) = some scope := by
  obtain ⟨hcount, hscope⟩ := bind?_eq_some_iff.1 h
  have htake : f.params.length = (arguments.take f.params.length).length := by
    rw [List.length_take, Nat.min_eq_left hcount]
  have hzip : ∀ xs : List Float, f.params.zip (arguments.take f.params.length ++ xs) =
      f.params.zip (arguments.take f.params.length) := by
    intro xs
    have happend : (f.params ++ []).zip (arguments.take f.params.length ++ xs) =
        f.params.zip (arguments.take f.params.length) ++ [].zip xs := List.zip_append htake
    rwa [List.append_nil, List.zip_nil_left, List.append_nil] at happend
  refine bind?_eq_some_iff.2 ⟨?_, ?_⟩
  · rw [List.length_append, ← htake]
    exact Nat.le_add_right _ _
  · rw [hzip, ← hzip (arguments.drop f.params.length), List.take_append_drop, hscope]

end Closure

/-! ### Bodies in their scopes -/

theorem Term.map_outcome_demand {t : Term} (ht : t.hasValue) (rule : CallRule) (m : Machine) :
    (runOn (t.demand (t.evalWith rule)) m).1.map some = (runOn (t.evalWith rule) m).1 := by
  rw [runOn_demand_of_hasValue ht]
  rcases hrun : runOn (t.evalWith rule) m with ⟨e | _ | x, m'⟩
  · rfl
  · cases yields_evalWith (not_isDeclaration_of_hasValue ht) _ _ _ hrun
  · rfl

theorem Term.outcome_apply {f : Closure} {xs : List Float} {scope : Variables}
    (h : f.bind? xs = some scope) (rule : CallRule) (name : String) (m : Machine) :
    (runOn (apply rule name f xs) m).1 = (runOn (rule name f xs scope) m).1.map some := by
  rw [apply, h, runOn_bind]
  rcases runOn (rule name f xs scope) m with ⟨_ | _, _⟩ <;> rfl

namespace Evaluator

variable {e : Evaluator} {env : Environment}

/-- The outcome of a call whose body runs in the given scope, one call deeper. -/
def outcomeIn (e : Evaluator) (functions : Functions) (name : String) (body : Term)
    (scope : Variables) : Except RuntimeError (Option Float) :=
  if e.limit ≤ e.depth then .error (.recursionLimit name e.limit)
  else if body.hasValue then
    (Evaluator.evaluate { e with depth := e.depth + 1 } ⟨scope, functions⟩ body).outcome
  else .error (.missingValue body.render)

theorem functions_evaluate_call (e : Evaluator) (env : Environment) (name : String)
    (arguments : List Term) :
    (e.evaluate env (.call name arguments)).environment.functions = env.functions := by
  rw [Session.evaluate_eq ⟨env, e⟩]
  have hkeeps : Keeps Machine.calls ((Term.call name arguments).evalWith _) :=
    Term.keeps_calls (Term.keeps_callRule e.limit (e.limit - e.depth)) Bool.false_ne_true
  exact congrArg Prod.fst (hkeeps (Session.machine ⟨env, e⟩))

/-- A call on a machine with these functions and this depth is its body in the scope. -/
theorem map_outcome_callRule {m : Machine} (hfunctions : m.functions = env.functions)
    (hdepth : m.depth = e.depth) (name : String) (f : Closure) (xs : List Float)
    (scope : Variables) :
    (runOn (Term.callRule e.limit (e.limit - e.depth) name f xs scope) m).1.map some =
      e.outcomeIn env.functions name f.body scope := by
  rw [outcomeIn]
  split
  case isTrue hlimit =>
    rw [Nat.sub_eq_zero_of_le hlimit]
    rfl
  case isFalse hlimit =>
    have hbudget : e.limit - e.depth = e.limit - (e.depth + 1) + 1 := by omega
    rw [hbudget, Term.callRule, runOn_inCall]
    split
    case isFalse hvalue =>
      rw [Term.demand, if_neg hvalue]
      rfl
    case isTrue hvalue =>
      -- the events before the call make no difference to the body
      let inner : Session := ⟨⟨scope, env.functions⟩, { e with depth := e.depth + 1 }⟩
      have hsame : SameState (m.enter name xs scope) inner.machine :=
        SameState.iff_fields.2 ⟨rfl, hfunctions, congrArg (· + 1) hdepth⟩
      have hbody := Term.not_isDeclaration_of_hasValue hvalue
      have hruns := Term.simulates_evalWith (Term.respects_sameState
        (Term.simulates_callRule_of_sameState e.limit (e.limit - (e.depth + 1))) f.body) hbody
      rw [Session.evaluate_eq inner, Term.eval_eq_evalWith, Term.map_outcome_demand hvalue]
      exact hruns.outcome_eq hsame

theorem outcome_call {name : String} {f : Closure} {ts : List Term} {xs : List Float}
    {scope : Variables} (hf : env.functions[name]? = some f) (hvalues : e.values env ts = .ok xs)
    (hscope : f.bind? xs = some scope) :
    (e.evaluate env (.call name ts)).outcome = e.outcomeIn env.functions name f.body scope := by
  have hkeeps : Keeps Machine.calls (Term.valuesWith (Session.callRule ⟨env, e⟩) ts) :=
    Term.keeps_valuesWith fun _ _ => Term.keeps_demand (Term.keeps_calls (Term.keeps_callRule _ _))
  have hcalls := hkeeps (Session.machine ⟨env, e⟩)
  rw [Session.evaluate_eq ⟨env, e⟩]
  rw [values] at hvalues
  rcases hrun : runOn (Term.valuesWith (Session.callRule ⟨env, e⟩) ts) (Session.machine ⟨env, e⟩)
    with ⟨r, m⟩
  rw [hrun] at hvalues hcalls
  obtain rfl : r = .ok xs := hvalues
  simp only [Term.runOn_call, show (Session.machine ⟨env, e⟩).functions[name]? = some f from hf,
    runOn_bind, hrun, Term.outcome_apply hscope]
  exact map_outcome_callRule (congrArg Prod.fst hcalls) (congrArg Prod.snd hcalls) name f xs scope

end Evaluator

/-- There is a scope exactly if there are enough arguments. A name among the parameters has the
argument at its last place there, any other name has what was captured, and arguments beyond the
parameters make no difference. A call is the body run in this scope. It leaves the function with
what it captured in place, and so a second call is the body run in this scope again, whatever the
first one has assigned and whether or not it has failed. -/
theorem Closure.bind?_scopes_calls (f : Closure) (arguments : List Float) :
    ((f.bind? arguments).isSome ↔ f.params.length ≤ arguments.length) ∧
    ∀ scope, f.bind? arguments = some scope →
      (∀ i name, f.params[i]? = some name → name ∉ f.params.drop (i + 1) →
        ∃ x, arguments[i]? = some x ∧ scope[name]? = some x) ∧
      (∀ name, name ∉ f.params → scope[name]? = f.captured[name]?) ∧
      (∀ others, f.bind? (arguments.take f.params.length ++ others) = some scope) ∧
      ∀ (e : Evaluator) (env : Environment) (name : String), env.functions[name]? = some f →
        (∀ ts, e.values env ts = .ok arguments →
          (e.evaluate env (.call name ts)).outcome =
            e.outcomeIn env.functions name f.body scope) ∧
        ∀ first, let ran := e.evaluate env (.call name first)
          ran.environment.functions[name]? = some f ∧
          ∀ ts, ran.evaluator.values ran.environment ts = .ok arguments →
            (ran.evaluator.evaluate ran.environment (.call name ts)).outcome =
              e.outcomeIn env.functions name f.body scope := by
  refine ⟨isSome_bind?_iff, fun scope hscope => ⟨fun i name => getElem?_of_bind? hscope,
    fun name => getElem?_of_bind?_of_notMem hscope, bind?_take_append hscope, ?_⟩⟩
  intro e env name hf
  refine ⟨fun ts hvalues => Evaluator.outcome_call hf hvalues hscope, fun first => ?_⟩
  intro ran
  have hevaluator : ran.evaluator = e := e.evaluator_evaluate env _
  have hfunctions : ran.environment.functions = env.functions :=
    e.functions_evaluate_call env name first
  rw [hevaluator, ← hfunctions]
  rw [← hfunctions] at hf
  exact ⟨hf, fun ts hvalues => Evaluator.outcome_call hf hvalues hscope⟩

/-- The parameter `x` stands twice, and the body assigns to a variable that was captured. -/
def Closure.repeated : Closure :=
  ⟨["x", "y", "x"], .assign "k" (.chain [.var "x", .var "k"] [.mul]),
    (∅ : Variables).insert "k" 4.5⟩

theorem Closure.repeated_bind?_scopes_calls :
    let env : Environment := Environment.setFunction {} "f" repeated
    let ts : List Term := [.number "1.5", .number "2.5", .number "3.5", .number "0.5"]
    let ran := Evaluator.evaluate {} env (.call "f" ts)
    ∃ scope, repeated.bind? [1.5, 2.5, 3.5, 0.5] = some scope ∧
      scope["x"]? = some 3.5 ∧ scope["k"]? = some 4.5 ∧
      repeated.bind? [1.5, 2.5, 3.5] = some scope ∧ ran.outcome = .ok (some (3.5 * 4.5)) ∧
      (ran.evaluator.evaluate ran.environment (.call "f" ts)).outcome = ran.outcome := by
  intro env ts ran
  obtain ⟨henough, hscopes⟩ := bind?_scopes_calls repeated [1.5, 2.5, 3.5, 0.5]
  obtain ⟨scope, hscope⟩ := Option.isSome_iff_exists.1 (henough.2 (by decide))
  obtain ⟨hlast, hcaptured, hexcess, hcalls⟩ := hscopes scope hscope
  obtain ⟨hfirst, hsecond⟩ := hcalls {} env "f" rfl
  obtain ⟨_, ⟨⟩, hx⟩ := hlast 2 "x" rfl (by decide)
  refine ⟨scope, hscope, hx, hcaptured "k" (by decide), hexcess [], rfl, ?_⟩
  exact ((hsecond ts).2 ts rfl).trans (hfirst ts rfl).symm

end ChainCalc
