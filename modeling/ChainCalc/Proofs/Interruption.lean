import ChainCalc.Proofs.Simulation

/-!
# What a failed term has stored

A term stores as it goes and takes nothing back. `Term.assignments` lists the names that it assigns
to, in the order of running, and `EvalM.Stores names x` says that `x` assigns to `names` in turn:
all of them if it succeeds, and up to some place if it fails. Two computations in a row store one
list after the other, so the order in the term is that of the run (`Term.stores_evalWith`). Calls
store nothing, since what a body assigns is gone with its scope.

A failure therefore leaves the variables that were assigned before it. The targets of the whole are
not among them, so only assignments further inside show (`Term.runOn_error_stored`). The reader of
statements never puts any there.
-/

namespace ChainCalc

open EvalM

/-- Sets variables one after the other. -/
def Environment.setEach (env : Environment) (values : List (String × Float)) : Environment :=
  values.foldl (fun env p => env.setVariable p.1 p.2) env

namespace Environment

theorem setEach_append (env : Environment) (values more : List (String × Float)) :
    env.setEach (values ++ more) = (env.setEach values).setEach more :=
  List.foldl_append

theorem functions_setEach (env : Environment) (values : List (String × Float)) :
    (env.setEach values).functions = env.functions := by
  induction values generalizing env with
  | nil => rfl
  | cons p values ih => exact ih (env.setVariable p.1 p.2)

end Environment

namespace EvalM

variable {α β : Type} {names more : List String}

/-- How a run that started in `env` may end: all of `names` are assigned, or it has failed when some
of them were. -/
inductive Stored (env : Environment) (names : List String) :
    Except RuntimeError α × Machine → Prop
  | all (a : α) {m : Machine} (done : List (String × Float)) (hm : m.environment = env.setEach done)
      (hdone : done.map Prod.fst = names) : Stored env names (.ok a, m)
  | failed (e : RuntimeError) {m : Machine} (done : List (String × Float))
      (hm : m.environment = env.setEach done) (hdone : done.map Prod.fst <+: names) :
      Stored env names (.error e, m)

/-- Running `x` assigns to `names` in turn, up to where it fails. -/
def Stores (names : List String) (x : EvalM α) : Prop :=
  ∀ m, Stored m.environment names (runOn x m)

namespace Stores

theorem pure (a : α) : Stores [] (Pure.pure a : EvalM α) := fun _ => .all a [] rfl rfl

theorem throw (e : RuntimeError) : Stores names (MonadExcept.throw e : EvalM α) :=
  fun _ => .failed e [] rfl List.nil_prefix

theorem ofExcept (r : Except RuntimeError α) : Stores [] (MonadExcept.ofExcept r : EvalM α) := by
  intro m
  rw [runOn_ofExcept]
  cases r with
  | ok a => exact .all a [] rfl rfl
  | error e => exact .failed e [] rfl List.nil_prefix

theorem assign (name : String) (x : Float) :
    Stores [name] (modify (·.assign name x) : EvalM PUnit) :=
  fun _ => .all PUnit.unit [(name, x)] rfl rfl

theorem of_keeps {x : EvalM α} (h : Keeps Machine.state x) : Stores [] x := by
  intro m
  have hstate := h m
  rcases hrun : runOn x m with ⟨r, m'⟩
  rw [hrun] at hstate
  have henv : m'.environment = m.environment :=
    congrArg (fun s : Variables × Functions × Nat => (⟨s.1, s.2.1⟩ : Environment)) hstate
  cases r with
  | ok a => exact .all a [] henv rfl
  | error e => exact .failed e [] henv List.nil_prefix

theorem get_bind {k : Machine → EvalM α} (h : ∀ m, Stores names (k m)) :
    Stores names (MonadState.get >>= k) :=
  fun m => h m m

theorem bind {x : EvalM α} {k : α → EvalM β} (hx : Stores names x) (hk : ∀ a, Stores more (k a)) :
    Stores (names ++ more) (x >>= k) := by
  intro m
  have hends := hx m
  rw [runOn_bind]
  generalize runOn x m = p at hends ⊢
  cases hends with
  | failed e done hm hdone => exact .failed e done hm (hdone.trans (List.prefix_append names more))
  | @all a m' done hm hdone =>
    have hnext := hk a m'
    rw [hm] at hnext
    show Stored m.environment (names ++ more) (runOn (k a) m')
    generalize runOn (k a) m' = q at hnext ⊢
    subst hdone
    cases hnext with
    | all b done' hm' hdone' =>
      refine .all b (done ++ done') ?_ ?_
      · rw [hm', Environment.setEach_append]
      · rw [List.map_append, hdone']
    | failed e done' hm' hdone' =>
      refine .failed e (done ++ done') ?_ ?_
      · rw [hm', Environment.setEach_append]
      · rw [List.map_append]
        exact (List.prefix_append_right_inj _).2 hdone'

/-- What is done to the result afterwards stores nothing. -/
theorem bind_pure {x : EvalM α} (h : Stores names x) (f : α → β) :
    Stores names (x >>= fun a => Pure.pure (f a)) := by
  have hbind := h.bind fun a => Stores.pure (f a)
  rwa [List.append_nil] at hbind

end Stores

end EvalM

namespace Term

mutual

/-- The names that a term assigns to, in the order in which it is run. -/
def assignments : Term → List String
  | assign name value => value.assignments ++ [name]
  | call _ arguments => assignmentsAll arguments
  | chain operands _ => assignmentsAll operands
  | number _ | var _ | declare .. => []

def assignmentsAll : List Term → List String
  | [] => []
  | t :: ts => t.assignments ++ assignmentsAll ts

end

variable {rule : CallRule}

theorem stores_demand {t : Term} {run : EvalM (Option Float)} {names : List String}
    (h : ¬ t.isDeclaration → Stores names run) : Stores names (t.demand run) := by
  unfold demand
  split
  case isTrue hvalue =>
    have hrun := h (not_isDeclaration_of_hasValue hvalue)
    rw [← List.append_nil names]
    refine hrun.bind fun r => ?_
    cases r with
    | none => exact .throw _
    | some x => exact .pure x
  case isFalse => exact .throw _

theorem stores_valuesWith {ts : List Term}
    (h : ∀ t ∈ ts, Stores t.assignments (t.demand (t.evalWith rule))) :
    Stores (assignmentsAll ts) (valuesWith rule ts) := by
  induction ts with
  | nil =>
    unfold valuesWith
    exact .pure []
  | cons t ts ih =>
    obtain ⟨ht, hts⟩ := List.forall_mem_cons.1 h
    unfold valuesWith
    exact ht.bind fun x => (ih hts).bind_pure (x :: ·)

theorem stores_linksWith {ts : List Term}
    (h : ∀ t ∈ ts, Stores t.assignments (t.demand (t.evalWith rule))) {operators : List Operator}
    (hlength : operators.length = ts.length) (x : Float) :
    Stores (assignmentsAll ts) (linksWith rule x ts operators) := by
  induction ts generalizing x operators with
  | nil =>
    unfold linksWith
    exact .pure x
  | cons t ts ih =>
    cases operators with
    | nil => cases hlength
    | cons op operators =>
      obtain ⟨ht, hts⟩ := List.forall_mem_cons.1 h
      unfold linksWith
      refine ht.bind fun right => ?_
      exact (Stores.ofExcept _).bind fun y => ih hts (Nat.succ.inj hlength) y

/-- A term that is no declaration assigns in the order of `assignments`, if calls store nothing. A
chain with too few operators assigns nothing, as it is refused before its operands are run. -/
theorem stores_evalWith (hrule : ∀ name f xs scope, Keeps Machine.state (rule name f xs scope))
    {t : Term} (ht : ¬ t.isDeclaration) : Stores t.assignments (t.evalWith rule) := by
  induction t using Term.induction with
  | number text =>
    unfold evalWith
    exact (Stores.ofExcept _).bind_pure some
  | var name =>
    unfold evalWith
    refine .get_bind fun m => ?_
    split
    · exact .pure _
    · exact .throw _
  | assign name value ih =>
    unfold evalWith
    refine (stores_demand ih).bind fun x => ?_
    exact (Stores.assign name x).bind_pure fun _ => some x
  | declare name params body => exact absurd rfl ht
  | call name arguments ih =>
    have hvalues := stores_valuesWith fun t ht => stores_demand (ih t ht)
    unfold evalWith
    refine .get_bind fun m => ?_
    split
    · exact .throw _
    · rw [assignments, ← List.append_nil (assignmentsAll arguments)]
      refine hvalues.bind fun xs => ?_
      split
      · exact .throw _
      · exact (Stores.of_keeps (hrule _ _ _ _)).bind_pure some
  | chain operands operators ih =>
    have hoperands : ∀ t ∈ operands, Stores t.assignments (t.demand (t.evalWith rule)) :=
      fun t ht => stores_demand (ih t ht)
    cases operands with
    | nil =>
      unfold evalWith
      exact .throw _
    | cons t ts =>
      obtain ⟨ht, hts⟩ := List.forall_mem_cons.1 hoperands
      unfold evalWith
      split
      · rename_i hwell
        have hlength : operators.length = ts.length := by simpa [wellFormedChain] using hwell
        exact ht.bind fun x => (stores_linksWith hts hlength x).bind_pure some
      · exact .throw _

/-- What cannot have a value declares a function, or is refused before anything is run. -/
theorem runOn_of_not_hasValue {t : Term} (ht : ¬ t.hasValue) (m : Machine) :
    (∃ m', runOn (t.evalWith rule) m = (.ok none, m')) ∨
      ∃ e, runOn (t.evalWith rule) m = (.error e, m) := by
  cases t with
  | declare name params body => exact .inl ⟨m.declare name params body, rfl⟩
  | assign name value =>
    have hvalue : ¬ value.hasValue := ht
    exact .inr ⟨_, runOn_assign_of_not_hasValue name hvalue⟩
  | number | var | call | chain => exact absurd rfl ht

theorem hasValue_of_runOn {t : Term} {m m' : Machine} {x : Float}
    (h : runOn (t.evalWith rule) m = (.ok (some x), m')) : t.hasValue := by
  by_contra hnone
  rcases runOn_of_not_hasValue hnone m with ⟨_, hrun⟩ | ⟨_, hrun⟩ <;> rw [hrun] at h <;> cases h

/-- A failure leaves what was assigned before it, further inside than the targets. -/
theorem runOn_error_stored (hrule : ∀ name f xs scope, Keeps Machine.state (rule name f xs scope))
    {t : Term} {m m' : Machine} {e : RuntimeError}
    (h : runOn (t.evalWith rule) m = (.error e, m')) :
    ∃ done : List (String × Float),
      m'.environment = m.environment.setEach done ∧ done.map Prod.fst <+: t.core.assignments := by
  by_cases ht : t.hasValue
  · have hcore : ¬ t.core.isDeclaration :=
      not_isDeclaration_of_hasValue (t.hasValue_core.trans ht)
    have hstored := stores_evalWith hrule hcore m
    rcases hrun : runOn (t.core.evalWith rule) m with ⟨e' | r, m''⟩
    · rw [runOn_of_core_error ht hrun] at h
      cases h
      rw [hrun] at hstored
      cases hstored with
      | failed _ done hm hdone => exact ⟨done, hm, hdone⟩
    · obtain ⟨x, rfl⟩ := Option.isSome_iff_exists.1 (yields_evalWith hcore _ _ _ hrun)
      rw [runOn_of_core ht hrun] at h
      cases h
  · rcases runOn_of_not_hasValue ht m with ⟨m'', hrun⟩ | ⟨e', hrun⟩ <;> rw [hrun] at h <;> cases h
    exact ⟨[], rfl, List.nil_prefix⟩

theorem runOn_chain_of_error {t first : Term} {m m' m'' : Machine} {x : Float} {e : RuntimeError}
    (op : Operator) (hfirst : runOn (first.evalWith rule) m = (.ok (some x), m'))
    (ht : t.hasValue) (h : runOn (t.evalWith rule) m' = (.error e, m'')) :
    runOn ((chain [first, t] [op]).evalWith rule) m = (.error e, m'') := by
  have hlinks : runOn (linksWith rule x [t] [op]) m' = (.error e, m'') := by
    rw [linksWith, runOn_bind, runOn_demand_of_hasValue ht, h]
  have hwell : wellFormedChain [first, t] [op] := rfl
  rw [evalWith, if_pos hwell, runOn_bind, runOn_demand_of_hasValue (hasValue_of_runOn hfirst), hfirst]
  show runOn (linksWith rule x [t] [op] >>= _) m' = _
  rw [runOn_bind, hlinks]

end Term

/-! ### Runs do not look back -/

namespace Machine

/-- Machines that differ at most in the events so far. -/
def SameState (m n : Machine) : Prop := m.state = n.state

namespace SameState

variable {m n m' n' : Machine}

theorem iff_fields :
    SameState m n ↔ m.vars = n.vars ∧ m.functions = n.functions ∧ m.depth = n.depth := by
  simp [SameState, state]

theorem assign (h : SameState m n) (name : String) (x : Float) :
    SameState (m.assign name x) (n.assign name x) := by
  obtain ⟨hvars, hfunctions, hdepth⟩ := iff_fields.1 h
  exact iff_fields.2 ⟨congrArg (·.insert name x) hvars, hfunctions, hdepth⟩

theorem enter (h : SameState m n) (name : String) (xs : List Float) (scope : Variables) :
    SameState (m.enter name xs scope) (n.enter name xs scope) := by
  obtain ⟨-, hfunctions, hdepth⟩ := iff_fields.1 h
  exact iff_fields.2 ⟨rfl, hfunctions, congrArg (· + 1) hdepth⟩

theorem leave (h : SameState m n) (h' : SameState m' n') :
    SameState (m'.leave m.vars) (n'.leave n.vars) := by
  obtain ⟨hvars, -⟩ := iff_fields.1 h
  obtain ⟨-, hfunctions, hdepth⟩ := iff_fields.1 h'
  exact iff_fields.2 ⟨hvars, hfunctions, congrArg (· - 1) hdepth⟩

theorem environment_eq (h : SameState m n) : m.environment = n.environment := by
  obtain ⟨hvars, hfunctions, -⟩ := iff_fields.1 h
  rw [environment, environment, hvars, hfunctions]

end SameState

end Machine

open Machine (SameState)

namespace Term

theorem respects_sameState {rule : CallRule}
    (h : ∀ f c xs scope, Simulates SameState (fun _ => False) (rule f c xs scope)
      (rule f c xs scope)) (t : Term) : Respects SameState (fun _ => False) rule rule t where
  vars m n hmn name _ := by rw [(SameState.iff_fields.1 hmn).1]
  assign m n hmn name _ x := hmn.assign name x
  functions m n hmn f _ := by rw [(SameState.iff_fields.1 hmn).2.1]
  call _ _ _ f c _ _ := h f c

/-- A call does the same whatever events there were before it. The induction is on the calls that
may still be nested. -/
theorem simulates_callRule_of_sameState (limit budget : Nat) (name : String) (f : Closure)
    (xs : List Float) (scope : Variables) :
    Simulates SameState (fun _ => False) (callRule limit budget name f xs scope)
      (callRule limit budget name f xs scope) := by
  induction budget generalizing name f xs scope with
  | zero => exact .throw _
  | succ budget ih =>
    have hbody : Simulates SameState (fun _ => False)
        (f.body.demand (f.body.eval limit budget)) (f.body.demand (f.body.eval limit budget)) := by
      refine simulates_demand fun hdeclaration => ?_
      rw [eval_eq_evalWith]
      exact simulates_evalWith (respects_sameState ih f.body) hdeclaration
    exact hbody.inCall (fun _ _ h => h.enter name xs scope) fun _ _ _ _ h h' => h.leave h'

end Term

namespace Evaluator

variable {e : Evaluator} {env before : Environment} {t first : Term} {err : RuntimeError}

/-- A second operand starts from what the first one has left, and its failure ends the chain
there. -/
theorem evaluate_chain_of_error {x : Float} (op : Operator)
    (hfirst : (e.evaluate before first).outcome = .ok (some x))
    (henv : (e.evaluate before first).environment = env) (ht : t.hasValue)
    (h : (e.evaluate env t).outcome = .error err) :
    (e.evaluate before (.chain [first, t] [op])).outcome = .error err ∧
      (e.evaluate before (.chain [first, t] [op])).environment =
        (e.evaluate env t).environment := by
  rw [Session.evaluate_eq ⟨before, e⟩] at hfirst henv ⊢
  rw [Session.evaluate_eq ⟨env, e⟩] at h ⊢
  rcases hrun : runOn (first.evalWith (Session.callRule ⟨before, e⟩))
    (Session.machine ⟨before, e⟩) with ⟨r, m⟩
  rw [hrun] at hfirst henv
  obtain rfl : r = .ok (some x) := hfirst
  have hsame : SameState m (Session.machine ⟨env, e⟩) := by
    have hcalls := Term.keeps_calls (Term.keeps_callRule e.limit (e.limit - e.depth))
      (Term.not_isDeclaration_of_hasValue (Term.hasValue_of_runOn hrun))
      (Session.machine ⟨before, e⟩)
    rw [show runOn (first.evalWith (Term.callRule e.limit (e.limit - e.depth))) _ = _ from hrun]
      at hcalls
    have hdepth : m.depth = e.depth := congrArg Prod.snd hcalls
    subst henv
    exact SameState.iff_fields.2 ⟨rfl, rfl, hdepth⟩
  have hruns := Term.simulates_evalWith (Term.respects_sameState
    (Term.simulates_callRule_of_sameState e.limit (e.limit - e.depth)) t)
    (Term.not_isDeclaration_of_hasValue ht)
  have hsecond : (runOn (t.evalWith (Session.callRule ⟨before, e⟩)) m).1 = .error err :=
    (hruns.outcome_eq hsame).trans h
  rw [Term.runOn_chain_of_error op hrun ht (Prod.ext hsecond rfl)]
  exact ⟨rfl, (hruns.related hsame).environment_eq⟩

/-- A failed term leaves the functions as they were, and of the variables those that were assigned
before the failure are new: some first part of the assignments inside of its core, which are none in
a statement that was read. Nothing of it is taken back, neither by the term nor by a chain that
fails with it. -/
theorem environment_of_evaluate_error (e : Evaluator) (env : Environment) (t : Term)
    {err : RuntimeError} (h : (e.evaluate env t).outcome = .error err) :
    (e.evaluate env t).environment.functions = env.functions ∧
      (∃ done : List (String × Float), (e.evaluate env t).environment = env.setEach done ∧
        done.map Prod.fst <+: t.core.assignments) ∧
      (t.core.assignments = [] → (e.evaluate env t).environment = env) ∧
      ∀ before first x op, t.hasValue → (e.evaluate before first).outcome = .ok (some x) →
        (e.evaluate before first).environment = env →
        (e.evaluate before (.chain [first, t] [op])).outcome = .error err ∧
          (e.evaluate before (.chain [first, t] [op])).environment =
            (e.evaluate env t).environment := by
  have hdone : ∃ done : List (String × Float), (e.evaluate env t).environment = env.setEach done ∧
      done.map Prod.fst <+: t.core.assignments := by
    rw [Session.evaluate_eq ⟨env, e⟩] at h ⊢
    exact Term.runOn_error_stored (Term.keeps_callRule e.limit (e.limit - e.depth))
      (Prod.ext h rfl)
  refine ⟨?_, hdone, fun hnone => ?_, fun before first x op ht hfirst henv => ?_⟩
  · obtain ⟨done, henv, -⟩ := hdone
    rw [henv, Environment.functions_setEach]
  · obtain ⟨done, henv, hprefix⟩ := hdone
    rw [hnone, List.prefix_nil, List.map_eq_nil_iff] at hprefix
    rw [henv, hprefix]
    rfl
  · exact evaluate_chain_of_error op hfirst henv ht h

/-- The last argument has no value, after the ones before it have assigned `x`, `y` and `x` again. -/
def halfway : Term :=
  .assign "z" (.call "f" [.assign "x" (.number "1.5"), .assign "x" (.assign "y" (.number "2.5")),
    .assign "u" (.var "v")])

theorem halfway_environment_of_evaluate_error :
    let before : Environment := Environment.setFunction {} "f" ⟨["a", "b"], .var "a", ∅⟩
    let env := before.setVariable "x" 0.5
    let chain : Term := .chain [.assign "x" (.number "0.5"), halfway] [.mul]
    (evaluate {} env halfway).outcome = .error (.unknownVariable "v") ∧
      halfway.core.assignments = ["x", "y", "x", "u"] ∧
      (evaluate {} env halfway).environment = env.setEach [("x", 1.5), ("y", 2.5), ("x", 2.5)] ∧
      (evaluate {} env halfway).environment.functions = env.functions ∧
      (evaluate {} before chain).outcome = .error (.unknownVariable "v") ∧
      (evaluate {} before chain).environment = (evaluate {} env halfway).environment := by
  intro before env chain
  have hout : (evaluate {} env halfway).outcome = .error (.unknownVariable "v") := rfl
  obtain ⟨hfunctions, -, -, hchain⟩ := environment_of_evaluate_error {} env halfway hout
  exact ⟨hout, rfl, rfl, hfunctions, hchain before (.assign "x" (.number "0.5")) _ .mul rfl rfl rfl⟩

/-- Here a chain has failed, and yet `x` is set. -/
theorem failed_chain_has_stored :
    let t : Term := .chain [.assign "x" (.number "1"), .var "y"] [.add]
    (evaluate {} {} t).outcome = .error (.unknownVariable "y") ∧
      (evaluate {} {} t).environment ≠ {} := by
  intro t
  have hset : (evaluate {} {} t).environment.vars["x"]?.isSome := rfl
  refine ⟨rfl, fun h => ?_⟩
  rw [h] at hset
  cases hset

end Evaluator

end ChainCalc
