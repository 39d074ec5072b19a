import ChainCalc.Proofs.RaisedLimit

/-!
# The counter of the calls in progress

`Term.eval` recurses on the number of calls that may still be nested. Beside it stands here a run
that goes by the counter of the machine alone: a call is refused when the counter has reached the
limit, and otherwise counts up before its body and down after it. Each step of the counter is
watched, and `alarm` takes over the run when the counter goes over the limit, does not fit its word,
would go below zero, or does not come back to where it was before the call.

The two runs are the same whatever `alarm` does (`Evaluator.evaluate_eq_evaluateCounted`), so there
is never an alarm. The reason is that a term calls functions only while the counter is where it was
when the term was started, at whatever depth a call in it has failed. Evaluations one after the
other therefore all start with the counter at zero (`Evaluator.evaluateAll_leaks_no_depth`).
-/

namespace ChainCalc

open EvalM

/-- A call that goes by the counter, which is kept in a word with `size` values. -/
def EvalM.inCountedCall (alarm : EvalM Float) (size limit : Nat) (name : String)
    (arguments : List Float) (scope : Variables) (body : EvalM Float) : EvalM Float :=
  ExceptT.mk do
    let caller ← get
    if limit ≤ caller.depth then return .error (.recursionLimit name limit)
    else if caller.depth + 1 ≤ limit ∧ caller.depth + 1 < size then
      set (caller.enter name arguments scope)
      let result ← body.run
      let callee ← get
      if 0 < callee.depth ∧ callee.depth - 1 = caller.depth then
        set (callee.leave caller.vars)
        return result
      else alarm.run
    else alarm.run

/-- Calls that go by the counter. They are nested less than `fuel` deep, or else there is an
alarm. -/
def Term.countedRule (alarm : EvalM Float) (size limit : Nat) : (fuel : Nat) → CallRule
  | 0 => fun _ _ _ _ => alarm
  | fuel + 1 => fun name f arguments scope =>
    .inCountedCall alarm size limit name arguments scope
      (f.body.demand (f.body.evalWith (countedRule alarm size limit fuel)))

/-! ### What a call finds and leaves -/

/-- Two equal machines whose counter is at `depth`, and whose calls so far were all made below the
limit. -/
structure Machine.CountedTo (limit depth : Nat) (m n : Machine) : Prop where
  same : m = n
  depth_eq : m.depth = depth
  calls : ∀ name xs k, .calling name xs k ∈ m.trace → k < limit

namespace Machine.CountedTo

variable {limit depth : Nat} {m n m' n' : Machine}

theorem assign (h : CountedTo limit depth m n) (name : String) (x : Float) :
    CountedTo limit depth (m.assign name x) (n.assign name x) := by
  obtain ⟨rfl, hdepth, hcalls⟩ := h
  refine ⟨rfl, hdepth, fun f xs k hk => ?_⟩
  rcases List.mem_cons.1 hk with hk | hk
  · cases hk
  · exact hcalls f xs k hk

theorem enter (h : CountedTo limit depth m n) (hlt : depth < limit) (name : String)
    (xs : List Float) (scope : Variables) :
    CountedTo limit (depth + 1) (m.enter name xs scope) (n.enter name xs scope) := by
  obtain ⟨rfl, rfl, hcalls⟩ := h
  refine ⟨rfl, rfl, fun f ys k hk => ?_⟩
  rcases List.mem_cons.1 hk with hk | hk
  · cases hk
    exact hlt
  · exact hcalls f ys k hk

theorem leave (h : CountedTo limit depth m n) (h' : CountedTo limit (depth + 1) m' n') :
    CountedTo limit depth (m'.leave m.vars) (n'.leave n.vars) := by
  obtain ⟨rfl, -, -⟩ := h
  obtain ⟨rfl, hdepth, hcalls⟩ := h'
  have hback : (m'.leave m.vars).depth = depth := by
    simp [Machine.leave, hdepth]
  exact ⟨rfl, hback, hcalls⟩

end Machine.CountedTo

open Machine (CountedTo)

namespace EvalM

variable {alarm : EvalM Float} {size limit depth : Nat} {name : String} {xs : List Float}
  {scope : Variables} {body : EvalM Float} {m : Machine}

theorem runOn_inCountedCall_of_le (h : limit ≤ m.depth) :
    runOn (inCountedCall alarm size limit name xs scope body) m =
      (.error (.recursionLimit name limit), m) := by
  show (if limit ≤ m.depth then _ else _ : StateM Machine _).run m = _
  rw [if_pos h]
  rfl

theorem runOn_inCountedCall_of_lt (hlt : m.depth < limit) (hsize : limit < size)
    (hbody : (runOn body (m.enter name xs scope)).2.depth = m.depth + 1) :
    runOn (inCountedCall alarm size limit name xs scope body) m =
      runOn (inCall name xs scope body) m := by
  have hup : m.depth + 1 ≤ limit ∧ m.depth + 1 < size := by omega
  have hdown : 0 < (runOn body (m.enter name xs scope)).2.depth ∧
      (runOn body (m.enter name xs scope)).2.depth - 1 = m.depth := by omega
  show (if limit ≤ m.depth then _ else if m.depth + 1 ≤ limit ∧ m.depth + 1 < size then _ else _ :
    StateM Machine _).run m = _
  rw [if_neg (Nat.not_le.2 hlt), if_pos hup]
  show (if 0 < (runOn body (m.enter name xs scope)).2.depth ∧
      (runOn body (m.enter name xs scope)).2.depth - 1 = m.depth then _ else _ :
    StateM Machine _).run (runOn body (m.enter name xs scope)).2 = _
  rw [if_pos hdown]
  rfl

theorem Simulates.inCountedCall {body' : EvalM Float} (hlt : depth < limit) (hsize : limit < size)
    (h : Simulates (CountedTo limit (depth + 1)) (fun _ => False) body body') :
    Simulates (CountedTo limit depth) (fun _ => False) (EvalM.inCall name xs scope body)
      (EvalM.inCountedCall alarm size limit name xs scope body') := by
  intro m n hmn
  have hdepth : n.depth = depth := by rw [← hmn.same, hmn.depth_eq]
  have hended := h.related (hmn.enter hlt name xs scope)
  -- the counter stands one higher when the body ends, so counting down raises no alarm
  have hbody : (runOn body' (n.enter name xs scope)).2.depth = n.depth + 1 := by
    rw [← hended.same, hended.depth_eq, hdepth]
  rw [runOn_inCountedCall_of_lt (by omega) hsize hbody]
  exact h.inCall (fun _ _ hmn => hmn.enter hlt name xs scope) (fun _ _ _ _ hmn => hmn.leave) m n hmn

end EvalM

namespace Term

variable {size limit depth : Nat}

theorem respects_countedTo {rule rule' : CallRule}
    (h : ∀ f c xs scope, Simulates (CountedTo limit depth) (fun _ => False) (rule f c xs scope)
      (rule' f c xs scope)) (t : Term) :
    Respects (CountedTo limit depth) (fun _ => False) rule rule' t where
  vars m n hmn name _ := by rw [hmn.same]
  assign m n hmn name _ x := hmn.assign name x
  functions m n hmn f _ := by rw [hmn.same]
  call _ _ _ f c _ _ := h f c

/-- The budget of a call is what the counter has left up to the limit. The induction is on the fuel;
a body is run with one unit less and the counter one higher. -/
theorem simulates_countedRule (alarm : EvalM Float) (hsize : limit < size) {fuel : Nat}
    (hfuel : limit - depth < fuel) (f : String) (c : Closure) (xs : List Float)
    (scope : Variables) :
    Simulates (CountedTo limit depth) (fun _ => False) (callRule limit (limit - depth) f c xs scope)
      (countedRule alarm size limit fuel f c xs scope) := by
  induction fuel generalizing depth f c xs scope with
  | zero => omega
  | succ fuel ih =>
    by_cases hlt : depth < limit
    · have hbudget : limit - depth = limit - (depth + 1) + 1 := by omega
      rw [hbudget]
      refine Simulates.inCountedCall hlt hsize (simulates_demand fun hdeclaration => ?_)
      rw [eval_eq_evalWith]
      exact simulates_evalWith (respects_countedTo (ih (by omega)) c.body) hdeclaration
    · have hbudget : limit - depth = 0 := by omega
      rw [hbudget]
      intro m n hmn
      have hle : limit ≤ n.depth := by rw [← hmn.same, hmn.depth_eq]; omega
      rw [countedRule, runOn_inCountedCall_of_le hle]
      exact .alike _ hmn

end Term

namespace Evaluator

/-- `evaluate` with calls that go by the counter. -/
def evaluateCounted (alarm : EvalM Float) (size fuel : Nat) (e : Evaluator) (env : Environment)
    (t : Term) : Evaluation :=
  let (outcome, m) := runOn (t.evalWith (Term.countedRule alarm size e.limit fuel))
    (Session.machine ⟨env, e⟩)
  ⟨outcome, m.environment, { e with depth := m.depth }, m.trace.reverse⟩

/-- What `step` makes of terms one after the other: each is run by the evaluator and in the
environment that the one before has left. -/
def evaluateAll (step : Evaluator → Environment → Term → Evaluation) (e : Evaluator)
    (env : Environment) : List Term → List Evaluation
  | [] => []
  | t :: ts =>
    let first := step e env t
    first :: evaluateAll step first.evaluator first.environment ts

section

variable {step step' : Evaluator → Environment → Term → Evaluation} {e : Evaluator}

theorem evaluateAll_congr (hstep : ∀ env t, step e env t = step' e env t)
    (hkeep : ∀ env t, (step e env t).evaluator = e) (env : Environment) (ts : List Term) :
    evaluateAll step e env ts = evaluateAll step' e env ts := by
  induction ts generalizing env with
  | nil => rfl
  | cons t ts ih =>
    simp only [evaluateAll, ← hstep, hkeep]
    rw [ih]

theorem exists_of_mem_evaluateAll (hkeep : ∀ env t, (step e env t).evaluator = e)
    {env : Environment} {ts : List Term} {x : Evaluation} (hx : x ∈ evaluateAll step e env ts) :
    ∃ env t, x = step e env t := by
  induction ts generalizing env with
  | nil => cases hx
  | cons t ts ih =>
    simp only [evaluateAll, hkeep] at hx
    rcases List.mem_cons.1 hx with rfl | hx
    · exact ⟨env, t, rfl⟩
    · exact ih hx

end

/-- A term calls only while the counter is where it was at the start of the term, so the budget and
the counter agree on which calls are refused. -/
theorem runOn_counted (e : Evaluator) (env : Environment) {t : Term} (ht : ¬ t.isDeclaration)
    (alarm : EvalM Float) {size fuel : Nat} (hsize : e.limit < size)
    (hfuel : e.limit - e.depth < fuel) :
    let p := runOn (t.evalWith (Session.callRule ⟨env, e⟩)) (Session.machine ⟨env, e⟩)
    p = runOn (t.evalWith (Term.countedRule alarm size e.limit fuel)) (Session.machine ⟨env, e⟩) ∧
      ∀ name xs k, .calling name xs k ∈ p.2.trace → k < e.limit := by
  have hstart : CountedTo e.limit e.depth (Session.machine ⟨env, e⟩) (Session.machine ⟨env, e⟩) :=
    ⟨rfl, rfl, fun name xs k hk => absurd hk List.not_mem_nil⟩
  have hcalls := Term.simulates_countedRule alarm hsize hfuel
  have hruns := Term.simulates_evalWith (Term.respects_countedTo hcalls t) ht
  have hended := hruns.related hstart
  exact ⟨Prod.ext (hruns.outcome_eq hstart) hended.same, hended.calls⟩

theorem evaluate_eq_evaluateCounted (e : Evaluator) (env : Environment) (t : Term)
    (alarm : EvalM Float) {size fuel : Nat} (hsize : e.limit < size)
    (hfuel : e.limit - e.depth < fuel) :
    e.evaluate env t = e.evaluateCounted alarm size fuel env t := by
  rw [Session.evaluate_eq ⟨env, e⟩, evaluateCounted]
  by_cases ht : t.isDeclaration
  · obtain ⟨name, params, body, rfl⟩ := Term.exists_eq_declare ht
    rfl
  · rw [(runOn_counted e env ht alarm hsize hfuel).1]

theorem evaluator_evaluate (e : Evaluator) (env : Environment) (t : Term) :
    (e.evaluate env t).evaluator = e := by
  rw [Session.evaluate_eq ⟨env, e⟩]
  by_cases ht : t.isDeclaration
  · obtain ⟨name, params, body, rfl⟩ := Term.exists_eq_declare ht
    rfl
  · have hkeeps := Term.keeps_calls (Term.keeps_callRule e.limit (e.limit - e.depth)) ht
    have hdepth := congrArg Prod.snd (hkeeps (Session.machine ⟨env, e⟩))
    exact congrArg (fun depth => { e with depth }) hdepth

theorem calling_lt_limit {e : Evaluator} {env : Environment} {t : Term} {name : String}
    {xs : List Float} {k : Nat} (h : .calling name xs k ∈ (e.evaluate env t).events) :
    k < e.limit := by
  rw [Session.evaluate_eq ⟨env, e⟩, List.mem_reverse] at h
  by_cases ht : t.isDeclaration
  · obtain ⟨f, params, body, rfl⟩ := Term.exists_eq_declare ht
    rcases List.mem_singleton.1 h with ⟨⟩
  · have hcounted := runOn_counted e env ht (throw .divisionByZero) (Nat.lt_succ_self e.limit)
      (Nat.lt_succ_self (e.limit - e.depth))
    exact hcounted.2 name xs k h

/-- Terms run one after the other by one evaluator give what they give with a new evaluator each, in
whatever depth of calls some of them fail. Throughout, the counter stays up to the limit and so in
any word that holds the limit, never goes below zero, and is back after each call: there is no
alarm. -/
theorem evaluateAll_leaks_no_depth (limit : Nat) (env : Environment) (ts : List Term) :
    evaluateAll evaluate { limit } env ts =
        evaluateAll (fun _ => evaluate { limit }) { limit } env ts ∧
      (∀ (alarm : EvalM Float) (size fuel : Nat), limit < size → limit < fuel →
        evaluateAll evaluate { limit } env ts =
          evaluateAll (evaluateCounted alarm size fuel) { limit } env ts) ∧
      ∀ x ∈ evaluateAll evaluate { limit } env ts, x.evaluator.depth = 0 ∧
        ∀ name xs k, .calling name xs k ∈ x.events → k < limit := by
  have hkeep := evaluator_evaluate { limit }
  refine ⟨?_, fun alarm size fuel hsize hfuel => ?_, fun x hx => ?_⟩
  · refine evaluateAll_congr ?_ hkeep env ts
    exact fun env t => rfl
  · refine evaluateAll_congr (fun env t => ?_) hkeep env ts
    exact evaluate_eq_evaluateCounted { limit } env t alarm hsize hfuel
  · obtain ⟨env', t, rfl⟩ := exists_of_mem_evaluateAll hkeep hx
    exact ⟨congrArg depth (hkeep env' t), fun name xs k => calling_lt_limit⟩

/-- Here `f` calls itself after `g`, without end. -/
def endless : Environment :=
  Environment.setFunction {} "g" ⟨["x"], .var "x", ∅⟩
    |>.setFunction "f" ⟨["x"], .chain [.call "g" [.var "x"], .call "f" [.var "x"]] [.add], ∅⟩

theorem endless_leaks_no_depth :
    let ts : List Term := [.call "f" [.number "2.5"], .call "g" [.call "g" [.number "2.5"]]]
    let first := evaluate { limit := 3 } endless (.call "f" [.number "2.5"])
    (evaluateAll evaluate { limit := 3 } endless ts).map Evaluation.outcome =
        [.error (.recursionLimit "g" 3), .ok (some 2.5)] ∧
      evaluateAll evaluate { limit := 3 } endless ts =
        evaluateAll (evaluateCounted (throw .divisionByZero) 4 4) { limit := 3 } endless ts ∧
      .calling "f" [2.5] 2 ∈ first.events ∧ first.evaluator.depth = 0 ∧ 2 < 3 := by
  intro ts first
  obtain ⟨-, hcounted, hdepth⟩ := evaluateAll_leaks_no_depth 3 endless ts
  obtain ⟨hfirst, hcalls⟩ := hdepth first List.mem_cons_self
  have hcalling : .calling "f" [2.5] 2 ∈ first.events := List.mem_of_getElem? (i := 4) rfl
  exact ⟨rfl, hcounted _ 4 4 (by decide) (by decide), hcalling, hfirst, hcalls "f" [2.5] 2 hcalling⟩

end Evaluator

end ChainCalc
