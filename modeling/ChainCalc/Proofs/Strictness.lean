import ChainCalc.Proofs.StatementEffect

/-!
# What an outcome says about a term

A term runs all of its operands and arguments and the bodies of all functions that it calls; only a
failure cuts a run short. So its success says something about each of these parts, and a failure
about one of them.

`EvalM.Tests view v relevant P x` puts this as one notion: on a machine that shows `v`, if `x`
succeeds then `P` holds, and if it fails for a relevant reason then `P` does not. Two computations
in a row test both of their conditions (`EvalM.Tests.bind`), so the arguments of a call test the
condition on each of them (`Term.tests_valuesWith`), and so do the operands of a chain
(`Term.tests_chain`). What the conditions are is left open here.
-/

namespace ChainCalc

namespace EvalM

variable {α β γ : Type}

/-- On machines that show `v`, the success of `x` shows that `P` holds, and a relevant failure
shows that it does not. -/
structure Tests (view : Machine → γ) (v : γ) (relevant : RuntimeError → Prop) (P : Prop)
    (x : EvalM α) : Prop where
  of_ok : ∀ m a, view m = v → (runOn x m).1 = .ok a → P
  of_error : ∀ m e, view m = v → (runOn x m).1 = .error e → relevant e → ¬ P

namespace Tests

variable {view : Machine → γ} {v : γ} {relevant : RuntimeError → Prop} {P Q : Prop}

theorem of_iff {x : EvalM α} (h : Tests view v relevant P x) (hPQ : P ↔ Q) :
    Tests view v relevant Q x := by
  rwa [← hPQ]

theorem pure (a : α) (h : P) : Tests view v relevant P (Pure.pure a : EvalM α) where
  of_ok _ _ _ _ := h
  of_error := by rintro m e - ⟨⟩

theorem throw {e : RuntimeError} (h : relevant e → ¬ P) :
    Tests view v relevant P (MonadExcept.throw e : EvalM α) where
  of_ok := by rintro m a - ⟨⟩
  of_error := by
    rintro m e' - ⟨⟩
    exact h

theorem ofExcept {r : Except RuntimeError α} (hok : ∀ a, r = .ok a → P)
    (herror : ∀ e, r = .error e → relevant e → ¬ P) :
    Tests view v relevant P (MonadExcept.ofExcept r : EvalM α) := by
  constructor <;> intro m r' hm h <;> rw [runOn_ofExcept] at h
  · exact hok r' h
  · exact herror r' h

theorem modify (f : Machine → Machine) (h : P) :
    Tests view v relevant P (modify f : EvalM PUnit) where
  of_ok _ _ _ _ := h
  of_error := by rintro m e - ⟨⟩

theorem get_bind {k : Machine → EvalM α} (h : ∀ m, view m = v → Tests view v relevant P (k m)) :
    Tests view v relevant P (MonadState.get >>= k) where
  of_ok m a hm := (h m hm).of_ok m a hm
  of_error m e hm := (h m hm).of_error m e hm

/-- Two computations in a row test both conditions. The second may rely on what the first yields. -/
theorem bind_of {p : α → Prop} {x : EvalM α} {k : α → EvalM β} (hx : Tests view v relevant P x)
    (hkeeps : Keeps view x) (hyields : Yields p x)
    (hk : ∀ a, p a → Tests view v relevant Q (k a)) :
    Tests view v relevant (P ∧ Q) (x >>= k) := by
  have hview : ∀ {m a m'}, view m = v → runOn x m = (.ok a, m') → view m' = v := by
    intro m a m' hm hrun
    have hm' := hkeeps m
    rw [hrun] at hm'
    exact hm'.trans hm
  constructor
  · intro m b hm h
    rw [runOn_bind] at h
    rcases hrun : runOn x m with ⟨e | a, m'⟩ <;> rw [hrun] at h
    · cases h
    · have hP := hx.of_ok m a hm (by rw [hrun])
      have hQ := (hk a (hyields m a m' hrun)).of_ok m' b (hview hm hrun) h
      exact ⟨hP, hQ⟩
  · intro m e hm h he hPQ
    rw [runOn_bind] at h
    rcases hrun : runOn x m with ⟨e' | a, m'⟩ <;> rw [hrun] at h
    · cases h
      exact hx.of_error m e hm (by rw [hrun]) he hPQ.1
    · exact (hk a (hyields m a m' hrun)).of_error m' e (hview hm hrun) h he hPQ.2

theorem bind {x : EvalM α} {k : α → EvalM β} (hx : Tests view v relevant P x)
    (hkeeps : Keeps view x) (hk : ∀ a, Tests view v relevant Q (k a)) :
    Tests view v relevant (P ∧ Q) (x >>= k) :=
  hx.bind_of hkeeps (p := fun _ => True) (fun _ _ _ _ => trivial) fun a _ => hk a

/-- What is done to the result afterwards does not matter. -/
theorem bind_pure {x : EvalM α} (h : Tests view v relevant P x) (hkeeps : Keeps view x)
    (f : α → β) : Tests view v relevant P (x >>= fun a => Pure.pure (f a)) :=
  (h.bind hkeeps fun a => .pure (f a) trivial).of_iff (and_iff_left trivial)

/-- A call tests what its body tests, on a machine that shows the scope of the call. -/
theorem inCall {v' : γ} {body : EvalM Float} (h : Tests view v' relevant P body) {name : String}
    {arguments : List Float} {scope : Variables}
    (henter : ∀ m, view m = v → view (m.enter name arguments scope) = v') :
    Tests view v relevant P (EvalM.inCall name arguments scope body) where
  of_ok m a hm hrun := h.of_ok _ a (henter m hm) hrun
  of_error m e hm hrun := h.of_error _ e (henter m hm) hrun

end Tests

end EvalM

theorem Closure.bind?_eq_none_iff {f : Closure} {xs : List Float} :
    f.bind? xs = none ↔ xs.length < f.params.length := by
  unfold bind?
  split <;> simp_all

namespace Term

open EvalM

variable {γ : Type} {view : Machine → γ} {v : γ} {relevant : RuntimeError → Prop} {rule : CallRule}
variable {P : Prop} {holds : Term → Prop}

theorem tests_demand {t : Term} (hmissing : ¬ t.hasValue → relevant (.missingValue t.render) → ¬ P)
    (h : t.hasValue → Tests view v relevant P (t.evalWith rule)) :
    Tests view v relevant P (t.demand (t.evalWith rule)) := by
  by_cases ht : t.hasValue
  · have hvalue : Yields (fun r => r.isSome) (t.evalWith rule) :=
      yields_evalWith (not_isDeclaration_of_hasValue ht)
    constructor
    · intro m x hm hdemand
      rw [runOn_demand_of_hasValue ht] at hdemand
      rcases hrun : runOn (t.evalWith rule) m with ⟨e | r, m'⟩
      · rw [hrun] at hdemand
        cases hdemand
      · exact (h ht).of_ok m r hm (by rw [hrun])
    · intro m e hm hdemand
      rw [runOn_demand_of_hasValue ht] at hdemand
      rcases hrun : runOn (t.evalWith rule) m with ⟨e' | r, m'⟩ <;> rw [hrun] at hdemand
      · cases hdemand
        exact (h ht).of_error m e hm (by rw [hrun])
      · obtain ⟨x, rfl⟩ := Option.isSome_iff_exists.1 (hvalue m r m' hrun)
        cases hdemand
  · rw [demand, if_neg ht]
    exact .throw (hmissing ht)

/-- The arguments of a call are all run. -/
theorem tests_valuesWith {ts : List Term}
    (hkeeps : ∀ t ∈ ts, Keeps view (t.demand (t.evalWith rule)))
    (h : ∀ t ∈ ts, Tests view v relevant (holds t) (t.demand (t.evalWith rule))) :
    Tests view v relevant (∀ t ∈ ts, holds t) (valuesWith rule ts) := by
  induction ts with
  | nil =>
    unfold valuesWith
    exact .pure _ (by simp)
  | cons t ts ih =>
    obtain ⟨ht, hts⟩ := List.forall_mem_cons.1 h
    obtain ⟨hkeep, hkeeps⟩ := List.forall_mem_cons.1 hkeeps
    have htail := ih hkeeps hts
    unfold valuesWith
    refine (ht.bind hkeep fun x => ?_).of_iff List.forall_mem_cons.symm
    exact htail.bind_pure (keeps_valuesWith hkeeps) _

theorem yields_valuesWith (rule : CallRule) (ts : List Term) :
    Yields (fun xs => xs.length = ts.length) (valuesWith rule ts) := by
  induction ts with
  | nil =>
    unfold valuesWith
    exact .pure rfl
  | cons t ts ih =>
    unfold valuesWith
    exact .bind fun x => ih.bind_of fun xs hxs => .pure (congrArg (· + 1) hxs)

/-- The operands of a chain are all run, if there is an operator for each. -/
theorem tests_linksWith (hdivision : ¬ relevant .divisionByZero) {ts : List Term}
    {operators : List Operator} (hlength : operators.length = ts.length)
    (hkeeps : ∀ t ∈ ts, Keeps view (t.demand (t.evalWith rule)))
    (h : ∀ t ∈ ts, Tests view v relevant (holds t) (t.demand (t.evalWith rule))) (x : Float) :
    Tests view v relevant (∀ t ∈ ts, holds t) (linksWith rule x ts operators) := by
  induction ts generalizing operators x with
  | nil =>
    unfold linksWith
    exact .pure _ (by simp)
  | cons t ts ih =>
    cases operators with
    | nil => cases hlength
    | cons op operators =>
      obtain ⟨ht, hts⟩ := List.forall_mem_cons.1 h
      obtain ⟨hkeep, hkeeps⟩ := List.forall_mem_cons.1 hkeeps
      have htail := ih (Nat.succ.inj hlength) hkeeps hts
      unfold linksWith
      refine (ht.bind hkeep fun y => ?_).of_iff List.forall_mem_cons.symm
      have hcompute : Tests view v relevant True
          (MonadExcept.ofExcept (op.compute x y) : EvalM Float) := by
        refine .ofExcept (fun _ _ => trivial) fun e he hrelevant => ?_
        rw [Operator.compute_eq_error he] at hrelevant
        exact absurd hrelevant hdivision
      exact (hcompute.bind (.ofExcept _) htail).of_iff (and_iff_right trivial)

/-- A chain tests what its operands test. -/
theorem tests_chain (hdivision : ¬ relevant .divisionByZero) {operands : List Term}
    {operators : List Operator}
    (hillFormed : ¬ wellFormedChain operands operators →
      relevant (.missingValue (chain operands operators).render) → ¬ ∀ t ∈ operands, holds t)
    (hkeeps : ∀ t ∈ operands, Keeps view (t.demand (t.evalWith rule)))
    (h : ∀ t ∈ operands, Tests view v relevant (holds t) (t.demand (t.evalWith rule))) :
    Tests view v relevant (∀ t ∈ operands, holds t)
      ((chain operands operators).evalWith rule) := by
  cases operands with
  | nil =>
    unfold evalWith
    exact .throw (hillFormed (by simp [wellFormedChain]))
  | cons t ts =>
    obtain ⟨ht, hts⟩ := List.forall_mem_cons.1 h
    obtain ⟨hkeep, hkeeps⟩ := List.forall_mem_cons.1 hkeeps
    unfold evalWith
    split
    · rename_i hwell
      have hlength : operators.length = ts.length := by simpa [wellFormedChain] using hwell
      refine (ht.bind hkeep fun x => ?_).of_iff List.forall_mem_cons.symm
      exact (tests_linksWith hdivision hlength hkeeps hts x).bind_pure
        (keeps_linksWith hkeeps x operators) _
    · rename_i hill
      exact .throw (hillFormed hill)

/-- A call tests what its arguments test and, after them, what its carrying out tests, which is
`called f` for the function `f`. -/
theorem tests_call {functions : Functions} {name : String} {arguments : List Term}
    (called : Closure → Prop) (hview : ∀ m, view m = v → m.functions = functions)
    (hrule : ∀ name f xs scope, Keeps view (rule name f xs scope))
    (hkeeps : ∀ t ∈ arguments, Keeps view (t.demand (t.evalWith rule)))
    (h : ∀ t ∈ arguments, Tests view v relevant (holds t) (t.demand (t.evalWith rule)))
    (hunknown : functions[name]? = none → relevant (.unknownFunction name) → ¬ P)
    (hcount : ∀ f, arguments.length < f.params.length →
      relevant (.argumentCount name f.params.length arguments.length) → ¬ called f)
    (hcall : ∀ f values scope, functions[name]? = some f → values.length = arguments.length →
      f.bind? values = some scope → Tests view v relevant (called f) (rule name f values scope))
    (hiff : ∀ f, functions[name]? = some f → ((∀ t ∈ arguments, holds t) ∧ called f ↔ P)) :
    Tests view v relevant P ((call name arguments).evalWith rule) := by
  unfold evalWith
  refine .get_bind fun m hm => ?_
  rw [hview m hm]
  split
  · rename_i hnone
    exact .throw (hunknown hnone)
  · rename_i f hf
    refine ((tests_valuesWith hkeeps h).bind_of (keeps_valuesWith hkeeps)
      (yields_valuesWith rule arguments) fun values hvalues => ?_).of_iff (hiff f hf)
    split
    · rename_i hbind
      have hlt := Closure.bind?_eq_none_iff.1 hbind
      rw [hvalues] at hlt ⊢
      exact .throw (hcount f hlt)
    · rename_i scope hbind
      exact (hcall f values scope hf hvalues hbind).bind_pure (hrule name f values scope) _

/-- Assigning its value to targets does not change the outcome of a term. -/
theorem tests_of_core {t : Term} (ht : t.hasValue)
    (h : Tests view v relevant P (t.core.evalWith rule)) :
    Tests view v relevant P (t.evalWith rule) := by
  have hvalue : Yields (fun r => r.isSome) (t.core.evalWith rule) :=
    yields_evalWith (not_isDeclaration_of_hasValue (t.hasValue_core.trans ht))
  constructor
  · intro m r hm hrun
    rcases hcore : runOn (t.core.evalWith rule) m with ⟨e | r', m'⟩
    · rw [runOn_of_core_error ht hcore] at hrun
      cases hrun
    · exact h.of_ok m r' hm (by rw [hcore])
  · intro m e hm hrun
    rcases hcore : runOn (t.core.evalWith rule) m with ⟨e' | r', m'⟩
    · rw [runOn_of_core_error ht hcore] at hrun
      cases hrun
      exact h.of_error m e hm (by rw [hcore])
    · obtain ⟨x, rfl⟩ := Option.isSome_iff_exists.1 (hvalue m r' m' hcore)
      rw [runOn_of_core ht hcore] at hrun
      cases hrun

end Term

end ChainCalc
