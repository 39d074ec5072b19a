import ChainCalc.Proofs.CallHeight

/-!
# Two runs side by side

`EvalM.Simulates R excused x y` compares two computations, on two machines that the relation `R`
ties together: `x` and `y` have the same outcome and leave machines that `R` ties together again,
unless `x` fails for an excused reason. It is kept by everything that computations are put together
from, so two runs of one term go side by side if they do so at each place where the term looks at
the machine: a variable that it reads, a name that it assigns to, a function that it calls
(`Term.simulates_evalWith`). What `R` ties together, and how calls are carried out, is left open.
-/

namespace ChainCalc

namespace EvalM

variable {α β : Type}

/-- How two runs may end: alike and on machines that `R` ties together, or the first one in an
excused failure and the second in any way. -/
inductive EndsAlike (R : Machine → Machine → Prop) (excused : RuntimeError → Prop) :
    Except RuntimeError α × Machine → Except RuntimeError α × Machine → Prop
  | excused {e : RuntimeError} (he : excused e) (m : Machine)
      (second : Except RuntimeError α × Machine) : EndsAlike R excused (.error e, m) second
  | alike (r : Except RuntimeError α) {m n : Machine} (h : R m n) :
      EndsAlike R excused (r, m) (r, n)

/-- From machines that `R` ties together, `y` does what `x` does, unless `x` fails for an excused
reason. -/
def Simulates (R : Machine → Machine → Prop) (excused : RuntimeError → Prop) (x y : EvalM α) :
    Prop :=
  ∀ m n, R m n → EndsAlike R excused (runOn x m) (runOn y n)

namespace Simulates

variable {R : Machine → Machine → Prop} {excused : RuntimeError → Prop}

theorem pure (a : α) : Simulates R excused (Pure.pure a : EvalM α) (Pure.pure a) :=
  fun _ _ h => .alike (.ok a) h

theorem throw (e : RuntimeError) :
    Simulates R excused (MonadExcept.throw e : EvalM α) (MonadExcept.throw e) :=
  fun _ _ h => .alike (.error e) h

theorem throw_excused {e : RuntimeError} (he : excused e) (y : EvalM α) :
    Simulates R excused (MonadExcept.throw e) y :=
  fun m _ _ => .excused he m _

theorem ofExcept (r : Except RuntimeError α) :
    Simulates R excused (MonadExcept.ofExcept r : EvalM α) (MonadExcept.ofExcept r) := by
  intro m n h
  rw [runOn_ofExcept, runOn_ofExcept]
  exact .alike r h

theorem modify {f : Machine → Machine} (h : ∀ m n, R m n → R (f m) (f n)) :
    Simulates R excused (modify f : EvalM PUnit) (modify f) :=
  fun m n hmn => .alike (.ok PUnit.unit) (h m n hmn)

/-- Each computation looks at its own machine, so what comes next is compared on these. -/
theorem get_bind {k l : Machine → EvalM α} (h : ∀ m n, R m n → Simulates R excused (k m) (l n)) :
    Simulates R excused (MonadState.get >>= k) (MonadState.get >>= l) :=
  fun m n hmn => h m n hmn m n hmn

theorem bind {x y : EvalM α} {k l : α → EvalM β} (hx : Simulates R excused x y)
    (hk : ∀ a, Simulates R excused (k a) (l a)) : Simulates R excused (x >>= k) (y >>= l) := by
  intro m n hmn
  have hends := hx m n hmn
  rw [runOn_bind, runOn_bind]
  generalize runOn x m = p, runOn y n = q at hends ⊢
  cases hends with
  | excused he m' => exact .excused he m' _
  | @alike r m' n' h =>
    cases r with
    | error e => exact .alike (.error e) h
    | ok a => exact hk a m' n' h

/-- A call may compare its bodies by another relation than the one outside, if entering the call
leads from the one to the other and leaving it leads back. -/
theorem inCall {R' : Machine → Machine → Prop} {body body' : EvalM Float}
    (h : Simulates R' excused body body') {name : String} {arguments : List Float}
    {scope : Variables}
    (henter : ∀ m n, R m n → R' (m.enter name arguments scope) (n.enter name arguments scope))
    (hleave : ∀ m n m' n', R m n → R' m' n' → R (m'.leave m.vars) (n'.leave n.vars)) :
    Simulates R excused (EvalM.inCall name arguments scope body)
      (EvalM.inCall name arguments scope body') := by
  intro m n hmn
  have hends := h _ _ (henter m n hmn)
  rw [runOn_inCall, runOn_inCall]
  generalize runOn body (m.enter name arguments scope) = p,
    runOn body' (n.enter name arguments scope) = q at hends ⊢
  cases hends with
  | excused he => exact .excused he _ _
  | @alike r m' n' h' => exact .alike r (hleave m n m' n' hmn h')

/-- If nothing is excused, the outcomes are the same. -/
theorem outcome_eq {x y : EvalM α} (h : Simulates R (fun _ => False) x y) {m n : Machine}
    (hmn : R m n) : (runOn x m).1 = (runOn y n).1 := by
  have hends := h m n hmn
  generalize runOn x m = p, runOn y n = q at hends ⊢
  cases hends with
  | excused he => exact he.elim
  | alike r => rfl

theorem related {x y : EvalM α} (h : Simulates R (fun _ => False) x y) {m n : Machine}
    (hmn : R m n) : R (runOn x m).2 (runOn y n).2 := by
  have hends := h m n hmn
  generalize runOn x m = p, runOn y n = q at hends ⊢
  cases hends with
  | excused he => exact he.elim
  | alike r hmn => exact hmn

end Simulates

end EvalM

namespace Term

open EvalM

/-- Variables that a term reads, except those in the bodies that it declares. -/
inductive Reads (name : String) : Term → Prop
  | here : Reads name (var name)
  | value (other : String) {value : Term} (h : Reads name value) : Reads name (assign other value)
  | argument (f : String) {arguments : List Term} {t : Term} (ht : t ∈ arguments)
      (h : Reads name t) : Reads name (call f arguments)
  | operand (operators : List Operator) {operands : List Term} {t : Term} (ht : t ∈ operands)
      (h : Reads name t) : Reads name (chain operands operators)

/-- Machines that `R` ties together look alike to the term `t`, and its calls, carried out by the
two rules, go side by side. -/
structure Respects (R : Machine → Machine → Prop) (excused : RuntimeError → Prop)
    (rule rule' : CallRule) (t : Term) : Prop where
  vars : ∀ m n, R m n → ∀ name, t.Reads name → m.vars[name]? = n.vars[name]?
  assign : ∀ m n, R m n → ∀ name, t.Assigns name → ∀ x, R (m.assign name x) (n.assign name x)
  functions : ∀ m n, R m n → ∀ f, t.Calls f → m.functions[f]? = n.functions[f]?
  call : ∀ m n, R m n → ∀ f c, t.Calls f → n.functions[f]? = some c → ∀ xs scope,
    Simulates R excused (rule f c xs scope) (rule' f c xs scope)

variable {R : Machine → Machine → Prop} {excused : RuntimeError → Prop} {rule rule' : CallRule}

namespace Respects

/-- A part of a term looks at no more than the term does. -/
theorem mono {t u : Term} (h : Respects R excused rule rule' t)
    (hreads : ∀ name, u.Reads name → t.Reads name)
    (hassigns : ∀ name, u.Assigns name → t.Assigns name)
    (hcalls : ∀ f, u.Calls f → t.Calls f) : Respects R excused rule rule' u where
  vars m n hmn name hname := h.vars m n hmn name (hreads name hname)
  assign m n hmn name hname := h.assign m n hmn name (hassigns name hname)
  functions m n hmn f hf := h.functions m n hmn f (hcalls f hf)
  call m n hmn f c hf := h.call m n hmn f c (hcalls f hf)

theorem value {name : String} {value : Term}
    (h : Respects R excused rule rule' (.assign name value)) :
    Respects R excused rule rule' value :=
  h.mono (fun _ => .value name) (fun _ => .value name) fun _ => .value name

theorem argument {f : String} {arguments : List Term}
    (h : Respects R excused rule rule' (.call f arguments)) {t : Term} (ht : t ∈ arguments) :
    Respects R excused rule rule' t :=
  h.mono (fun _ => .argument f ht) (fun _ => .argument f ht) fun _ => .argument f ht

theorem operand {operands : List Term} {operators : List Operator}
    (h : Respects R excused rule rule' (.chain operands operators)) {t : Term} (ht : t ∈ operands) :
    Respects R excused rule rule' t :=
  h.mono (fun _ => .operand operators ht) (fun _ => .operand operators ht)
    fun _ => .operand operators ht

end Respects

theorem simulates_demand {t : Term} {x y : EvalM (Option Float)}
    (h : ¬ t.isDeclaration → Simulates R excused x y) :
    Simulates R excused (t.demand x) (t.demand y) := by
  unfold demand
  split
  case isTrue hvalue =>
    refine (h (not_isDeclaration_of_hasValue hvalue)).bind fun r => ?_
    cases r with
    | none => exact .throw _
    | some x => exact .pure x
  case isFalse => exact .throw _

theorem simulates_valuesWith {ts : List Term}
    (h : ∀ t ∈ ts, Simulates R excused (t.demand (t.evalWith rule)) (t.demand (t.evalWith rule'))) :
    Simulates R excused (valuesWith rule ts) (valuesWith rule' ts) := by
  induction ts with
  | nil =>
    unfold valuesWith
    exact .pure []
  | cons t ts ih =>
    obtain ⟨ht, hts⟩ := List.forall_mem_cons.1 h
    unfold valuesWith
    exact ht.bind fun x => (ih hts).bind fun xs => .pure (x :: xs)

theorem simulates_linksWith {ts : List Term}
    (h : ∀ t ∈ ts, Simulates R excused (t.demand (t.evalWith rule)) (t.demand (t.evalWith rule')))
    (x : Float) (operators : List Operator) :
    Simulates R excused (linksWith rule x ts operators) (linksWith rule' x ts operators) := by
  induction ts generalizing x operators with
  | nil =>
    unfold linksWith
    exact .pure x
  | cons t ts ih =>
    obtain ⟨ht, hts⟩ := List.forall_mem_cons.1 h
    cases operators with
    | nil =>
      unfold linksWith
      exact .pure x
    | cons op operators =>
      unfold linksWith
      exact ht.bind fun right => (Simulates.ofExcept _).bind fun y => ih hts y operators

/-- Two runs of a term that is no declaration go side by side on machines that look alike to it. -/
theorem simulates_evalWith {t : Term} (h : Respects R excused rule rule' t)
    (ht : ¬ t.isDeclaration) : Simulates R excused (t.evalWith rule) (t.evalWith rule') := by
  induction t using Term.induction with
  | number text =>
    unfold evalWith
    exact (Simulates.ofExcept _).bind fun x => .pure (some x)
  | var name =>
    unfold evalWith
    refine .get_bind fun m n hmn => ?_
    rw [h.vars m n hmn name .here]
    split
    · exact .pure _
    · exact .throw _
  | assign name value ih =>
    have hvalue := simulates_demand (ih h.value)
    unfold evalWith
    refine hvalue.bind fun x => (Simulates.modify fun m n hmn => ?_).bind fun _ => .pure (some x)
    exact h.assign m n hmn name (.here value) x
  | declare name params body => exact absurd rfl ht
  | call name arguments ih =>
    have harguments := simulates_valuesWith fun t ht => simulates_demand (ih t ht (h.argument ht))
    unfold evalWith
    refine .get_bind fun m n hmn => ?_
    rw [h.functions m n hmn name (.here arguments)]
    cases hf : n.functions[name]? with
    | none => exact .throw _
    | some f =>
      refine harguments.bind fun xs => ?_
      cases f.bind? xs with
      | none => exact .throw _
      | some scope =>
        have hcall := h.call m n hmn name f (.here arguments) hf xs scope
        exact hcall.bind fun x => .pure (some x)
  | chain operands operators ih =>
    have hoperands : ∀ t ∈ operands,
        Simulates R excused (t.demand (t.evalWith rule)) (t.demand (t.evalWith rule')) :=
      fun t ht => simulates_demand (ih t ht (h.operand ht))
    cases operands with
    | nil =>
      unfold evalWith
      exact .throw _
    | cons t ts =>
      obtain ⟨ht, hts⟩ := List.forall_mem_cons.1 hoperands
      unfold evalWith
      split
      · exact ht.bind fun x => (simulates_linksWith hts x operators).bind fun y => .pure (some y)
      · exact .throw _

end Term

end ChainCalc
