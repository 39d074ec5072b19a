import ChainCalc.Evaluator

/-!
# What running a term leaves alone

`EvalM.Keeps view x`: whatever machine `x` starts on, and whether it fails or not, what `view` shows
of the machine is the same afterwards. A term that is no declaration never touches the functions or
the depth, since a declaration inside it is refused before it is run (`Term.keeps_calls`). So a
call, which restores the variables itself, changes nothing but the events (`Term.keeps_callRule`),
and neither does a term that assigns nothing (`Term.keeps_state`).

What a computation keeps is what its steps keep. This is not special to `Keeps`: any property that
goes over from two computations to the two in a row goes over from the calls and assignments of a
term to the term (`EvalM.Composes.evalWith`).

`EvalM.Yields p x` is the other half: all that `x` returns, if it returns, satisfies `p`.
-/

namespace ChainCalc

namespace EvalM

variable {α β γ : Type}

/-- The outcome of `x` on `m`, and the machine that it leaves. -/
def runOn (x : EvalM α) (m : Machine) : Except RuntimeError α × Machine := x.run.run m

theorem runOn_ofExcept (r : Except RuntimeError α) (m : Machine) :
    runOn (MonadExcept.ofExcept r) m = (r, m) := by
  cases r <;> rfl

/-- What comes after `x` runs on the machine that `x` leaves, unless `x` fails. -/
theorem runOn_bind (x : EvalM α) (k : α → EvalM β) (m : Machine) :
    runOn (x >>= k) m = match runOn x m with
      | (.ok a, m') => runOn (k a) m'
      | (.error e, m') => (.error e, m') := by
  simp only [runOn, ExceptT.run_bind, StateT.run_bind]
  show (match x.run.run m with | (r, m') => _) = _
  rcases x.run.run m with ⟨_ | _, _⟩ <;> rfl

/-- The body of a call runs in its own scope, and its outcome is that of the call. -/
theorem runOn_inCall (name : String) (arguments : List Float) (scope : Variables)
    (body : EvalM Float) (m : Machine) :
    runOn (inCall name arguments scope body) m =
      ((runOn body (m.enter name arguments scope)).1,
        (runOn body (m.enter name arguments scope)).2.leave m.vars) := rfl

/-- Running `x` leaves what `view` shows of the machine as it was. -/
def Keeps (view : Machine → γ) (x : EvalM α) : Prop := ∀ m, view (runOn x m).2 = view m

namespace Keeps

variable {view : Machine → γ}

theorem pure (a : α) : Keeps view (Pure.pure a : EvalM α) := fun _ => rfl

theorem throw (e : RuntimeError) : Keeps view (MonadExcept.throw e : EvalM α) := fun _ => rfl

theorem get : Keeps view (MonadState.get : EvalM Machine) := fun _ => rfl

theorem modify {f : Machine → Machine} (h : ∀ m, view (f m) = view m) :
    Keeps view (modify f : EvalM PUnit) := h

theorem ofExcept (r : Except RuntimeError α) :
    Keeps view (MonadExcept.ofExcept r : EvalM α) := by
  intro m
  rw [runOn_ofExcept]

theorem bind {x : EvalM α} {k : α → EvalM β} (hx : Keeps view x) (hk : ∀ a, Keeps view (k a)) :
    Keeps view (x >>= k) := by
  intro m
  have hm := hx m
  rw [runOn_bind]
  rcases hrun : runOn x m with ⟨e | a, m'⟩
  · rwa [hrun] at hm
  · rw [hrun] at hm
    exact (hk a m').trans hm

end Keeps

/-- Every result that `x` returns satisfies `p`. -/
def Yields (p : α → Prop) (x : EvalM α) : Prop :=
  ∀ m a m', runOn x m = (.ok a, m') → p a

namespace Yields

variable {p : β → Prop}

theorem pure {b : β} (h : p b) : Yields p (Pure.pure b) := by
  rintro m _ _ ⟨⟩
  exact h

theorem throw (e : RuntimeError) : Yields p (MonadExcept.throw e) := by
  rintro m a m' ⟨⟩

/-- What comes after `x` may rely on what `x` yields. -/
theorem bind_of {q : α → Prop} {x : EvalM α} {k : α → EvalM β} (hx : Yields q x)
    (hk : ∀ a, q a → Yields p (k a)) : Yields p (x >>= k) := by
  intro m b m' h
  rw [runOn_bind] at h
  rcases hrun : runOn x m with ⟨e | a, m''⟩
  · rw [hrun] at h
    cases h
  · rw [hrun] at h
    exact hk a (hx m a m'' hrun) m'' b m' h

theorem bind {x : EvalM α} {k : α → EvalM β} (hk : ∀ a, Yields p (k a)) : Yields p (x >>= k) :=
  bind_of (q := fun _ => True) (fun _ _ _ _ => trivial) fun a _ => hk a

end Yields

end EvalM

namespace Term

/-- Induction on terms, with the claim for every argument of a call and every operand of a chain. -/
@[elab_as_elim]
theorem induction {motive : Term → Prop} (number : ∀ text, motive (number text))
    (var : ∀ name, motive (var name))
    (call : ∀ name arguments, (∀ t ∈ arguments, motive t) → motive (call name arguments))
    (assign : ∀ name value, motive value → motive (assign name value))
    (declare : ∀ name params body, motive body → motive (declare name params body))
    (chain : ∀ operands operators, (∀ t ∈ operands, motive t) → motive (chain operands operators))
    (t : Term) : motive t :=
  @Term.rec motive (fun ts => ∀ t ∈ ts, motive t) number var call assign declare chain
    (fun _ h => absurd h List.not_mem_nil) (fun _ _ h hs => List.forall_mem_cons.2 ⟨h, hs⟩) t

def isDeclaration : Term → Bool
  | declare .. => true
  | _ => false

/-- Assignments to `name` in a term, except those in the bodies that it declares. -/
inductive Assigns (name : String) : Term → Prop
  | here (value : Term) : Assigns name (assign name value)
  | value (other : String) {value : Term} (h : Assigns name value) :
      Assigns name (assign other value)
  | argument (f : String) {arguments : List Term} {t : Term} (ht : t ∈ arguments)
      (h : Assigns name t) : Assigns name (call f arguments)
  | operand (operators : List Operator) {operands : List Term} {t : Term} (ht : t ∈ operands)
      (h : Assigns name t) : Assigns name (chain operands operators)

theorem not_isDeclaration_of_hasValue {t : Term} (h : t.hasValue) : ¬ t.isDeclaration := by
  cases t with
  | declare => cases h
  | number | var | call | assign | chain => simp [isDeclaration]

theorem exists_eq_declare {t : Term} (h : t.isDeclaration) :
    ∃ name params body, t = declare name params body := by
  cases t with
  | declare name params body => exact ⟨name, params, body, rfl⟩
  | number | var | call | assign | chain => cases h

end Term

/-! ### From the steps of a run to the whole -/

theorem Number.read_eq_error {text : String} {e : RuntimeError} (h : read text = .error e) :
    e = .numberFormat text := by
  unfold read at h
  split at h
  · cases h
  · exact (Except.error.inj h).symm

/-- An operator fails in one way only. -/
theorem Operator.compute_eq_error {op : Operator} {x y : Float} {e : RuntimeError}
    (h : op.compute x y = .error e) : e = .divisionByZero := by
  unfold compute at h
  split at h
  · cases h
  · exact (Except.error.inj h).symm

namespace EvalM

/-- A property of computations that goes over from steps to what is put together from them. Of the
failures only those count that are not about the limit, as a term itself has no others. -/
structure Composes (P : (α : Type) → EvalM α → Prop) : Prop where
  pure : ∀ {α : Type} (a : α), P α (Pure.pure a)
  throw : ∀ {α : Type} {e : RuntimeError}, (∀ name limit, e ≠ .recursionLimit name limit) →
    P α (MonadExcept.throw e)
  get_bind : ∀ {α : Type} {k : Machine → EvalM α}, (∀ m, P α (k m)) → P α (MonadState.get >>= k)
  bind : ∀ {α β : Type} {x : EvalM α} {k : α → EvalM β}, P α x → (∀ a, P β (k a)) → P β (x >>= k)

namespace Composes

variable {P : (α : Type) → EvalM α → Prop} {rule : CallRule}

theorem ofExcept (hP : Composes P) {α : Type} {r : Except RuntimeError α}
    (h : ∀ e, r = .error e → ∀ name limit, e ≠ .recursionLimit name limit) :
    P α (MonadExcept.ofExcept r) := by
  cases r with
  | ok a => exact hP.pure a
  | error e => exact hP.throw (h e rfl)

/-- A declaration is not run when its value is demanded. -/
theorem demand (hP : Composes P) {t : Term} {run : EvalM (Option Float)}
    (h : ¬ t.isDeclaration → P (Option Float) run) : P Float (t.demand run) := by
  unfold Term.demand
  split
  case isTrue hvalue =>
    refine hP.bind (h (Term.not_isDeclaration_of_hasValue hvalue)) fun r => ?_
    cases r with
    | none => exact hP.throw nofun
    | some x => exact hP.pure x
  case isFalse => exact hP.throw nofun

theorem valuesWith (hP : Composes P) {ts : List Term}
    (h : ∀ t ∈ ts, P Float (t.demand (t.evalWith rule))) :
    P (List Float) (Term.valuesWith rule ts) := by
  induction ts with
  | nil =>
    unfold Term.valuesWith
    exact hP.pure []
  | cons t ts ih =>
    obtain ⟨ht, hts⟩ := List.forall_mem_cons.1 h
    unfold Term.valuesWith
    exact hP.bind ht fun x => hP.bind (ih hts) fun xs => hP.pure (x :: xs)

theorem linksWith (hP : Composes P) {ts : List Term}
    (h : ∀ t ∈ ts, P Float (t.demand (t.evalWith rule))) (x : Float) (operators : List Operator) :
    P Float (Term.linksWith rule x ts operators) := by
  induction ts generalizing x operators with
  | nil =>
    unfold Term.linksWith
    exact hP.pure x
  | cons t ts ih =>
    obtain ⟨ht, hts⟩ := List.forall_mem_cons.1 h
    cases operators with
    | nil =>
      unfold Term.linksWith
      exact hP.pure x
    | cons op operators =>
      unfold Term.linksWith
      refine hP.bind ht fun right =>
        hP.bind (hP.ofExcept fun e he => ?_) fun y => ih hts y operators
      rw [Operator.compute_eq_error he]
      nofun

/-- A term that is no declaration has the property if every call has it and every assignment in the
term has it. -/
theorem evalWith (hP : Composes P) (hrule : ∀ name f xs scope, P Float (rule name f xs scope))
    (t : Term) (hassign : ∀ name, t.Assigns name → ∀ x, P PUnit (modify (·.assign name x)))
    (ht : ¬ t.isDeclaration) : P (Option Float) (t.evalWith rule) := by
  induction t using Term.induction with
  | number text =>
    unfold Term.evalWith
    refine hP.bind (hP.ofExcept fun e he => ?_) fun x => hP.pure (some x)
    rw [Number.read_eq_error he]
    nofun
  | var name =>
    unfold Term.evalWith
    refine hP.get_bind fun m => ?_
    split
    · exact hP.pure _
    · exact hP.throw nofun
  | assign name value ih =>
    have hvalue : P Float (value.demand (value.evalWith rule)) :=
      hP.demand (ih fun other ho => hassign other (ho.value name))
    unfold Term.evalWith
    exact hP.bind hvalue fun x => hP.bind (hassign name (.here value) x) fun _ => hP.pure (some x)
  | declare name params body => exact absurd rfl ht
  | call name arguments ih =>
    have harguments : ∀ t ∈ arguments, P Float (t.demand (t.evalWith rule)) := fun t ht =>
      hP.demand (ih t ht fun other ho => hassign other (ho.argument name ht))
    unfold Term.evalWith
    refine hP.get_bind fun m => ?_
    split
    · exact hP.throw nofun
    · refine hP.bind (hP.valuesWith harguments) fun xs => ?_
      split
      · exact hP.throw nofun
      · exact hP.bind (hrule _ _ _ _) fun x => hP.pure (some x)
  | chain operands operators ih =>
    have hoperands : ∀ t ∈ operands, P Float (t.demand (t.evalWith rule)) := fun t ht =>
      hP.demand (ih t ht fun other ho => hassign other (ho.operand operators ht))
    cases operands with
    | nil =>
      unfold Term.evalWith
      exact hP.throw nofun
    | cons t ts =>
      obtain ⟨ht, hts⟩ := List.forall_mem_cons.1 hoperands
      unfold Term.evalWith
      split
      · exact hP.bind ht fun x => hP.bind (hP.linksWith hts x operators) fun y => hP.pure (some y)
      · exact hP.throw nofun

end Composes

theorem Keeps.composes {γ : Type} (view : Machine → γ) : Composes fun _ x => Keeps view x where
  pure := .pure
  throw _ := .throw _
  get_bind h := Keeps.get.bind h
  bind := .bind

end EvalM

namespace Term

section Running

open EvalM

variable {γ : Type} {view : Machine → γ} {rule : CallRule}

theorem keeps_demand {t : Term} {run : EvalM (Option Float)}
    (h : ¬ t.isDeclaration → Keeps view run) : Keeps view (t.demand run) :=
  (Keeps.composes view).demand h

theorem keeps_valuesWith {ts : List Term} (h : ∀ t ∈ ts, Keeps view (t.demand (t.evalWith rule))) :
    Keeps view (valuesWith rule ts) :=
  (Keeps.composes view).valuesWith h

theorem keeps_linksWith {ts : List Term} (h : ∀ t ∈ ts, Keeps view (t.demand (t.evalWith rule)))
    (x : Float) (operators : List Operator) : Keeps view (linksWith rule x ts operators) :=
  (Keeps.composes view).linksWith h x operators

/-- A term that is no declaration keeps what every call keeps and every assignment in it keeps. -/
theorem keeps_evalWith (hrule : ∀ name f xs scope, Keeps view (rule name f xs scope)) (t : Term)
    (hassign : ∀ name, t.Assigns name → ∀ m x, view (Machine.assign m name x) = view m)
    (ht : ¬ t.isDeclaration) : Keeps view (t.evalWith rule) :=
  (Keeps.composes view).evalWith hrule t
    (fun name h x => .modify fun m => hassign name h m x) ht

/-- Only a declaration gives no value. -/
theorem yields_evalWith {t : Term} (ht : ¬ t.isDeclaration) :
    Yields (fun r => r.isSome) (t.evalWith rule) := by
  cases t with
  | declare => exact absurd rfl ht
  | number =>
    unfold evalWith
    exact .bind fun _ => .pure rfl
  | assign =>
    unfold evalWith
    exact .bind fun _ => .bind fun _ => .pure rfl
  | var =>
    unfold evalWith
    refine .bind fun _ => ?_
    split
    · exact .pure rfl
    · exact .throw _
  | call =>
    unfold evalWith
    refine .bind fun _ => ?_
    split
    · exact .throw _
    · refine .bind fun _ => ?_
      split
      · exact .throw _
      · exact .bind fun _ => .pure rfl
  | chain operands =>
    cases operands with
    | nil =>
      unfold evalWith
      exact .throw _
    | cons =>
      unfold evalWith
      split
      · exact .bind fun _ => .bind fun _ => .pure rfl
      · exact .throw _

end Running

/-- The way in which `eval` carries out a call while `budget` further calls may be nested. -/
def callRule (limit : Nat) : (budget : Nat) → CallRule
  | 0 => fun name _ _ _ => throw (.recursionLimit name limit)
  | budget + 1 => fun name f arguments scope =>
    .inCall name arguments scope (f.body.demand (f.body.eval limit budget))

theorem eval_eq_evalWith (limit budget : Nat) (t : Term) :
    t.eval limit budget = t.evalWith (callRule limit budget) := by
  cases budget <;> rfl

end Term

/-! ### The functions and the depth, and all but the events -/

/-- What only a declaration and the calls in progress change. -/
def Machine.calls (m : Machine) : Functions × Nat := (m.functions, m.depth)

/-- All that a machine holds, except the events so far. -/
def Machine.state (m : Machine) : Variables × Functions × Nat := (m.vars, m.functions, m.depth)

namespace EvalM

theorem Keeps.calls {α : Type} {x : EvalM α} (h : Keeps Machine.state x) :
    Keeps Machine.calls x :=
  fun m => congrArg Prod.snd (h m)

/-- A call restores the variables and the depth. -/
theorem Keeps.inCall {body : EvalM Float} (h : Keeps Machine.calls body) (name : String)
    (arguments : List Float) (scope : Variables) :
    Keeps Machine.state (EvalM.inCall name arguments scope body) := by
  intro m
  have hbody := h (m.enter name arguments scope)
  rw [runOn_inCall]
  generalize (runOn body (m.enter name arguments scope)).2 = m' at hbody ⊢
  have hfunctions : m'.functions = m.functions := congrArg Prod.fst hbody
  have hdepth : m'.depth = m.depth + 1 := congrArg Prod.snd hbody
  simp [Machine.state, Machine.leave, hfunctions, hdepth]

end EvalM

namespace Term

open EvalM

/-- A term that is no declaration changes neither the functions nor the depth if no call does, at
whatever call depth it fails and wherever declarations stand in it. -/
theorem keeps_calls {rule : CallRule}
    (hrule : ∀ name f xs scope, Keeps Machine.state (rule name f xs scope)) {t : Term}
    (ht : ¬ t.isDeclaration) : Keeps Machine.calls (t.evalWith rule) :=
  keeps_evalWith (fun name f xs scope => (hrule name f xs scope).calls) t (fun _ _ _ _ => rfl) ht

/-- A call changes nothing but the events. The induction is on the calls that may still be nested:
the body runs with one call fewer left. -/
theorem keeps_callRule (limit budget : Nat) (name : String) (f : Closure) (xs : List Float)
    (scope : Variables) : Keeps Machine.state (callRule limit budget name f xs scope) := by
  induction budget generalizing name f xs scope with
  | zero => exact .throw _
  | succ budget ih =>
    refine Keeps.inCall (keeps_demand fun hbody => ?_) name xs scope
    rw [eval_eq_evalWith]
    exact keeps_calls ih hbody

/-- A term without assignments of its own changes nothing but the events, whatever its calls
assign. -/
theorem keeps_state (limit budget : Nat) {t : Term} (ht : ¬ t.isDeclaration)
    (hassign : ∀ name, ¬ t.Assigns name) :
    Keeps Machine.state (t.evalWith (callRule limit budget)) :=
  keeps_evalWith (keeps_callRule limit budget) t (fun name h => absurd h (hassign name)) ht

/-- What can have a value has one whenever it succeeds, so `demand` never finds that it has none. -/
theorem runOn_eval_ne_ok_none (limit budget : Nat) {t : Term} (ht : ¬ t.isDeclaration)
    (m : Machine) : (runOn (t.eval limit budget) m).1 ≠ .ok none := by
  intro hnone
  rw [eval_eq_evalWith] at hnone
  have hsome := yields_evalWith ht m none _ (Prod.ext hnone rfl)
  cases hsome

end Term

end ChainCalc
