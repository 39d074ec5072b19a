import ChainCalc.Proofs.Simulation

/-!
# Lexical scoping

What a term can depend on is written in it: the variables that it reads, and the functions that it
uses, which are those it calls, those that their bodies call, and so on. Two environments that agree
on these give it the same outcome (`Evaluator.outcome_eq_of_agree`), whatever else they hold.

The reason is that a body runs in the scope that its closure and the arguments make. Inside a call
the variables of the two runs are therefore equal, all of them, and the variables of the callers
are not looked at before the call returns. So a call depends on its caller only by the values of its
arguments (`Evaluator.outcome_call_eq_of_values`).
-/

namespace ChainCalc

open EvalM

namespace Term

/-- The functions that running a term can get to, through the bodies in the table. -/
def Uses (functions : Functions) (t : Term) (f : String) : Prop :=
  ∃ g, t.Calls g ∧ Relation.ReflTransGen functions.Calls g f

end Term

/-- A set of names of functions that has with each function those that its body calls. -/
def Functions.Closed (functions : Functions) (names : String → Prop) : Prop :=
  ∀ f g, names f → functions.Calls f g → names g

namespace Functions

theorem closed_reflTransGen (functions : Functions) (f : String) :
    functions.Closed (Relation.ReflTransGen functions.Calls f) :=
  fun _ _ hf hg => hf.tail hg

theorem closed_uses (functions : Functions) (t : Term) : functions.Closed (t.Uses functions) := by
  rintro f g ⟨first, hfirst, hf⟩ hg
  exact ⟨first, hfirst, hf.tail hg⟩

/-- What is called from a closed set stays in it. -/
theorem Closed.of_reflTransGen {functions : Functions} {names : String → Prop}
    (h : functions.Closed names) {f g : String} (hf : names f)
    (hfg : Relation.ReflTransGen functions.Calls f g) : names g := by
  induction hfg with
  | refl => exact hf
  | tail _ hcalls ih => exact h _ _ ih hcalls

end Functions

namespace Machine

/-- The machines agree on the variables `read`, and both have the functions of `table` under the
names `used`. -/
structure Agree (read : String → Prop) (table : Functions) (used : String → Prop)
    (m n : Machine) : Prop where
  vars : ∀ name, read name → m.vars[name]? = n.vars[name]?
  left : ∀ f, used f → m.functions[f]? = table[f]?
  right : ∀ f, used f → n.functions[f]? = table[f]?

namespace Agree

variable {read used : String → Prop} {table : Functions} {m n m' n' : Machine}

theorem functions (h : Agree read table used m n) {f : String} (hf : used f) :
    m.functions[f]? = n.functions[f]? :=
  (h.left f hf).trans (h.right f hf).symm

theorem assign (h : Agree read table used m n) (name : String) (x : Float) :
    Agree read table used (m.assign name x) (n.assign name x) where
  vars other hother := by
    show (m.vars.insert name x)[other]? = (n.vars.insert name x)[other]?
    rw [Std.ExtTreeMap.getElem?_insert, Std.ExtTreeMap.getElem?_insert, h.vars other hother]
  left := h.left
  right := h.right

theorem enter (h : Agree read table used m n) (name : String) (xs : List Float)
    (scope : Variables) :
    Agree (fun _ => True) table used (m.enter name xs scope) (n.enter name xs scope) where
  -- both bodies see the scope and nothing else
  vars _ _ := rfl
  left := h.left
  right := h.right

theorem leave (h : Agree read table used m n) {inner : String → Prop}
    (h' : Agree inner table used m' n') :
    Agree read table used (m'.leave m.vars) (n'.leave n.vars) where
  -- the callers have their own variables again
  vars := h.vars
  left := h'.left
  right := h'.right

end Agree

end Machine

open Machine (Agree)

/-- What `x` does on a machine depends on the variables `read` and the functions `used` only. -/
abbrev EvalM.DependsOn {α : Type} (read : String → Prop) (table : Functions)
    (used : String → Prop) (x : EvalM α) : Prop :=
  Simulates (Agree read table used) (fun _ => False) x x

namespace Term

variable {read used : String → Prop} {table : Functions} {rule : CallRule}

theorem respects_agree {t : Term} (hread : ∀ name, t.Reads name → read name)
    (hused : ∀ f, t.Calls f → used f)
    (hrule : ∀ f c xs scope, used f → table[f]? = some c →
      DependsOn read table used (rule f c xs scope)) :
    Respects (Agree read table used) (fun _ => False) rule rule t where
  vars _ _ h name hname := h.vars name (hread name hname)
  assign _ _ h name _ x := h.assign name x
  functions _ _ h _ hf := h.functions (hused _ hf)
  call _ _ h f c hf hc xs scope :=
    hrule f c xs scope (hused f hf) ((h.right f (hused f hf)).symm.trans hc)

/-- No call sees more than its scope. The induction is on the calls that may still be nested, for
all sets `read` at once: a body may read other variables than its caller. -/
theorem dependsOn_callRule (hclosed : table.Closed used) (limit budget : Nat) (f : String)
    (c : Closure) (xs : List Float) (scope : Variables) (hf : used f) (hc : table[f]? = some c) :
    DependsOn read table used (callRule limit budget f c xs scope) := by
  induction budget generalizing read f c xs scope with
  | zero => exact .throw _
  | succ budget ih =>
    have hcalls : ∀ g, c.body.Calls g → used g := fun g hg => hclosed f g hf ⟨c, hc, hg⟩
    have hbody : DependsOn (fun _ => True) table used
        (c.body.demand (c.body.eval limit budget)) := by
      refine simulates_demand fun hdeclaration => ?_
      rw [eval_eq_evalWith]
      exact simulates_evalWith (respects_agree (fun _ _ => trivial) hcalls ih) hdeclaration
    exact hbody.inCall (fun _ _ h => h.enter f xs scope) fun _ _ _ _ h h' => h.leave h'

/-! ### Calls with the same values -/

/-- What a call does once its arguments have values. -/
def apply (rule : CallRule) (name : String) (f : Closure) (xs : List Float) :
    EvalM (Option Float) :=
  match f.bind? xs with
  | none => throw (.argumentCount name f.params.length xs.length)
  | some scope => do return some (← rule name f xs scope)

theorem runOn_call (rule : CallRule) (name : String) (arguments : List Term) (m : Machine) :
    runOn ((call name arguments).evalWith rule) m = match m.functions[name]? with
      | none => (.error (.unknownFunction name), m)
      | some f => runOn (valuesWith rule arguments >>= apply rule name f) m := by
  rw [evalWith, runOn_bind]
  show runOn (match m.functions[name]? with | none => _ | some f => _) m = _
  cases m.functions[name]? <;> rfl

theorem dependsOn_apply (hclosed : table.Closed used) (limit budget : Nat) {f : String}
    {c : Closure} (hf : used f) (hc : table[f]? = some c) (xs : List Float) :
    DependsOn read table used (apply (callRule limit budget) f c xs) := by
  unfold apply
  split
  · exact .throw _
  · exact (dependsOn_callRule hclosed limit budget f c xs _ hf hc).bind fun x => .pure (some x)

theorem functions_valuesWith (limit budget : Nat) (ts : List Term) (m : Machine) :
    (runOn (valuesWith (callRule limit budget) ts) m).2.functions = m.functions := by
  have hkeeps : Keeps Machine.calls (valuesWith (callRule limit budget) ts) :=
    keeps_valuesWith fun _ _ => keeps_demand (keeps_calls (keeps_callRule limit budget))
  exact congrArg Prod.fst (hkeeps m)

/-- Whatever the arguments of two calls do to the variables of their callers, the machines still
agree on the functions. -/
theorem agree_after_values {m n : Machine} (h : Agree read table used m n) (limit budget : Nat)
    (arguments arguments' : List Term) :
    Agree (fun _ => False) table used (runOn (valuesWith (callRule limit budget) arguments) m).2
      (runOn (valuesWith (callRule limit budget) arguments') n).2 := by
  refine ⟨fun _ => False.elim, fun g hg => ?_, fun g hg => ?_⟩
  · rw [functions_valuesWith, h.left g hg]
  · rw [functions_valuesWith, h.right g hg]

theorem outcome_call_eq {m n : Machine} (h : Agree read table used m n)
    (hclosed : table.Closed used) {f : String} (hf : used f) (limit budget : Nat)
    {arguments arguments' : List Term}
    (hvalues : (runOn (valuesWith (callRule limit budget) arguments) m).1 =
      (runOn (valuesWith (callRule limit budget) arguments') n).1) :
    (runOn ((call f arguments).evalWith (callRule limit budget)) m).1 =
      (runOn ((call f arguments').evalWith (callRule limit budget)) n).1 := by
  rw [runOn_call, runOn_call, h.functions hf]
  cases hc : n.functions[f]? with
  | none => rfl
  | some c =>
    have htable : table[f]? = some c := (h.right f hf).symm.trans hc
    have hafter := agree_after_values h limit budget arguments arguments'
    simp only [runOn_bind]
    generalize runOn (valuesWith (callRule limit budget) arguments) m = p,
      runOn (valuesWith (callRule limit budget) arguments') n = q at hvalues hafter ⊢
    obtain ⟨r, m'⟩ := p
    obtain ⟨r', n'⟩ := q
    obtain rfl : r = r' := hvalues
    cases r with
    | error e => rfl
    | ok xs => exact (dependsOn_apply hclosed limit budget hf htable xs).outcome_eq hafter

end Term

namespace Evaluator

variable {env env' : Environment}

theorem outcome_eq_of_agree (e : Evaluator) {t : Term}
    (hvars : ∀ name, t.Reads name → env.vars[name]? = env'.vars[name]?)
    (hfunctions : ∀ f, t.Uses env.functions f → env.functions[f]? = env'.functions[f]?) :
    (e.evaluate env t).outcome = (e.evaluate env' t).outcome := by
  rw [Session.evaluate_eq ⟨env, e⟩, Session.evaluate_eq ⟨env', e⟩]
  by_cases ht : t.isDeclaration
  · -- a declaration copies the variables, but has no value in either environment
    obtain ⟨name, params, body, rfl⟩ := Term.exists_eq_declare ht
    rfl
  · have hagree : Agree (fun name => t.Reads name) env.functions (t.Uses env.functions)
        (Session.machine ⟨env, e⟩) (Session.machine ⟨env', e⟩) :=
      ⟨hvars, fun _ _ => rfl, fun f hf => (hfunctions f hf).symm⟩
    have hcalls : ∀ f, t.Calls f → t.Uses env.functions f := fun f hf => ⟨f, hf, .refl⟩
    have hruns := Term.simulates_evalWith (Term.respects_agree (fun _ h => h) hcalls
      (Term.dependsOn_callRule (env.functions.closed_uses t) e.limit (e.limit - e.depth))) ht
    exact hruns.outcome_eq hagree

/-- The values of terms that are run one after the other in an environment, as the arguments of a
call are. -/
def values (e : Evaluator) (env : Environment) (ts : List Term) :
    Except RuntimeError (List Float) :=
  (runOn (Term.valuesWith (Session.callRule ⟨env, e⟩) ts) (Session.machine ⟨env, e⟩)).1

theorem outcome_call_eq_of_values (e : Evaluator) {f : String} {arguments arguments' : List Term}
    (hfunctions : ∀ g, Relation.ReflTransGen env.functions.Calls f g →
      env.functions[g]? = env'.functions[g]?)
    (hvalues : e.values env arguments = e.values env' arguments') :
    (e.evaluate env (.call f arguments)).outcome =
      (e.evaluate env' (.call f arguments')).outcome := by
  have hagree : Agree (fun _ => False) env.functions
      (Relation.ReflTransGen env.functions.Calls f) (Session.machine ⟨env, e⟩)
      (Session.machine ⟨env', e⟩) :=
    ⟨fun _ => False.elim, fun _ _ => rfl, fun g hg => (hfunctions g hg).symm⟩
  rw [Session.evaluate_eq ⟨env, e⟩, Session.evaluate_eq ⟨env', e⟩]
  exact Term.outcome_call_eq hagree (env.functions.closed_reflTransGen f) .refl e.limit _ hvalues

/-- A term has the same outcome in any two environments that agree on the variables that it reads
and the functions that it uses. A call depends on the variables of its caller only by the values of
the arguments: with the same values, even of other arguments, it has the same outcome. -/
theorem outcome_is_lexical (e : Evaluator) (env env' : Environment) :
    (∀ t : Term, (∀ name, t.Reads name → env.vars[name]? = env'.vars[name]?) →
      (∀ f, t.Uses env.functions f → env.functions[f]? = env'.functions[f]?) →
      (e.evaluate env t).outcome = (e.evaluate env' t).outcome) ∧
      ∀ (f : String) (arguments arguments' : List Term),
        (∀ g, Relation.ReflTransGen env.functions.Calls f g →
          env.functions[g]? = env'.functions[g]?) →
        e.values env arguments = e.values env' arguments' →
        (e.evaluate env (.call f arguments)).outcome =
          (e.evaluate env' (.call f arguments')).outcome :=
  ⟨fun _ hvars hfunctions => e.outcome_eq_of_agree hvars hfunctions,
    fun _ _ _ hfunctions hvalues => e.outcome_call_eq_of_values hfunctions hvalues⟩

/-- Here `f` has captured an `x`, and calls `g`, which assigns to one. -/
def capturing : Environment :=
  Environment.setVariable {} "a" 2.5
    |>.setFunction "f" ⟨["y"], .chain [.var "x", .call "g" [.var "y"]] [.mul],
      (∅ : Variables).insert "x" 4.5⟩
    |>.setFunction "g" ⟨["z"], .assign "x" (.var "z"), ∅⟩

/-- Another `x` where `f` is called, and another function. -/
def disturbed : Environment :=
  (capturing.setVariable "x" 2.5).setFunction "h" ⟨[], .var "x", ∅⟩

theorem closed_capturing : capturing.functions.Closed (fun f => f = "f" ∨ f = "g") := by
  rintro f g (rfl | rfl) ⟨c, hc, hcalls⟩
  · obtain rfl : ⟨["y"], .chain [.var "x", .call "g" [.var "y"]] [.mul], _⟩ = c :=
      Option.some.inj hc
    rcases hcalls with _ | _ | _ | ⟨_, ht, h⟩
    simp only [List.mem_cons, List.not_mem_nil, or_false] at ht
    obtain rfl | rfl := ht
    · cases h
    · rcases h with _ | ⟨_, ht, h⟩
      · exact .inr rfl
      · cases List.mem_singleton.1 ht
        cases h
  · obtain rfl : ⟨["z"], .assign "x" (.var "z"), _⟩ = c := Option.some.inj hc
    rcases hcalls with _ | _ | ⟨_, h⟩
    cases h

theorem disturbed_outcome_is_lexical :
    (evaluate {} capturing (.assign "b" (.call "f" [.var "a"]))).outcome = .ok (some (4.5 * 2.5)) ∧
      (evaluate {} disturbed (.assign "b" (.call "f" [.var "a"]))).outcome =
        .ok (some (4.5 * 2.5)) ∧
      (evaluate {} disturbed (.call "f" [.var "x"])).outcome =
        (evaluate {} capturing (.call "f" [.var "a"])).outcome := by
  have hout : (evaluate {} capturing (.assign "b" (.call "f" [.var "a"]))).outcome =
      .ok (some (4.5 * 2.5)) := rfl
  have hfunctions : ∀ g, Relation.ReflTransGen capturing.functions.Calls "f" g →
      capturing.functions[g]? = disturbed.functions[g]? := fun g hg => by
    obtain rfl | rfl := closed_capturing.of_reflTransGen (.inl rfl) hg <;> rfl
  obtain ⟨hterm, hcall⟩ := outcome_is_lexical {} capturing disturbed
  refine ⟨hout, ?_, ?_⟩
  · rw [← hout]
    refine (hterm _ (fun name h => ?_) fun g hg => ?_).symm
    · rcases h with _ | ⟨_, _ | _ | ⟨_, ht, h⟩⟩
      cases List.mem_singleton.1 ht
      cases h
      rfl
    · obtain ⟨first, _ | _ | ⟨_, _ | ⟨_, ht, h⟩⟩, hg⟩ := hg
      · exact hfunctions g hg
      · cases List.mem_singleton.1 ht
        cases h
  · exact (hcall "f" [.var "a"] [.var "x"] hfunctions rfl).symm

end Evaluator

end ChainCalc
