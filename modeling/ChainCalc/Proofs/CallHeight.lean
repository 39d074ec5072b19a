import ChainCalc.Proofs.Strictness
import Mathlib

/-!
# The height of a term and the limit on nested calls

`Term.height functions t` is the length of the longest chain of nested calls that `t` can lead to,
read off the term and the bodies of the functions it calls; it is infinite if there is a cycle. A
call in an argument is not nested in the call that has the argument, and the body of a declaration
is not run.

As every operand, every argument and every body is run, the limit is respected exactly if the height
is within it (`Evaluator.limit_is_on_height`): a term that succeeds has no greater height, and one
that runs into the limit has.
-/

namespace ChainCalc

open EvalM

namespace Term

/-- A chain of `n` calls, each in the body of the function that the one before it calls, or in an
argument there. -/
inductive Nests (functions : Functions) : Term → Nat → Prop
  | none (t : Term) : Nests functions t 0
  | argument {f : String} {arguments : List Term} {t : Term} {n : Nat} (ht : t ∈ arguments)
      (h : Nests functions t n) : Nests functions (call f arguments) n
  | body {f : String} {c : Closure} {n : Nat} (arguments : List Term)
      (hf : functions[f]? = some c) (h : Nests functions c.body n) :
      Nests functions (call f arguments) (n + 1)
  | value {name : String} {t : Term} {n : Nat} (h : Nests functions t n) :
      Nests functions (assign name t) n
  | operand {operands : List Term} {operators : List Operator} {t : Term} {n : Nat}
      (ht : t ∈ operands) (h : Nests functions t n) : Nests functions (chain operands operators) n

/-- The length of the longest chain of nested calls. -/
noncomputable def height (functions : Functions) (t : Term) : ℕ∞ :=
  ⨆ (n : ℕ) (_ : Nests functions t n), (n : ℕ∞)

section Height

variable {functions : Functions} {t : Term} {b : ℕ∞}

theorem height_le_iff : height functions t ≤ b ↔ ∀ n : ℕ, Nests functions t n → (n : ℕ∞) ≤ b := by
  rw [height, iSup₂_le_iff]

theorem Nests.le_height {n : ℕ} (h : Nests functions t n) : (n : ℕ∞) ≤ height functions t :=
  height_le_iff.1 le_rfl n h

theorem height_eq_zero (h : ∀ n, Nests functions t n → n = 0) : height functions t = 0 := by
  refine le_antisymm (height_le_iff.2 fun n hn => ?_) bot_le
  rw [h n hn]
  exact le_rfl

theorem height_number (text : String) : height functions (number text) = 0 :=
  height_eq_zero (by rintro n ⟨⟩; rfl)

theorem height_var (name : String) : height functions (var name) = 0 :=
  height_eq_zero (by rintro n ⟨⟩; rfl)

theorem height_declare (name : String) (params : List String) (body : Term) :
    height functions (declare name params body) = 0 :=
  height_eq_zero (by rintro n ⟨⟩; rfl)

theorem height_assign (name : String) (value : Term) :
    height functions (assign name value) = height functions value := by
  refine le_antisymm (height_le_iff.2 ?_) (height_le_iff.2 ?_)
  · rintro n (_ | _ | _ | h)
    · exact bot_le
    · exact h.le_height
  · intro n h
    exact h.value.le_height

theorem height_chain (operands : List Term) (operators : List Operator) :
    height functions (chain operands operators) = ⨆ t ∈ operands, height functions t := by
  refine le_antisymm (height_le_iff.2 ?_) (iSup₂_le fun t ht => height_le_iff.2 ?_)
  · rintro n (_ | _ | _ | _ | ⟨ht, h⟩)
    · exact bot_le
    · exact le_iSup₂_of_le _ ht h.le_height
  · intro n h
    exact (h.operand ht).le_height

theorem height_body_succ_le {f : String} {c : Closure} (hf : functions[f]? = some c)
    (arguments : List Term) :
    height functions c.body + 1 ≤ height functions (call f arguments) := by
  have hle : ∀ n : ℕ, Nests functions c.body n →
      (n : ℕ∞) + 1 ≤ height functions (call f arguments) := fun n h => by
    exact_mod_cast (h.body arguments hf).le_height
  have hone : 1 ≤ height functions (call f arguments) := by
    simpa using hle 0 (.none c.body)
  have hbody : height functions c.body ≤ height functions (call f arguments) - 1 :=
    height_le_iff.2 fun n h => ENat.le_sub_of_add_le_right ENat.one_ne_top (hle n h)
  calc height functions c.body + 1
      ≤ height functions (call f arguments) - 1 + 1 := add_le_add_left hbody 1
    _ = height functions (call f arguments) := tsub_add_cancel_of_le hone

/-- A call is as high as the highest of its arguments and, if the function is declared, at least
one higher than its body. -/
theorem height_call (f : String) (arguments : List Term) :
    height functions (call f arguments) =
      max (⨆ t ∈ arguments, height functions t)
        (match functions[f]? with
          | none => 0
          | some c => height functions c.body + 1) := by
  refine le_antisymm (height_le_iff.2 ?_) (max_le (iSup₂_le fun t ht => height_le_iff.2 ?_) ?_)
  · rintro n (_ | ⟨ht, h⟩ | ⟨_, hf, h⟩)
    · exact bot_le
    · exact le_max_of_le_left (le_iSup₂_of_le _ ht h.le_height)
    · refine le_max_of_le_right ?_
      rw [hf]
      push_cast
      exact add_le_add_left h.le_height 1
  · intro n h
    exact (h.argument ht).le_height
  · split
    · exact bot_le
    · exact height_body_succ_le (by assumption) arguments

end Height

/-! ### Runs of a term -/

end Term

/-- The error of a call that would be nested too deep. -/
def RuntimeError.IsLimit : RuntimeError → Prop
  | recursionLimit .. => True
  | _ => False

namespace Term

open RuntimeError (IsLimit)

variable {functions : Functions}

/-- A term tests that its height is within a bound if each call tests that its body is below it. -/
theorem tests_height {rule : CallRule} {b : ℕ∞}
    (hrule : ∀ name f xs scope, Keeps Machine.state (rule name f xs scope))
    (hcall : ∀ name f xs scope,
      Tests Machine.functions functions IsLimit (height functions f.body + 1 ≤ b)
        (rule name f xs scope))
    (t : Term) (ht : ¬ t.isDeclaration) :
    Tests Machine.functions functions IsLimit (height functions t ≤ b) (t.evalWith rule) := by
  have hkeeps : ∀ t : Term, Keeps Machine.functions (t.demand (t.evalWith rule)) := fun t =>
    keeps_demand fun ht m => congrArg Prod.fst (keeps_calls hrule ht m)
  have hdemand : ∀ t : Term,
      (¬ t.isDeclaration →
        Tests Machine.functions functions IsLimit (height functions t ≤ b) (t.evalWith rule)) →
      Tests Machine.functions functions IsLimit (height functions t ≤ b)
        (t.demand (t.evalWith rule)) := fun t h =>
    tests_demand (fun _ => False.elim) fun ht => h (not_isDeclaration_of_hasValue ht)
  induction t using Term.induction with
  | number text =>
    unfold evalWith
    refine Tests.bind_pure (.ofExcept (fun _ _ => ?_) fun e he hlimit => ?_) (.ofExcept _) _
    · rw [height_number]
      exact bot_le
    · rw [Number.read_eq_error he] at hlimit
      exact hlimit.elim
  | var name =>
    unfold evalWith
    refine .get_bind fun m _ => ?_
    split
    · exact .pure _ (by rw [height_var]; exact bot_le)
    · exact .throw False.elim
  | assign name value ih =>
    rw [height_assign]
    unfold evalWith
    refine ((hdemand value ih).bind (hkeeps value) fun x => ?_).of_iff (and_iff_left trivial)
    exact (Tests.modify (·.assign name x) trivial).bind_pure (Keeps.modify fun _ => rfl) _
  | declare name params body => exact absurd rfl ht
  | call name arguments ih =>
    have hrule : ∀ name f xs scope, Keeps Machine.functions (rule name f xs scope) :=
      fun name f xs scope m => congrArg (·.2.1) (hrule name f xs scope m)
    refine tests_call (fun f => height functions f.body + 1 ≤ b) (fun m hm => hm) hrule
      (fun t _ => hkeeps t) (fun t ht => hdemand t (ih t ht)) (fun _ => False.elim)
      (fun _ _ => False.elim) (fun f xs scope _ _ _ => hcall name f xs scope) fun f hf => ?_
    rw [height_call, hf, max_le_iff, iSup₂_le_iff]
  | chain operands operators ih =>
    -- an ill-formed chain fails, but not at the limit
    rw [height_chain, iSup₂_le_iff]
    exact tests_chain id (fun _ => False.elim) (fun t _ => hkeeps t) fun t ht => hdemand t (ih t ht)

/-- The induction is on the calls that may still be nested: the body runs with one call fewer. -/
theorem tests_height_callRule (functions : Functions) (limit budget : Nat) (name : String)
    (f : Closure) (xs : List Float) (scope : Variables) :
    Tests Machine.functions functions IsLimit (height functions f.body + 1 ≤ (budget : ℕ∞))
      (callRule limit budget name f xs scope) := by
  induction budget generalizing name f xs scope with
  | zero => exact .throw fun _ => by simp
  | succ budget ih =>
    have hbody : Tests Machine.functions functions IsLimit (height functions f.body ≤ (budget : ℕ∞))
        (f.body.demand (f.body.eval limit budget)) := by
      rw [eval_eq_evalWith]
      refine tests_demand (fun _ => False.elim) fun hvalue => ?_
      exact tests_height (keeps_callRule limit budget) ih _ (not_isDeclaration_of_hasValue hvalue)
    refine (Tests.inCall hbody fun m hm => hm).of_iff ?_
    push_cast
    exact (ENat.add_le_add_iff_right ENat.one_ne_top).symm

/-! ### The graph of calls -/

/-- Calls of `f` in a term, except those in the bodies that it declares. -/
inductive Calls (f : String) : Term → Prop
  | here (arguments : List Term) : Calls f (call f arguments)
  | argument (g : String) {arguments : List Term} {t : Term} (ht : t ∈ arguments)
      (h : Calls f t) : Calls f (call g arguments)
  | value (name : String) {t : Term} (h : Calls f t) : Calls f (assign name t)
  | operand (operators : List Operator) {operands : List Term} {t : Term} (ht : t ∈ operands)
      (h : Calls f t) : Calls f (chain operands operators)

theorem Calls.height_succ_le {f : String} {c : Closure} {t : Term} (h : Calls f t)
    (hf : functions[f]? = some c) : height functions c.body + 1 ≤ height functions t := by
  induction h with
  | here arguments => exact height_body_succ_le hf arguments
  | argument g ht _ ih =>
    rw [height_call]
    exact le_max_of_le_left (le_iSup₂_of_le _ ht ih)
  | value name _ ih =>
    rw [height_assign]
    exact ih
  | operand operators ht _ ih =>
    rw [height_chain]
    exact le_iSup₂_of_le _ ht ih

end Term

/-- The body of the function `f` calls `g`. -/
def Functions.Calls (functions : Functions) (f g : String) : Prop :=
  ∃ c, functions[f]? = some c ∧ c.body.Calls g

namespace Functions

variable {functions : Functions} {f g : String}

theorem height_succ_le_of_transGen (h : Relation.TransGen functions.Calls f g) {c c' : Closure}
    (hf : functions[f]? = some c) (hg : functions[g]? = some c') :
    c'.body.height functions + 1 ≤ c.body.height functions := by
  induction h generalizing c' with
  | single h =>
    obtain ⟨c₁, hf', hcalls⟩ := h
    obtain rfl := Option.some.inj (hf.symm.trans hf')
    exact hcalls.height_succ_le hg
  | tail _ h ih =>
    obtain ⟨c₁, hmiddle, hcalls⟩ := h
    calc c'.body.height functions + 1
        ≤ c₁.body.height functions := hcalls.height_succ_le hg
      _ ≤ c₁.body.height functions + 1 := le_self_add
      _ ≤ c.body.height functions := ih hmiddle

/-- A call of a function on a cycle has no end. -/
theorem height_call_eq_top (h : Relation.TransGen functions.Calls f f) (arguments : List Term) :
    (Term.call f arguments).height functions = ⊤ := by
  obtain ⟨g, ⟨c, hf, -⟩, -⟩ := Relation.TransGen.head'_iff.1 h
  have hsucc := height_succ_le_of_transGen h hf hf
  have htop : c.body.height functions = ⊤ := by
    by_contra hne
    exact lt_irrefl _ ((ENat.add_one_le_iff hne).1 hsucc)
  have hle := Term.height_body_succ_le hf arguments
  rw [htop] at hle
  exact top_le_iff.1 hle

end Functions

namespace Evaluator

variable {env : Environment} {limit : Nat} {t : Term}

theorem tests_height_evaluate (env : Environment) (limit : Nat) (ht : ¬ t.isDeclaration) :
    Tests Machine.functions env.functions RuntimeError.IsLimit (t.height env.functions ≤ limit)
      (t.evalWith (Session.callRule ⟨env, { limit }⟩)) :=
  Term.tests_height (Term.keeps_callRule limit limit)
    (Term.tests_height_callRule env.functions limit limit) t ht

theorem height_le_of_evaluate_ok {r : Option Float}
    (h : (evaluate { limit } env t).outcome = .ok r) : t.height env.functions ≤ limit := by
  rw [Session.evaluate_eq ⟨env, { limit }⟩] at h
  by_cases ht : t.isDeclaration
  · obtain ⟨name, params, body, rfl⟩ := Term.exists_eq_declare ht
    rw [Term.height_declare]
    exact bot_le
  · exact (tests_height_evaluate env limit ht).of_ok _ r rfl h

theorem lt_height_of_evaluate_limit {name : String} {bound : Nat}
    (h : (evaluate { limit } env t).outcome = .error (.recursionLimit name bound)) :
    limit < t.height env.functions := by
  rw [Session.evaluate_eq ⟨env, { limit }⟩] at h
  by_cases ht : t.isDeclaration
  · obtain ⟨name, params, body, rfl⟩ := Term.exists_eq_declare ht
    cases h
  · exact not_le.1 ((tests_height_evaluate env limit ht).of_error _ _ rfl h trivial)

/-- The limit is on the height of a term: one that succeeds is no higher, and one that runs into
the limit is. So a call of a function on a cycle of calls never succeeds. -/
theorem limit_is_on_height (env : Environment) (limit : Nat) (t : Term) :
    (∀ r, (evaluate { limit } env t).outcome = .ok r → t.height env.functions ≤ limit) ∧
      (∀ name bound, (evaluate { limit } env t).outcome = .error (.recursionLimit name bound) →
        limit < t.height env.functions) ∧
      ∀ f arguments, Relation.TransGen env.functions.Calls f f →
        ∀ r, (evaluate { limit } env (.call f arguments)).outcome ≠ .ok r := by
  refine ⟨fun r h => height_le_of_evaluate_ok h, fun name bound h => lt_height_of_evaluate_limit h,
    fun f arguments hcycle r h => ?_⟩
  have hle := height_le_of_evaluate_ok h
  rw [Functions.height_call_eq_top hcycle] at hle
  exact absurd hle (by simp)

/-- Here `two` calls `one`, and `ping` and `pong` call each other. -/
def towers : Environment :=
  Environment.setFunction {} "one" ⟨[], .number "1.5", ∅⟩
    |>.setFunction "two" ⟨[], .chain [.call "one" [], .number "2.5"] [.add], ∅⟩
    |>.setFunction "ping" ⟨["x"], .call "pong" [.var "x"], ∅⟩
    |>.setFunction "pong" ⟨["x"], .assign "y" (.call "ping" [.var "x"]), ∅⟩

theorem towers_limit_is_on_height :
    (evaluate { limit := 2 } towers (.call "two" [])).outcome = .ok (some (1.5 + 2.5)) ∧
      (Term.call "two" []).height towers.functions ≤ (2 : Nat) ∧
      (evaluate { limit := 1 } towers (.call "two" [])).outcome =
        .error (.recursionLimit "one" 1) ∧
      (1 : Nat) < (Term.call "two" []).height towers.functions ∧
      ∀ limit r, (evaluate { limit } towers (.call "ping" [.number "1"])).outcome ≠ .ok r := by
  have hok : (evaluate { limit := 2 } towers (.call "two" [])).outcome = .ok (some (1.5 + 2.5)) :=
    rfl
  have hlimit : (evaluate { limit := 1 } towers (.call "two" [])).outcome =
      .error (.recursionLimit "one" 1) := rfl
  refine ⟨hok, ?_, hlimit, ?_, fun limit => ?_⟩
  · exact (limit_is_on_height towers 2 _).1 _ hok
  · exact (limit_is_on_height towers 1 _).2.1 "one" 1 hlimit
  · refine (limit_is_on_height towers limit (.call "two" [])).2.2 "ping" _ ?_
    refine .tail (.single ⟨_, rfl, .here _⟩) ⟨_, rfl, .value "y" (.here _)⟩

end Evaluator

end ChainCalc
