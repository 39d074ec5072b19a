import ChainCalc.Proofs.Simulation

/-!
# Raising the limit on nested calls

The limit only decides when a run is cut short. Two runs of a term with different limits are equal
step by step up to the first call that is refused by the lower one, and a refused call ends its run.
So a run that does not end at the limit is the same under every higher limit
(`Evaluator.evaluate_of_higher_limit`), events included.
-/

namespace ChainCalc

open EvalM
open RuntimeError (IsLimit)

theorem RuntimeError.IsLimit.exists_eq {e : RuntimeError} (h : e.IsLimit) :
    ∃ name bound, e = .recursionLimit name bound := by
  cases e with
  | recursionLimit name bound => exact ⟨name, bound, rfl⟩
  | numberFormat | unknownVariable | unknownFunction | divisionByZero | argumentCount
  | missingValue => exact h.elim

theorem EvalM.Simulates.runOn_eq {α : Type} {excused : RuntimeError → Prop} {x y : EvalM α}
    (h : Simulates Eq excused x y) {m : Machine}
    (hx : ∀ e, (runOn x m).1 = .error e → ¬ excused e) : runOn y m = runOn x m := by
  have hends := h m m rfl
  generalize runOn x m = p, runOn y m = q at hends hx ⊢
  cases hends with
  | excused he => exact absurd he (hx _ rfl)
  | alike r hmn => rw [hmn]

namespace Term

/-- Equal machines look alike to every term. -/
theorem respects_eq {excused : RuntimeError → Prop} {rule rule' : CallRule}
    (h : ∀ f c xs scope, Simulates Eq excused (rule f c xs scope) (rule' f c xs scope)) (t : Term) :
    Respects Eq excused rule rule' t where
  vars := by
    rintro m _ rfl name -
    rfl
  assign := by
    rintro m _ rfl name - x
    rfl
  functions := by
    rintro m _ rfl f -
    rfl
  call _ _ _ f c _ _ := h f c

/-- The induction is on the calls that may still be nested under the lower limit. When there are
none left, the failure is excused, whatever the other run does. -/
theorem simulates_callRule_of_le (limit limit' : Nat) {budget budget' : Nat}
    (hle : budget ≤ budget') (name : String) (f : Closure) (xs : List Float) (scope : Variables) :
    Simulates Eq IsLimit (callRule limit budget name f xs scope)
      (callRule limit' budget' name f xs scope) := by
  induction budget generalizing budget' name f xs scope with
  | zero => exact .throw_excused trivial _
  | succ budget ih =>
    cases budget' with
    | zero => omega
    | succ budget' =>
      have hbody : Simulates Eq IsLimit (f.body.demand (f.body.eval limit budget))
          (f.body.demand (f.body.eval limit' budget')) := by
        refine simulates_demand fun hdeclaration => ?_
        rw [eval_eq_evalWith, eval_eq_evalWith]
        exact simulates_evalWith (respects_eq (ih (Nat.le_of_succ_le_succ hle)) _) hdeclaration
      refine hbody.inCall ?_ ?_
      · rintro m _ rfl
        rfl
      · rintro m _ m' _ rfl rfl
        rfl

end Term

namespace Evaluator

/-- A term that does not run into a limit does the same under every higher one: its outcome, the
environment that it leaves and its events are equal. -/
theorem evaluate_of_higher_limit (env : Environment) (t : Term) {limit limit' : Nat}
    (hle : limit ≤ limit')
    (h : ∀ name bound,
      (evaluate { limit } env t).outcome ≠ .error (.recursionLimit name bound)) :
    (evaluate { limit := limit' } env t).outcome = (evaluate { limit } env t).outcome ∧
      (evaluate { limit := limit' } env t).environment = (evaluate { limit } env t).environment ∧
      (evaluate { limit := limit' } env t).events = (evaluate { limit } env t).events := by
  rw [Session.evaluate_eq ⟨env, { limit }⟩] at h ⊢
  rw [Session.evaluate_eq ⟨env, { limit := limit' }⟩]
  by_cases ht : t.isDeclaration
  · obtain ⟨name, params, body, rfl⟩ := Term.exists_eq_declare ht
    exact ⟨rfl, rfl, rfl⟩
  · have hcalls := Term.simulates_callRule_of_le limit limit' hle
    have hruns := Term.simulates_evalWith (Term.respects_eq hcalls t) ht
    have heq : runOn (t.evalWith (Session.callRule ⟨env, { limit := limit' }⟩))
          (Session.machine ⟨env, { limit := limit' }⟩) =
        runOn (t.evalWith (Session.callRule ⟨env, { limit }⟩))
          (Session.machine ⟨env, { limit }⟩) := by
      refine hruns.runOn_eq fun e he hlimit => ?_
      obtain ⟨name, bound, rfl⟩ := hlimit.exists_eq
      exact h name bound he
    rw [heq]
    exact ⟨rfl, rfl, rfl⟩

/-- Here `f` calls `g` with too few arguments, which shows before the limit does. -/
def shortCall : Environment :=
  Environment.setFunction {} "g" ⟨["a", "b"], .var "a", ∅⟩
    |>.setFunction "f" ⟨["x"], .chain [.var "x", .call "g" [.assign "y" (.var "x")]] [.add], ∅⟩

theorem shortCall_evaluate_of_higher_limit :
    (evaluate { limit := 1 } shortCall (.call "f" [.number "1"])).outcome =
        .error (.argumentCount "g" 2 1) ∧
      (evaluate { limit := 256 } shortCall (.call "f" [.number "1"])).outcome =
        .error (.argumentCount "g" 2 1) ∧
      (evaluate { limit := 256 } shortCall (.call "f" [.number "1"])).environment =
        (evaluate { limit := 1 } shortCall (.call "f" [.number "1"])).environment := by
  have hout : (evaluate { limit := 1 } shortCall (.call "f" [.number "1"])).outcome =
      .error (.argumentCount "g" 2 1) := rfl
  obtain ⟨hsame, henvironment, -⟩ :=
    evaluate_of_higher_limit shortCall (.call "f" [.number "1"]) (show 1 ≤ 256 by decide)
      (by rw [hout]; nofun)
  exact ⟨hout, hsame.trans hout, henvironment⟩

end Evaluator

end ChainCalc
