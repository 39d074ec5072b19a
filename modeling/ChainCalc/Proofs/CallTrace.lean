import Mathlib.Data.List.Chain
import ChainCalc.Proofs.FunctionTable

/-!
# The trace of the calls

Each call reports how many calls are in progress when it starts. Read in order, these depths are
those of a forest of calls: the first is zero, and each is at most one more than the one before it
(`WellNested`). `reach depths` is how deep the next call may be, and the counter of the machine
never exceeds it. A call raises both to the same number, and a return lowers only the counter, so
this is kept by every run (`Machine.Nested`).

A call is refused when the counter has reached the limit. As the calls so far are all below the
limit, the latest one is then just below it, and a refused call ends the run
(`Session.run_calls_wellNested`).
-/

namespace ChainCalc

open EvalM Grammar

/-! ### Depths of calls -/

/-- How many calls were in progress when the call started that the event reports. -/
def Event.callDepth? : Event → Option Nat
  | calling _ _ depth => some depth
  | lexed .. | skipped .. | parsed .. | assigned .. | declared .. | selected .. => none

/-- The depths of the calls among some events. -/
def callDepths (events : List Event) : List Nat := events.filterMap Event.callDepth?

/-- The depths of calls that are nested in one another, less than `limit` deep. -/
structure WellNested (limit : Nat) (depths : List Nat) : Prop where
  first : ∀ d ∈ depths.head?, d = 0
  below : ∀ d ∈ depths, d < limit
  next : depths.IsChain fun d d' => d' ≤ d + 1

/-- How deep a call after the given ones may be. -/
def reach (depths : List Nat) : Nat := (depths.getLast?.map (· + 1)).getD 0

theorem reach_eq_iff {depths : List Nat} {n : Nat} :
    reach depths = n ↔
      n = 0 ∧ depths = [] ∨ ∃ d, n = d + 1 ∧ depths.getLast? = some d := by
  unfold reach
  cases hlast : depths.getLast? with
  | none =>
    rw [List.getLast?_eq_none_iff] at hlast
    simp [hlast, eq_comm]
  | some d =>
    have hne : depths ≠ [] := by
      rintro rfl
      cases hlast
    simp [hne, eq_comm]

theorem reach_concat (depths : List Nat) (d : Nat) : reach (depths ++ [d]) = d + 1 := by
  simp [reach]

theorem WellNested.nil (limit : Nat) : WellNested limit [] := ⟨by simp, by simp, .nil⟩

namespace WellNested

variable {limit d : Nat} {depths : List Nat}

theorem concat (h : WellNested limit depths) (hlt : d < limit) (hd : d ≤ reach depths) :
    WellNested limit (depths ++ [d]) := by
  refine ⟨fun d' hd' => ?_, fun d' hd' => ?_, ?_⟩
  · cases depths with
    | nil =>
      obtain rfl : d = d' := Option.some.inj hd'
      exact Nat.le_zero.1 hd
    | cons first rest => exact h.first d' hd'
  · rcases List.mem_append.1 hd' with hd' | hd'
    · exact h.below d' hd'
    · rw [List.mem_singleton.1 hd']
      exact hlt
  · refine List.isChain_append.2 ⟨h.next, .singleton d, fun last hlast d' hd' => ?_⟩
    obtain rfl : d = d' := Option.some.inj hd'
    rw [Option.mem_def] at hlast
    simpa [reach, hlast] using hd

theorem reach_le (h : WellNested limit depths) : reach depths ≤ limit := by
  unfold reach
  cases hlast : depths.getLast? with
  | none => exact Nat.zero_le _
  | some d => exact h.below d (List.mem_of_getLast? hlast)

end WellNested

/-! ### Runs that maintain an invariant -/

namespace EvalM

variable {α β : Type}

/-- How a run may end: with the invariant, or in a failure as `failed` describes it. -/
inductive Ended (inv : Machine → Prop) (failed : RuntimeError → Machine → Prop) :
    Except RuntimeError α × Machine → Prop
  | ok (a : α) {m : Machine} (h : inv m) : Ended inv failed (.ok a, m)
  | error {e : RuntimeError} {m : Machine} (h : failed e m) : Ended inv failed (.error e, m)

/-- From a machine with the invariant, `x` leads to one with the invariant unless it fails. -/
def Maintains (inv : Machine → Prop) (failed : RuntimeError → Machine → Prop) (x : EvalM α) :
    Prop :=
  ∀ m, inv m → Ended inv failed (runOn x m)

namespace Maintains

variable {inv : Machine → Prop} {failed : RuntimeError → Machine → Prop}

theorem pure (a : α) : Maintains inv failed (Pure.pure a : EvalM α) := fun _ h => .ok a h

theorem throw {e : RuntimeError} (h : ∀ m, inv m → failed e m) :
    Maintains inv failed (MonadExcept.throw e : EvalM α) :=
  fun m hm => .error (h m hm)

theorem modify {f : Machine → Machine} (h : ∀ m, inv m → inv (f m)) :
    Maintains inv failed (modify f : EvalM PUnit) :=
  fun m hm => .ok PUnit.unit (h m hm)

theorem get_bind {k : Machine → EvalM α} (h : ∀ m, Maintains inv failed (k m)) :
    Maintains inv failed (MonadState.get >>= k) :=
  fun m => h m m

theorem bind {x : EvalM α} {k : α → EvalM β} (hx : Maintains inv failed x)
    (hk : ∀ a, Maintains inv failed (k a)) : Maintains inv failed (x >>= k) := by
  intro m hm
  have hended := hx m hm
  rw [runOn_bind]
  generalize runOn x m = p at hended ⊢
  cases hended with
  | error h => exact .error h
  | @ok a m' h => exact hk a m' h

/-- The body of a call may maintain another invariant, if entering the call leads there and leaving
it leads back. -/
theorem inCall {inv' : Machine → Prop} {body : EvalM Float} (h : Maintains inv' failed body)
    {name : String} {xs : List Float} {scope : Variables}
    (henter : ∀ m, inv m → inv' (m.enter name xs scope))
    (hleave : ∀ m m', inv m → inv' m' → inv (m'.leave m.vars))
    (hfailed : ∀ (m m' : Machine) e, failed e m' → failed e (m'.leave m.vars)) :
    Maintains inv failed (EvalM.inCall name xs scope body) := by
  intro m hm
  have hended := h _ (henter m hm)
  rw [runOn_inCall]
  generalize runOn body (m.enter name xs scope) = p at hended ⊢
  cases hended with
  | error h => exact .error (hfailed m _ _ h)
  | @ok a m' h => exact .ok a (hleave m m' hm h)

end Maintains

theorem Maintains.composes {inv : Machine → Prop} {failed : RuntimeError → Machine → Prop}
    (h : ∀ e m, (∀ name limit, e ≠ .recursionLimit name limit) → inv m → failed e m) :
    Composes fun _ x => Maintains inv failed x where
  pure := .pure
  throw he := .throw fun m => h _ m he
  get_bind := .get_bind
  bind := .bind

end EvalM

/-! ### The invariant of the calls -/

namespace Machine

def callDepths (m : Machine) : List Nat := ChainCalc.callDepths m.trace.reverse

/-- The calls so far are nested, and so they would be with one more at the present depth. -/
structure Nested (limit depth : Nat) (m : Machine) : Prop where
  wellNested : WellNested limit m.callDepths
  depth_eq : m.depth = depth
  le_reach : depth ≤ reach m.callDepths

/-- What a failure leaves. If it is about the limit, the next call would have been at the limit. -/
structure Broken (limit : Nat) (e : RuntimeError) (m : Machine) : Prop where
  wellNested : WellNested limit m.callDepths
  limit_reached : ∀ name bound, e = .recursionLimit name bound →
    bound = limit ∧ reach m.callDepths = limit

theorem callDepths_assign (m : Machine) (name : String) (x : Float) :
    (m.assign name x).callDepths = m.callDepths := by
  simp [callDepths, ChainCalc.callDepths, assign, log, Event.callDepth?]

theorem callDepths_enter (m : Machine) (name : String) (xs : List Float) (scope : Variables) :
    (m.enter name xs scope).callDepths = m.callDepths ++ [m.depth] := by
  simp [callDepths, ChainCalc.callDepths, enter, log, Event.callDepth?]

namespace Nested

variable {limit depth : Nat} {m : Machine}

theorem assign (h : m.Nested limit depth) (name : String) (x : Float) :
    (m.assign name x).Nested limit depth := by
  obtain ⟨hnested, hdepth, hreach⟩ := h
  rw [← callDepths_assign m name x] at hnested hreach
  exact ⟨hnested, hdepth, hreach⟩

theorem enter (h : m.Nested limit depth) (hlt : depth < limit) (name : String) (xs : List Float)
    (scope : Variables) : (m.enter name xs scope).Nested limit (depth + 1) := by
  obtain ⟨hnested, rfl, hreach⟩ := h
  have hcalls := m.callDepths_enter name xs scope
  refine ⟨?_, rfl, ?_⟩
  · rw [hcalls]
    exact hnested.concat hlt hreach
  · rw [hcalls, reach_concat]

theorem leave (h : m.Nested limit (depth + 1)) (caller : Variables) :
    (m.leave caller).Nested limit depth := by
  obtain ⟨hnested, hdepth, hreach⟩ := h
  refine ⟨hnested, ?_, Nat.le_of_succ_le hreach⟩
  show m.depth - 1 = depth
  omega

/-- At the limit, the calls so far have got as far as they may. -/
theorem broken (h : m.Nested limit limit) (name : String) :
    Broken limit (.recursionLimit name limit) m := by
  refine ⟨h.wellNested, ?_⟩
  rintro _ _ ⟨⟩
  exact ⟨rfl, Nat.le_antisymm h.wellNested.reach_le h.le_reach⟩

end Nested

theorem Broken.leave {limit : Nat} {e : RuntimeError} {m : Machine} (h : Broken limit e m)
    (caller : Variables) : Broken limit e (m.leave caller) :=
  ⟨h.wellNested, h.limit_reached⟩

end Machine

namespace Term

open Machine (Nested Broken)

theorem composes_nested (limit depth : Nat) :
    Composes fun _ x => Maintains (Nested limit depth) (Broken limit) x :=
  Maintains.composes fun _ _ he h =>
    ⟨h.wellNested, fun name bound heq => absurd heq (he name bound)⟩

theorem maintains_evalWith {limit depth : Nat} {rule : CallRule}
    (hrule : ∀ name f xs scope,
      Maintains (Nested limit depth) (Broken limit) (rule name f xs scope))
    (t : Term) (ht : ¬ t.isDeclaration) :
    Maintains (Nested limit depth) (Broken limit) (t.evalWith rule) :=
  (composes_nested limit depth).evalWith hrule t
    (fun name _ x => .modify fun _ h => h.assign name x) ht

/-- The counter of a machine and the calls that may still be nested always add up to the limit. -/
theorem maintains_callRule {limit depth budget : Nat} (hlimit : depth + budget = limit)
    (name : String) (f : Closure) (xs : List Float) (scope : Variables) :
    Maintains (Nested limit depth) (Broken limit) (callRule limit budget name f xs scope) := by
  induction budget generalizing depth name f xs scope with
  | zero =>
    obtain rfl : depth = limit := hlimit
    exact .throw fun m h => h.broken name
  | succ budget ih =>
    have hbody : Maintains (Nested limit (depth + 1)) (Broken limit)
        (f.body.demand (f.body.eval limit budget)) := by
      refine (composes_nested limit (depth + 1)).demand fun hdeclaration => ?_
      rw [eval_eq_evalWith]
      exact maintains_evalWith (ih (by omega)) f.body hdeclaration
    refine hbody.inCall (fun m h => h.enter (by omega) name xs scope) ?_ ?_
    · exact fun m _ _ h => h.leave m.vars
    · exact fun m _ _ h => h.leave m.vars

end Term

/-! ### Statements -/

theorem Evaluator.evaluate_wellNested (env : Environment) (limit : Nat) (t : Term) :
    let ran := evaluate { limit } env t
    WellNested limit (callDepths ran.events) ∧
      ∀ name bound, ran.outcome = .error (.recursionLimit name bound) →
        bound = limit ∧ reach (callDepths ran.events) = limit := by
  intro ran
  have hran : ran = _ := Session.evaluate_eq ⟨env, { limit }⟩ t
  rw [hran]
  by_cases ht : t.isDeclaration
  · obtain ⟨f, params, body, rfl⟩ := Term.exists_eq_declare ht
    exact ⟨.nil limit, nofun⟩
  · have hstart : Machine.Nested limit 0 (Session.machine ⟨env, { limit }⟩) :=
      ⟨.nil limit, rfl, Nat.zero_le _⟩
    have hrun : Maintains (Machine.Nested limit 0) (Machine.Broken limit)
        (t.evalWith (Session.callRule ⟨env, { limit }⟩)) :=
      Term.maintains_evalWith (Term.maintains_callRule (Nat.zero_add limit)) t ht
    have hended := hrun _ hstart
    generalize runOn (t.evalWith (Session.callRule ⟨env, { limit }⟩)) _ = p at hended ⊢
    cases hended with
    | ok r h => exact ⟨h.wellNested, nofun⟩
    | error h =>
      exact ⟨h.wellNested, fun name bound he => h.limit_reached name bound (Except.error.inj he)⟩

theorem callDepths_append (events more : List Event) :
    callDepths (events ++ more) = callDepths events ++ callDepths more :=
  List.filterMap_append

theorem callDepths_map_ofPiece (pieces : List Piece) :
    callDepths (pieces.map Event.ofPiece) = [] := by
  rw [callDepths, List.filterMap_map, List.filterMap_eq_nil_iff]
  rintro (token | ⟨c, column⟩) -
  · rfl
  · rfl

namespace Session

variable {s : Session} {source : String}

theorem callDepths_run_of_error {e : ParseError} (h : parse (tokenize source) = .error e) :
    callDepths (s.run source).events = [] := by
  have hparse : parse ((pieces source).filterMap Piece.token?) = .error e := h
  simp only [run, hparse]
  exact callDepths_map_ofPiece _

theorem run_eq_runtime_iff {t : Term} (h : parse (tokenize source) = .ok t) {e : RuntimeError} :
    (s.run source).outcome = .error (.runtime e) ↔
      (s.evaluator.evaluate s.environment t).outcome = .error e := by
  have hparse : parse ((pieces source).filterMap Piece.token?) = .ok t := h
  simp only [run, hparse]
  cases (s.evaluator.evaluate s.environment t).outcome with
  | error e' => simp [Except.mapError]
  | ok r => simp [Except.mapError]

theorem callDepths_run_of_ok {t : Term} (h : parse (tokenize source) = .ok t) :
    callDepths (s.run source).events =
      callDepths (s.evaluator.evaluate s.environment t).events := by
  have hparse : parse ((pieces source).filterMap Piece.token?) = .ok t := h
  simp only [run, hparse, callDepths_append, callDepths_map_ofPiece]
  rfl

/-- The calls of a statement are nested in one another and less deep than the limit. If the
statement fails at the limit, its last call was the deepest that is allowed, or no call is allowed
at all. This is so for every statement of a session, as the evaluator stays as it is. -/
theorem run_calls_wellNested (env : Environment) (limit : Nat) (source : String) :
    let ran := run ⟨env, { limit }⟩ source
    WellNested limit (callDepths ran.events) ∧
      (∀ name bound, ran.outcome = .error (.runtime (.recursionLimit name bound)) →
        bound = limit ∧
          (limit = 0 ∧ callDepths ran.events = [] ∨
            ∃ d, limit = d + 1 ∧ (callDepths ran.events).getLast? = some d)) ∧
      ran.session.evaluator = { limit } := by
  intro ran
  have hevaluator : ran.session.evaluator = { limit } := evaluator_run _ source
  rcases hparse : parse (tokenize source) with e | t
  · rw [(run_of_parse_error hparse).1, callDepths_run_of_error hparse]
    exact ⟨.nil limit, nofun, hevaluator⟩
  · obtain ⟨hnested, hlimit⟩ := Evaluator.evaluate_wellNested env limit t
    rw [callDepths_run_of_ok hparse]
    refine ⟨hnested, fun name bound hfails => ?_, hevaluator⟩
    rw [← reach_eq_iff]
    exact hlimit name bound ((run_eq_runtime_iff hparse).1 hfails)

/-- Here `f` calls itself with an argument that calls `g`, without end. -/
def spiral : Environment :=
  Environment.setFunction {} "g" ⟨["x"], .var "x", ∅⟩
    |>.setFunction "f" ⟨["x"], .call "f" [.call "g" [.var "x"]], ∅⟩

theorem spiral_run_calls_wellNested :
    let ran := run ⟨spiral, { limit := 3 }⟩ "f(2.5)"
    callDepths ran.events = [0, 1, 1, 2, 2] ∧
      ran.outcome = .error (.runtime (.recursionLimit "g" 3)) ∧
      WellNested 3 (callDepths ran.events) ∧
      ∃ d, 3 = d + 1 ∧ (callDepths ran.events).getLast? = some d := by
  intro ran
  have hcall := Operand.call "f" (.last (.lone (.number "2.5")))
  have hparse : parse (tokenize "f(2.5)") = _ :=
    parse_tokenize_eq_ok_iff.2 (.expression (.lone hcall))
  have hout : ran.outcome = .error (.runtime (.recursionLimit "g" 3)) :=
    (run_eq_runtime_iff hparse).2 rfl
  have hcalls : callDepths ran.events = [0, 1, 1, 2, 2] := callDepths_run_of_ok hparse
  obtain ⟨hnested, hlimit, -⟩ := run_calls_wellNested spiral 3 "f(2.5)"
  obtain ⟨-, ⟨hzero, -⟩ | hlast⟩ := hlimit "g" 3 hout
  · cases hzero
  · exact ⟨hcalls, hout, hnested, hlast⟩

end Session

end ChainCalc
