import ChainCalc.Environment
import ChainCalc.Event
import ChainCalc.RuntimeError

/-!
# Evaluation

A term is run on a machine: the variables in scope, the functions, the number of calls in progress
and the events so far. A failure keeps the machine as it is at that moment.

`Term.evalWith` runs a term, by recursion on it, for a given way to carry out a call. `Term.eval`
supplies that way by recursion on the calls that may still be nested, so running a term always ends.
-/

namespace ChainCalc

/-- The state while a term is run. -/
structure Machine where
  vars : Variables
  functions : Functions
  /-- The number of calls in progress. -/
  depth : Nat
  /-- The events so far, latest first. -/
  trace : List Event

namespace Machine

def log (m : Machine) (e : Event) : Machine := { m with trace := e :: m.trace }

def assign (m : Machine) (name : String) (value : Float) : Machine :=
  { m.log (.assigned name value) with vars := m.vars.insert name value }

/-- The function takes a copy of the variables in scope. -/
def declare (m : Machine) (name : String) (params : List String) (body : Term) : Machine :=
  { m.log (.declared name params) with
    functions := m.functions.insert name ⟨params, body, m.vars⟩ }

/-- The start of a call, which sees only `scope`. -/
def enter (m : Machine) (name : String) (arguments : List Float) (scope : Variables) : Machine :=
  { m.log (.calling name arguments m.depth) with vars := scope, depth := m.depth + 1 }

/-- The end of a call, back to the variables of the caller. -/
def leave (m : Machine) (caller : Variables) : Machine :=
  { m with vars := caller, depth := m.depth - 1 }

end Machine

/-- A computation on a machine that may fail. -/
abbrev EvalM := ExceptT RuntimeError (StateM Machine)

/-- Runs the body of a call in its scope, and returns to the caller whether it fails or not. -/
def EvalM.inCall (name : String) (arguments : List Float) (scope : Variables) (body : EvalM Float) :
    EvalM Float :=
  ExceptT.mk do
    let caller ← get
    set (caller.enter name arguments scope)
    let result ← body.run
    modify (·.leave caller.vars)
    return result

/-- How to carry out a call: the name, the function, the arguments and the scope of the body. -/
abbrev CallRule := String → Closure → List Float → Variables → EvalM Float

namespace Term

/-- The value of a term that is run by `run`. It is not run if it cannot have one. -/
def demand (t : Term) (run : EvalM (Option Float)) : EvalM Float := do
  if t.hasValue then
    match ← run with
    | some x => return x
    | none => throw (.missingValue t.render)
  else throw (.missingValue t.render)

mutual

/-- Runs a term. Only a declaration gives no value. -/
def evalWith (rule : CallRule) : Term → EvalM (Option Float)
  | number text => do return some (← MonadExcept.ofExcept (Number.read text))
  | var name => do
    match (← get).vars[name]? with
    | some x => return some x
    | none => throw (.unknownVariable name)
  | assign name value => do
    let x ← value.demand (value.evalWith rule)
    modify (·.assign name x)
    return some x
  | declare name params body => do
    modify (·.declare name params body)
    return none
  | call name arguments => do
    match (← get).functions[name]? with
    | none => throw (.unknownFunction name)
    | some f =>
      let values ← valuesWith rule arguments
      match f.bind? values with
      | none => throw (.argumentCount name f.params.length values.length)
      | some scope => return some (← rule name f values scope)
  | chain [] operators => throw (.missingValue (chain [] operators).render)
  | chain (t :: ts) operators => do
    if wellFormedChain (t :: ts) operators then
      let x ← t.demand (t.evalWith rule)
      return some (← linksWith rule x ts operators)
    else throw (.missingValue (chain (t :: ts) operators).render)

/-- The values of the arguments of a call, from left to right. -/
def valuesWith (rule : CallRule) : List Term → EvalM (List Float)
  | [] => return []
  | t :: ts => do
    let x ← t.demand (t.evalWith rule)
    let xs ← valuesWith rule ts
    return x :: xs

/-- The value of a chain from the value `left` on: each operand is run and joined at once. -/
def linksWith (rule : CallRule) (left : Float) : List Term → List Operator → EvalM Float
  | t :: ts, op :: operators => do
    let right ← t.demand (t.evalWith rule)
    let x ← MonadExcept.ofExcept (op.compute left right)
    linksWith rule x ts operators
  | _, _ => return left

end

/-- Runs a term in which at most `budget` further calls may be nested; `limit` is for messages. -/
def eval (limit : Nat) : (budget : Nat) → Term → EvalM (Option Float)
  | 0, t => t.evalWith fun name _ _ _ => throw (.recursionLimit name limit)
  | budget + 1, t => t.evalWith fun name f arguments scope =>
    .inCall name arguments scope (f.body.demand (eval limit budget f.body))

end Term

/-- How deep calls may be nested unless something else is said. -/
def defaultLimit : Nat := 256

/-- Runs terms one after the other, with a limit on nested calls. -/
structure Evaluator where
  limit : Nat := defaultLimit
  /-- The number of calls in progress. -/
  depth : Nat := 0
deriving Repr, DecidableEq

/-- What running a term gives. -/
structure Evaluation where
  /-- The value, `none` for a declaration. -/
  outcome : Except RuntimeError (Option Float)
  environment : Environment
  evaluator : Evaluator
  events : List Event

def Evaluator.evaluate (e : Evaluator) (env : Environment) (t : Term) : Evaluation :=
  let (outcome, m) := (t.eval e.limit (e.limit - e.depth)).run.run
    ⟨env.vars, env.functions, e.depth, []⟩
  ⟨outcome, ⟨m.vars, m.functions⟩, { e with depth := m.depth }, m.trace.reverse⟩

end ChainCalc
