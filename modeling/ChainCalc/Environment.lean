import ChainCalc.Term.Basic
import Std.Data.ExtTreeMap

/-!
# Environments

Variables and functions, each under its name and in the order of names. A function keeps a copy of
the variables as they were when it was declared; a call sees these and its parameters, and nothing
of its caller.
-/

namespace ChainCalc

abbrev Variables := Std.ExtTreeMap String Float

/-- A declared function. -/
structure Closure where
  params : List String
  body : Term
  /-- The variables at the time of the declaration. -/
  captured : Variables

/-- The variables that the body sees in a call: each parameter in turn hides what had its name
before. Arguments in excess are ignored; `none` if there are too few. -/
def Closure.bind? (f : Closure) (arguments : List Float) : Option Variables :=
  if arguments.length < f.params.length then none
  else some ((f.params.zip arguments).foldl (fun scope (name, x) => scope.insert name x) f.captured)

abbrev Functions := Std.ExtTreeMap String Closure

structure Environment where
  vars : Variables := ∅
  functions : Functions := ∅

namespace Environment

def setVariable (env : Environment) (name : String) (value : Float) : Environment :=
  { env with vars := env.vars.insert name value }

def setFunction (env : Environment) (name : String) (f : Closure) : Environment :=
  { env with functions := env.functions.insert name f }

end Environment

end ChainCalc
