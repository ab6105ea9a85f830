import ChainScript.Conversion
import ChainScript.Evaluator
import ChainScript.Fault

/-!
What a method does when it is called, as a tree. A routine is finished, or it asks for one thing
and goes on with the answer. Routines say nothing about how the answers come about, so that the
environment can hold methods without knowing how scripts are evaluated.

A method of a host gets its options and the environment to change as it likes. It can overwrite the
one or the other as a whole, read which options are still unused, and look a method up and invoke it
with no expression to evaluate. A routine has no such step: what is said of every method is said of
those that deal with their options and the environment by the steps below.
-/

namespace ChainScript

inductive Routine where
  | finish (result : Except Fault Value)
  | panic (text : String)
  | option (name : String) (next : Option Value → Routine)
  | optionCount (next : Nat → Routine)
  | convert (target : Target) (value : Value) (next : Except Fault target.denote → Routine)
  | variableValue (name : String) (next : Option Value → Routine)
  | caller (next : Evaluator → Routine)
  | declare (name : String) (value : Value) (next : Except Fault Unit → Routine)
  | define (name : String) (arity : Nat) (takesRest : Bool)
      (body : List Value → List Value → Routine) (next : Except Fault Unit → Routine)
  | register (converter : Converter) (next : Routine)
  | push (next : Routine)
  | pop (next : Routine)
  /-- Does the inner routine in a frame of its own, which is gone afterwards. -/
  | inFrame (inner : Routine) (next : Except Fault Value → Routine)
  | evaluate (evaluator : Evaluator) (e : Expr) (next : Except Fault Value → Routine)
  /-- Evaluates a deferred value as the caller would, or as the caller extended by bindings. -/
  | run (bindings : Option Bindings) (deferred : Deferred)
      (next : Except Fault Value → Routine)
  | tick (counter : Nat) (next : Nat → Routine)

/-- A method takes its arity of values, all further values if it takes the rest, and does what
its body makes of the two. -/
structure Method where
  name : String
  arity : Nat
  takesRest : Bool := false
  body : List Value → List Value → Routine

namespace Routine

def answer (value : Value) : Routine := .finish (.ok value)

def fail (fault : Fault) : Routine := .finish (.error fault)

def complain (cause : Complaint) : Routine := fail (.complaint cause)

def andThen {α : Type} (next : α → Routine) : Except Fault α → Routine
  | .ok a => next a
  | .error fault => fail fault

def expect (target : Target) (value : Value) (next : target.denote → Routine) : Routine :=
  .convert target value (andThen next)

def force (value : Value) (next : Value → Routine) : Routine :=
  match value with
  | .deferred body captured => .run none ⟨body, captured⟩ (andThen next)
  | value => next value

/-- The caller counts arguments, so a method never sees another number of them. -/
def wrongCount (expected : Nat) (params : List Value) : Routine :=
  complain (.argumentCount expected params.length)

end Routine

end ChainScript
