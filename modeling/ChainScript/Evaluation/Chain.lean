import ChainScript.Evaluation.Perform
import ChainScript.Expr.Parser

/-!
Evaluating expressions. A chain is walked from right to left: a plain term adds its value to
those on its right, an option takes the nearest of them, and a method takes its arguments and the
options met so far and adds its result. In the end exactly one value has to be left. For the chain
`- 9 + 2 3` the values are, nearest first: 3, then 2 3, then 5, then 9 5, and at last 4.
-/

namespace ChainScript

structure Walk where
  /-- Values not yet taken, nearest first. -/
  values : List Value
  /-- Options that no method has received yet. -/
  options : Bindings
  /-- The place of the last option, at first that of the chain. -/
  optionPlace : Position

namespace Walk

def start (place : Position) : Walk := ⟨[], [], place⟩

def add (walk : Walk) (value : Value) : Walk :=
  { walk with values := value :: walk.values }

def takeOption (walk : Walk) (name : String) (place : Position) : Except Fault Walk :=
  match walk.values with
  | [] => .error (.missingOptionValue name place)
  | value :: rest =>
      match walk.options.lookup name with
      | some _ => .error (.duplicateOption name place)
      | none => .ok ⟨rest, (name, value) :: walk.options, place⟩

def result (walk : Walk) (place : Position) : Except Fault Value :=
  match walk.options, walk.values with
  | [], [value] => .ok value
  | [], values => .error (.unconsumed values.length place)
  | options, _ =>
      .error (.danglingOptions (sortedNames (options.map Prod.fst)) walk.optionPlace)

end Walk

/-- Calls a method with the nearest values. What it does not ask for of its options is an
error, but only once it has succeeded. -/
def invoke (onward : Onward) (evaluator : Evaluator) (method : Method) (place : Position)
    (walk : Walk) : Run Walk :=
  if walk.values.length < method.arity then
    Run.fault (.arity method.name method.arity walk.values.length place)
  else do
    let params := walk.values.take method.arity
    let others := walk.values.drop method.arity
    let rest := if method.takesRest then others else []
    let left := if method.takesRest then [] else others
    let done ← perform onward evaluator (method.body params rest) ⟨walk.options, []⟩
    match done.1 with
    | .error fault => Run.fault (fault.atCall method.name place)
    | .ok value =>
        match done.2.unused with
        | [] => pure ⟨value :: left, [], walk.optionPlace⟩
        | names => Run.fault (.unusedOptions method.name names place)

/-- A bare word is a transient, else a variable, else a method, which is called. -/
def resolve (onward : Onward) (evaluator : Evaluator) (name : String) (place : Position)
    (walk : Walk) : Run Walk :=
  match evaluator.transient? name with
  | some value => pure (walk.add value)
  | none => do
      match ← Run.ask (·.value? name) with
      | some value => pure (walk.add value)
      | none =>
          match ← Run.ask (·.method? name) with
          | some method => invoke onward evaluator method place walk
          | none => Run.fault (.unresolved name place)

mutual

def evaluateTerm (onward : Onward) (evaluator : Evaluator) : Expr → Run Value
  | .text s => pure (.text s)
  | .number (.int n) => pure (.int n)
  | .number (.decimal x) => pure (.float x)
  | .identifier name place => do
      let walk ← resolve onward evaluator name place (.start place)
      Run.ofExcept (walk.result place)
  | .option name place => do
      let walk ← Run.ofExcept ((Walk.start place).takeOption name place)
      Run.ofExcept (walk.result place)
  | .deferred body => pure (.deferred body evaluator.scope)
  | .chain terms => do
      let place := (Expr.firstPosition? terms).getD default
      let walk ← walkTerms onward evaluator (.start place) terms
      Run.ofExcept (walk.result place)
  | .block body => evaluateTerm onward evaluator body
  | .stub value => pure value
termination_by structural e => e

def walkTerms (onward : Onward) (evaluator : Evaluator) (behind : Walk) : List Expr → Run Walk
  | [] => pure behind
  | term :: rest => do
      let walk ← walkTerms onward evaluator behind rest
      match term with
      | .identifier name place => resolve onward evaluator name place walk
      | .option name place => Run.ofExcept (walk.takeOption name place)
      | _ => do
          let value ← evaluateTerm onward evaluator term
          pure (walk.add value)
termination_by structural terms => terms

end

/-- Evaluation where deferred values may nest this many levels further. -/
def evaluateWithin (again : Evaluator → Expr → Run Value) : Nat → Evaluator → Expr → Run Value
  | 0 => evaluateTerm ⟨again, fun _ _ => throw .exhausted⟩
  | levels + 1 => evaluateTerm ⟨again, evaluateWithin again levels⟩

/-- Evaluation in which methods may call back to this nesting. Scripts over methods that do not
call back never run into that bound. -/
def evaluateUpTo : Nat → Evaluator → Expr → Run Value
  | 0 => fun _ _ => throw .exhausted
  | callbacks + 1 => fun evaluator e =>
      evaluateWithin (evaluateUpTo callbacks) (evaluator.maxDepth - evaluator.depth) evaluator e

def callbackLimit : Nat := 100000

namespace Evaluator

def evaluate (evaluator : Evaluator) (e : Expr) : Run Value :=
  evaluateUpTo callbackLimit evaluator e

def evaluateSource (evaluator : Evaluator) (source : String) : Run Value :=
  match parse source with
  | .ok e => evaluator.evaluate e
  | .error fault => Run.fault fault

/-- Calls a method with values, by the same rules as a script does. -/
def call (evaluator : Evaluator) (name : String) (args : List Value) : Run Value :=
  evaluator.evaluate (.call name args)

def evaluateDeferred (evaluator : Evaluator) (deferred : Deferred) : Run Value :=
  runDeferred ⟨evaluate, evaluate⟩ evaluator deferred

def force (evaluator : Evaluator) : Value → Run Value
  | .deferred body captured => evaluator.evaluateDeferred ⟨body, captured⟩
  | value => pure value

end Evaluator

end ChainScript
