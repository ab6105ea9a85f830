import ChainScript.Evaluation.Run
import ChainScript.Options

/-!
Doing routines: the answers that a method gets when it asks the evaluator for something.
-/

namespace ChainScript

/-- How evaluation goes on outside of the expression at hand: once more for a method that calls
back, and one level deeper for the body of a deferred value. -/
structure Onward where
  again : Evaluator → Expr → Run Value
  deeper : Evaluator → Expr → Run Value

def runDeferred (onward : Onward) (evaluator : Evaluator) (deferred : Deferred) : Run Value :=
  if evaluator.maxDepth ≤ evaluator.depth then
    Run.fault (.complaint (.tooDeep evaluator.maxDepth))
  else onward.deeper (evaluator.inside deferred) deferred.body

/-- Does a routine for a call with these options. Faults are results here, so that the options
that were asked for are known in any case. -/
def perform (onward : Onward) (evaluator : Evaluator) :
    Routine → Options → Run (Except Fault Value × Options)
  | .finish result, options => pure (result, options)
  | .panic text, _ => throw (.panic text)
  | .option name next, options =>
      perform onward evaluator (next (options.get? name)) (options.ask name)
  | .optionCount next, options => perform onward evaluator (next options.size) options
  | .convert target value next, options => do
      let result ← Run.ask (·.expect target value)
      perform onward evaluator (next result) options
  | .variableValue name next, options => do
      let found ← Run.ask (·.value? name)
      perform onward evaluator (next found) options
  | .caller next, options => perform onward evaluator (next evaluator) options
  | .declare name value next, options => do
      let result ← Run.change (·.declare name value)
      perform onward evaluator (next result) options
  | .define name arity takesRest body next, options => do
      let result ← Run.change (·.define ⟨name, arity, takesRest, body⟩)
      perform onward evaluator (next result) options
  | .register converter next, options => do
      let _ ← Run.change fun env => .ok (env.register converter)
      perform onward evaluator next options
  | .push next, options => do
      Run.push
      perform onward evaluator next options
  | .pop next, options => do
      Run.pop
      perform onward evaluator next options
  | .inFrame inner next, options => do
      let done ← Run.inFrame (perform onward evaluator inner options)
      perform onward evaluator (next done.1) done.2
  | .evaluate chosen e next, options => do
      let result ← (onward.again chosen e).attempt
      perform onward evaluator (next result) options
  | .run bindings deferred next, options => do
      let runner := match bindings with
        | some bindings => evaluator.extend bindings
        | none => evaluator
      let result ← (runDeferred onward runner deferred).attempt
      perform onward evaluator (next result) options
  | .tick counter next, options => do
      let count ← Run.tick counter
      perform onward evaluator (next count) options

end ChainScript
