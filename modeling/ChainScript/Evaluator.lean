import ChainScript.Expr

/-!
Evaluators: which transients are visible, and how deep deferred values are nested. The depth is the
number of deferred values that are being evaluated.
-/

namespace ChainScript

structure Evaluator where
  scope : Bindings := []
  extended : Bool := false
  depth : Nat := 0
  maxDepth : Nat := 256
  deriving Inhabited

namespace Evaluator

def transient? (evaluator : Evaluator) (name : String) : Option Value :=
  evaluator.scope.lookup name

/-- Sees these transients and no others, and hands them on. Of two bindings of one name the
later counts. -/
def extend (evaluator : Evaluator) (bindings : Bindings) : Evaluator :=
  { evaluator with scope := bindings.reverse, extended := true }

/-- The evaluator for the body of a deferred value: what was handed on, over the transients that
the value has captured. The transients of the place that asks are not seen. -/
def inside (evaluator : Evaluator) (deferred : Deferred) : Evaluator :=
  { evaluator with
    scope := (if evaluator.extended then evaluator.scope else []) ++ deferred.captured
    extended := false
    depth := evaluator.depth + 1 }

end Evaluator

end ChainScript
