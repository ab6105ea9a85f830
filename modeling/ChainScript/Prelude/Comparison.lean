import ChainScript.Expr.Equality
import ChainScript.Prelude.Arithmetic

/-!
Order and equality. Texts are in the order of their characters, and numbers in the order of
their values. Only numbers and texts have an order, but all values can be equal.
-/

namespace ChainScript.Prelude

open Routine

inductive Comparison where
  | lt
  | le
  | gt
  | ge
  deriving DecidableEq

namespace Comparison

def symbol : Comparison → String
  | .lt => "<"
  | .le => "<="
  | .gt => ">"
  | .ge => ">="

def holds : Comparison → Ordering → Bool
  | .lt, order => order.isLT
  | .le, order => order.isLE
  | .gt, order => order.isGT
  | .ge, order => order.isGE

end Comparison

def floatOrder (x y : Float) : Option Ordering :=
  if x < y then some .lt
  else if x == y then some .eq
  else if y < x then some .gt
  else none

/-- Finds the order of two values; numbers of different kinds are compared as doubles. -/
def order (left right : Value) (next : Option Ordering → Routine) : Routine :=
  match left, right with
  | .text s, .text t => next (some (compare s t))
  | .int a, .int b => next (some (compare a.toInt b.toInt))
  | left, right =>
      operand left fun left => operand right fun right =>
        next (floatOrder left.toFloat right.toFloat)

def comparisonBody (comparison : Comparison) : List Value → List Value → Routine
  | [left, right], _ =>
      order left right fun
        | some order => answer (.bool (comparison.holds order))
        | none => complain (.incomparable left.shown right.shown)
  | params, _ => wrongCount 2 params

/-- Numbers are equal by value; all else is equal if it is the same. -/
def equal : Value → Value → Bool
  | .int n, .float x => Numeral.ofInteger n == x
  | .float x, .int n => x == Numeral.ofInteger n
  | left, right => left.same right

def equalBody : List Value → List Value → Routine
  | [left, right], _ => answer (.bool (equal left right))
  | params, _ => wrongCount 2 params

def unequalBody : List Value → List Value → Routine
  | [left, right], _ => answer (.bool (!equal left right))
  | params, _ => wrongCount 2 params

def comparisonMethods : List Method :=
  ([.lt, .le, .gt, .ge].map fun comparison : Comparison =>
      (⟨comparison.symbol, 2, false, comparisonBody comparison⟩ : Method)) ++
    [⟨"==", 2, false, equalBody⟩, ⟨"!=", 2, false, unequalBody⟩]

end ChainScript.Prelude
