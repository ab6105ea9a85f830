import ChainScript.Routine
import ChainScript.Expr.Printer

/-!
Arithmetic. Two integers give an integer, or a complaint where the exact result does not fit;
as soon as one operand is a double, both are.
-/

namespace ChainScript.Prelude

open Routine

inductive Operation where
  | add
  | sub
  | mul
  | div
  | rem
  deriving DecidableEq

namespace Operation

def symbol : Operation → String
  | .add => "+"
  | .sub => "-"
  | .mul => "*"
  | .div => "/"
  | .rem => "%"

def divides : Operation → Bool
  | .div | .rem => true
  | _ => false

/-- The result over all integers. A quotient is cut toward zero, and a remainder has the sign of
the dividend. -/
def exact : Operation → Int → Int → Int
  | .add, a, b => a + b
  | .sub, a, b => a - b
  | .mul, a, b => a * b
  | .div, a, b => a.tdiv b
  | .rem, a, b => a.tmod b

/-- The number that has to fit for there to be a result. A remainder needs its quotient. -/
def bound : Operation → Int → Int → Int
  | .rem, a, b => a.tdiv b
  | operation, a, b => operation.exact a b

def onFloats : Operation → Float → Float → Float
  | .add, x, y => x + y
  | .sub, x, y => x - y
  | .mul, x, y => x * y
  | .div, x, y => x / y
  | .rem, x, y => Numeral.remainder x y

end Operation

inductive Operand where
  | int (n : Int64)
  | float (x : Float)
  deriving DecidableEq

def Operand.toFloat : Operand → Float
  | .int n => Numeral.ofInteger n
  | .float x => x

/-- Takes a value as an operand; what is no integer is taken as a double. -/
def operand (value : Value) (next : Operand → Routine) : Routine :=
  match value with
  | .int n => next (.int n)
  | value => expect .float value fun x => next (.float x)

def compute (operation : Operation) : Operand → Operand → Except Complaint Value
  | .int a, .int b =>
      if operation.divides && b == 0 then .error .divisionByZero
      else if Number.fits (operation.bound a.toInt b.toInt) then
        .ok (.int (.ofInt (operation.exact a.toInt b.toInt)))
      else .error (.overflow operation.symbol a b)
  | left, right =>
      let x := left.toFloat
      let y := right.toFloat
      if operation.divides && y == 0.0 then .error .divisionByZero
      else .ok (.float (operation.onFloats x y))

def isText : Value → Bool
  | .text _ => true
  | _ => false

/-- Adding to a text puts the shown operands side by side. -/
def arithmeticBody (operation : Operation) : List Value → List Value → Routine
  | [left, right], _ =>
      if operation = .add && (isText left || isText right) then
        answer (.text (left.shown ++ right.shown))
      else
        operand left fun left => operand right fun right =>
          match compute operation left right with
          | .ok value => answer value
          | .error cause => complain cause
  | params, _ => wrongCount 2 params

def arithmeticMethods : List Method :=
  [.add, .sub, .mul, .div, .rem].map fun operation : Operation =>
    ⟨operation.symbol, 2, false, arithmeticBody operation⟩

end ChainScript.Prelude
