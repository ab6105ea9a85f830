import ChainScript.Number
import ChainScript.Position

/-!
Expressions and values. The two types need each other: a deferred value holds an expression, and
a host can put a finished value into an expression.
-/

namespace ChainScript

inductive GameObject where
  | card (name : String) (cost : Int64)
  | pile (size : Int64)
  deriving DecidableEq

def GameObject.typeName : GameObject → String
  | .card _ _ => "game::Card"
  | .pile _ => "game::Pile"

/-- One object of the host. Two objects may be alike; the identity tells them apart. -/
structure HostObject where
  identity : Nat
  object : GameObject
  deriving DecidableEq

mutual

inductive Expr where
  | text (s : String)
  | number (n : Number)
  | identifier (name : String) (place : Position)
  /-- Names the value on its right for the next method on its left. -/
  | option (name : String) (place : Position)
  | deferred (body : Expr)
  /-- Terms that are resolved from right to left. -/
  | chain (terms : List Expr)
  | block (body : Expr)
  /-- A value put here by the host. -/
  | stub (value : Value)

inductive Value where
  | empty
  /-- An argument that was left out on purpose. -/
  | placeholder
  | bool (b : Bool)
  | int (n : Int64)
  | float (x : Float)
  | text (s : String)
  | list (items : List Value)
  | deferred (body : Expr) (captured : List (String × Value))
  | host (object : HostObject)

end

instance : Inhabited Expr := ⟨.chain []⟩
instance : Inhabited Value := ⟨.empty⟩

/-- Names with their values. Where a name stands twice the first entry counts. -/
abbrev Bindings := List (String × Value)

structure Deferred where
  body : Expr
  captured : Bindings
  deriving Inhabited

namespace Expr

mutual

def position? : Expr → Option Position
  | .identifier _ place => some place
  | .option _ place => some place
  | .deferred body => body.position?
  | .chain terms => firstPosition? terms
  | .block body => body.position?
  | .text _ | .number _ | .stub _ => none
termination_by structural e => e

def firstPosition? : List Expr → Option Position
  | [] => none
  | term :: rest =>
      match term.position? with
      | some place => some place
      | none => firstPosition? rest
termination_by structural terms => terms

end

def name? : Expr → Option String
  | .identifier name _ => some name
  | _ => none

/-- A call of a method with values that are known already. -/
def call (name : String) (args : List Value) : Expr :=
  .chain (.identifier name default :: args.map .stub)

end Expr

namespace Value

def typeName : Value → String
  | .empty => "empty"
  | .placeholder => "placeholder"
  | .bool _ => "bool"
  | .int _ => "int"
  | .float _ => "float"
  | .text _ => "text"
  | .list _ => "list"
  | .deferred _ _ => "deferred"
  | .host object => object.object.typeName

def isEmpty : Value → Bool
  | .empty => true
  | _ => false

def isPlaceholder : Value → Bool
  | .placeholder => true
  | _ => false

end Value

end ChainScript
