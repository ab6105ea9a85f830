import ChainScript.Expr

/-!
Taking a value as something of a given type. A value that has the type already is taken as it
is; converters, which a host registers for a target, can take further values.
-/

namespace ChainScript

/-- The types that a method can ask for. The list is closed: it has the conversions that are built
in, lists of everything that it has, and of the shared objects of a host only the cards. A type that
a host makes convertible by itself, and shared objects of another type, are targets that no
statement here is about. -/
inductive Target where
  | value
  | bool
  | int
  | float
  | text
  | deferred
  | host
  | name
  | card
  | list (item : Target)
  deriving DecidableEq

def Target.typeName : Target → String
  | .value => "cardexpr::value::Value"
  | .bool => "bool"
  | .int => "i64"
  | .float => "f64"
  | .text => "alloc::string::String"
  | .deferred => "cardexpr::value::Deferred"
  | .host => "cardexpr::value::HostValue"
  | .name => "cardexpr::converter::Name"
  | .card => "alloc::rc::Rc<game::Card>"
  | .list item => "alloc::vec::Vec<" ++ item.typeName ++ ">"

/-- The name that a method such as `set` declares. -/
structure Name where
  text : String
  deriving DecidableEq

structure Card where
  name : String
  cost : Int64
  deriving DecidableEq

@[reducible] def Target.denote : Target → Type
  | .value => Value
  | .bool => Bool
  | .int => Int64
  | .float => Float
  | .text => String
  | .deferred => Deferred
  | .host => HostObject
  | .name => Name
  | .card => Card
  | .list item => List item.denote

variable {α β : Type}

def allSome (f : α → Option β) : List α → Option (List β)
  | [] => some []
  | a :: rest =>
      match f a with
      | none => none
      | some b => (allSome f rest).map (b :: ·)

namespace Value

def bool? : Value → Option Bool
  | .bool b => some b
  | _ => none

def int? : Value → Option Int64
  | .int n => some n
  | _ => none

def float? : Value → Option Float
  | .float x => some x
  | _ => none

def text? : Value → Option String
  | .text s => some s
  | _ => none

def deferred? : Value → Option Deferred
  | .deferred body captured => some ⟨body, captured⟩
  | _ => none

def host? : Value → Option HostObject
  | .host object => some object
  | _ => none

/-- A quoted bare word is a name. -/
def name? : Value → Option Name
  | .deferred body _ => body.name?.map Name.mk
  | _ => none

def card? : Value → Option Card
  | .host ⟨_, .card name cost⟩ => some ⟨name, cost⟩
  | _ => none

def items? : Value → Option (List Value)
  | .list items => some items
  | _ => none

end Value

/-- Takes a value that has the type already; a list has it if all items have theirs. -/
def Target.check : (target : Target) → Value → Option target.denote
  | .value, v => some v
  | .bool, v => v.bool?
  | .int, v => v.int?
  | .float, v => v.float?
  | .text, v => v.text?
  | .deferred, v => v.deferred?
  | .host, v => v.host?
  | .name, v => v.name?
  | .card, v => v.card?
  | .list item, v => v.items?.bind (allSome item.check)

/-- A way to take values for one target. It may decline any value. -/
structure Converter where
  target : Target
  apply : Value → Option target.denote

def Converter.convert? (converter : Converter) (target : Target) (value : Value) :
    Option target.denote :=
  if same : converter.target = target then same ▸ converter.apply value else none

def firstConversion (target : Target) (value : Value) :
    List Converter → Option target.denote
  | [] => none
  | converter :: rest =>
      match converter.convert? target value with
      | some result => some result
      | none => firstConversion target value rest

end ChainScript
