import ChainScript.Environment
import ChainScript.Prelude.Control
import ChainScript.Prelude.Lists
import ChainScript.Prelude.Comparison

/-!
The prelude: the variables, converters and methods that every script can count on.
-/

namespace ChainScript

inductive Declaration where
  | variable (name : String) (value : Value)
  | method (method : Method)
  | converter (converter : Converter)

def Declaration.declareIn (env : Environment) : Declaration → Except Fault Environment
  | .variable name value => env.declare name value
  | .method added => env.define added
  | .converter added => .ok (env.register added)

/-- Declares one thing after the other up to the first that is refused. What was declared
before it stays. -/
def declareAll (env : Environment) : List Declaration → Option Fault × Environment
  | [] => (none, env)
  | declaration :: rest =>
      match declaration.declareIn env with
      | .ok next => declareAll next rest
      | .error fault => (some fault, env)

namespace Prelude

def intToFloat : Converter where
  target := .float
  apply
    | .int n => some (Numeral.ofInteger n)
    | _ => none

def textToName : Converter where
  target := .name
  apply
    | .text s => some ⟨s⟩
    | _ => none

def constants : Bindings :=
  [("true", .bool true), ("false", .bool false), ("_", .placeholder)]

def converters : List Converter := [intToFloat, textToName]

def methods : List Method :=
  bindingMethods ++ listMethods ++ logicMethods ++ arithmeticMethods ++ comparisonMethods

def declarations : List Declaration :=
  (constants.map fun binding => .variable binding.1 binding.2) ++
    converters.map .converter ++ methods.map .method

def install (env : Environment) : Option Fault × Environment :=
  declareAll env declarations

def environment : Environment := (install {}).2

theorem frames_environment : environment.frames = [environment.top] := rfl

theorem bindings_environment : environment.top.bindings =
    [("_", .placeholder), ("false", .bool false), ("true", .bool true)] := rfl

end Prelude

end ChainScript
