import ChainScript.Routine

/-!
Methods that declare variables, that choose what to evaluate, and that decide. The second operand of
`and` and `or` can be deferred, and then it is evaluated only if it decides the result.
-/

namespace ChainScript.Prelude

open Routine

def setBody : List Value → List Value → Routine
  | [target, value], _ =>
      expect .name target fun name =>
        .declare name.text value (andThen fun _ => answer .empty)
  | params, _ => wrongCount 2 params

/-- Evaluates one of two branches; a branch left out gives the empty value. -/
def ifBody : List Value → List Value → Routine
  | [condition, yes, no], _ =>
      expect .bool condition fun holds =>
        let chosen := if holds then yes else no
        if chosen.isPlaceholder then answer .empty else force chosen answer
  | params, _ => wrongCount 3 params

def runBody : List Value → List Value → Routine
  | [value], _ => force value answer
  | params, _ => wrongCount 1 params

def bindingMethods : List Method :=
  [⟨"set", 2, false, setBody⟩, ⟨"if", 3, false, ifBody⟩, ⟨"run", 1, false, runBody⟩]

def notBody : List Value → List Value → Routine
  | [value], _ => expect .bool value fun holds => answer (.bool (!holds))
  | params, _ => wrongCount 1 params

def forceBool (value : Value) : Routine :=
  force value fun forced => expect .bool forced fun holds => answer (.bool holds)

def andBody : List Value → List Value → Routine
  | [left, right], _ =>
      expect .bool left fun holds => if holds then forceBool right else answer (.bool false)
  | params, _ => wrongCount 2 params

def orBody : List Value → List Value → Routine
  | [left, right], _ =>
      expect .bool left fun holds => if holds then answer (.bool true) else forceBool right
  | params, _ => wrongCount 2 params

def logicMethods : List Method :=
  [⟨"not", 1, false, notBody⟩, ⟨"and", 2, false, andBody⟩, ⟨"or", 2, false, orBody⟩]

end ChainScript.Prelude
