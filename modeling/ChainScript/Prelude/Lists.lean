import ChainScript.Routine
import ChainScript.Expr.Printer

/-!
Methods on lists. Where a list is asked for, a single value stands for the list of itself.
-/

namespace ChainScript.Prelude

open Routine

def itemName : String := "$it"

def listBody : List Value → List Value → Routine :=
  fun _ rest => answer (.list rest)

def countBody : List Value → List Value → Routine
  | [items], _ =>
      expect (.list .value) items fun items => answer (.int (.ofNat items.length))
  | params, _ => wrongCount 1 params

def runOn (item : Value) (body : Deferred) (next : Value → Routine) : Routine :=
  .run (some [(itemName, item)]) body (andThen next)

/-- Keeps the items for which the predicate holds. `kept` are those so far, last one first. -/
def filterItems (predicate : Deferred) : List Value → List Value → Routine
  | [], kept => answer (.list kept.reverse)
  | item :: rest, kept =>
      runOn item predicate fun verdict =>
        expect .bool verdict fun holds =>
          filterItems predicate rest (if holds then item :: kept else kept)

def filterBody : List Value → List Value → Routine
  | [items, predicate], _ =>
      expect (.list .value) items fun items =>
        expect .deferred predicate fun predicate => filterItems predicate items []
  | params, _ => wrongCount 2 params

/-- Evaluates the body for each item. `made` are the results so far, last one first. -/
def mapItems (body : Deferred) : List Value → List Value → Routine
  | [], made => answer (.list made.reverse)
  | item :: rest, made => runOn item body fun result => mapItems body rest (result :: made)

def mapBody : List Value → List Value → Routine
  | [items, body], _ =>
      expect (.list .value) items fun items =>
        expect .deferred body fun body => mapItems body items []
  | params, _ => wrongCount 2 params

/-- The values that an argument contributes: a list gives its items, but not theirs. -/
def parts : Value → List Value
  | .list items => items
  | single => [single]

def joined (separator : String) (args : List Value) : String :=
  separated separator ((args.flatMap parts).map Value.shown)

def joinBody : List Value → List Value → Routine :=
  fun _ args =>
    .option "sep" fun
      | some separator =>
          expect .text separator fun separator => answer (.text (joined separator args))
      | none => answer (.text (joined "" args))

def listMethods : List Method :=
  [⟨"list", 0, true, listBody⟩, ⟨"count", 1, false, countBody⟩,
    ⟨"filter", 2, false, filterBody⟩, ⟨"map", 2, false, mapBody⟩, ⟨"join", 0, true, joinBody⟩]

end ChainScript.Prelude
