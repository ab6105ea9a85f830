import ChainScript.Routine
import ChainScript.Expr.Parser

/-!
Methods of the kind that a host adds: they show their arguments, fail, count, open frames, and
call the evaluator back.
-/

namespace ChainScript.Host

open Routine

def plain (name : String) (arity : Nat) : Method where
  name := name
  arity := arity
  body params rest := answer (.list [.list params, .list rest])

def constant (name : String) (value : Value) : Method where
  name := name
  arity := 0
  body _ _ := answer value

/-- Asks for the values of some options, where the empty value stands for an absent one. -/
def askValues (found : List Value) (next : List Value → Routine) : List String → Routine
  | [] => next found.reverse
  | name :: rest =>
      .option name fun value => askValues (value.getD .empty :: found) next rest

def askPresence (found : List Value) (next : List Value → Routine) : List String → Routine
  | [] => next found.reverse
  | name :: rest =>
      .option name fun value => askPresence (.bool value.isSome :: found) next rest

/-- Gives back its arguments and what it finds out about its options. -/
def inspect (name : String) (arity : Nat) (takesRest : Bool) (values present : List String) :
    Method where
  name := name
  arity := arity
  takesRest := takesRest
  body params rest :=
    .optionCount fun count =>
      let arguments := [.list params, .list rest, .int (.ofNat count), .bool (count == 0)]
      askValues [] (fun values =>
        askPresence [] (fun present => answer (.list (arguments ++ values ++ present))) present)
        values

/-- Evaluates its last argument with the others as transients. -/
def withBindings (name : String) (names : List String) : Method where
  name := name
  arity := names.length + 1
  body params _ :=
    match params.drop names.length with
    | [last] =>
        expect .deferred last fun deferred =>
          .run (some (names.zip params)) deferred (andThen answer)
    | _ => wrongCount (names.length + 1) params

def failing (name : String) (arity : Nat) (text : String) : Method where
  name := name
  arity := arity
  body _ _ := complain (.raised text)

def canceling (name : String) (arity : Nat) : Method where
  name := name
  arity := arity
  body _ _ := fail .canceled

def panicking (name : String) (arity : Nat) (text : String) : Method where
  name := name
  arity := arity
  body _ _ := .panic text

def counting (name : String) (arity counter : Nat) : Method where
  name := name
  arity := arity
  body _ _ := .tick counter fun count => answer (.int (.ofNat count))

/-- Declares a variable in a new frame and evaluates its second argument there. -/
def inFrame (name variableName : String) : Method where
  name := name
  arity := 2
  body
    | [value, inner], _ =>
        .inFrame (.declare variableName value (andThen fun _ => force inner answer))
          (andThen answer)
    | params, _ => wrongCount 2 params

def calling (name method : String) : Method where
  name := name
  arity := 0
  takesRest := true
  body _ rest :=
    .caller fun evaluator => .evaluate evaluator (.call method rest) (andThen answer)

def evaluating (name source : String) : Method where
  name := name
  arity := 0
  body _ _ :=
    match parse source with
    | .ok e => .caller fun evaluator => .evaluate evaluator e (andThen answer)
    | .error fault => fail fault

def peeking (name transient : String) : Method where
  name := name
  arity := 0
  body _ _ :=
    .caller fun evaluator => answer ((evaluator.transient? transient).getD .empty)

def cost (name : String) : Method where
  name := name
  arity := 1
  body
    | [value], _ => expect .card value fun card => answer (.int card.cost)
    | params, _ => wrongCount 1 params

end ChainScript.Host
