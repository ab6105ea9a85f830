import ChainScript.Proofs.Calls

/-!
Journals of runs. A journal follows an evaluation step by step, also inside of what a routine has
evaluated, and writes something down of what it comes to: of worlds, of calls and their answers, of
bodies of deferred values that begin and end.
-/

namespace ChainScript

structure Call where
  method : Method
  params : List Value
  rest : List Value
  options : Bindings

/-- What is written down: for a world behind a step, at the begin of a block or in front of a bare
word; for a call before its routine, and for its answer behind it; and at both ends of a body. -/
structure Journal (ι : Type) where
  reached : World → List ι := fun _ => []
  called : Call → World → List ι := fun _ _ => []
  answered : Method → Position → Except Fault Value → List ι := fun _ _ _ => []
  entered : Deferred → List ι := fun _ => []
  left : List ι := []

/-- What is written down outside of the expression at hand, as `Onward` evaluates it. -/
structure OnwardLog (ι : Type) where
  again : Evaluator → Expr → World → List ι
  deeper : Evaluator → Expr → World → List ι

namespace Journal

variable {ι α : Type} (journal : Journal ι)

/-- What is written down behind one step, however it ends, and for what follows. -/
def behind (run : Run α) (next : α → World → List ι) (world : World) : List ι :=
  journal.reached (worldAfter (run world)) ++ behindRun run next world

variable (onward : Onward) (inner : OnwardLog ι) (evaluator : Evaluator)

/-- A body that is refused does not begin, and one that gives up the whole run does not end. -/
def body (deferred : Deferred) (world : World) : List ι :=
  if evaluator.maxDepth ≤ evaluator.depth then []
  else
    journal.entered deferred ++
      (inner.deeper (evaluator.inside deferred) deferred.body world ++
        behindRun (onward.deeper (evaluator.inside deferred) deferred.body).attempt
          (fun _ _ => journal.left) world)

def perform : Routine → Options → World → List ι
  | .finish _, _ => fun _ => []
  | .panic _, _ => fun _ => []
  | .option name next, options => perform (next (options.get? name)) (options.ask name)
  | .optionCount next, options => perform (next options.size) options
  | .convert target value next, options =>
      journal.behind (Run.ask (·.expect target value)) fun result => perform (next result) options
  | .variableValue name next, options =>
      journal.behind (Run.ask (·.value? name)) fun found => perform (next found) options
  | .caller next, options => perform (next evaluator) options
  | .declare name value next, options =>
      journal.behind (Run.change (·.declare name value)) fun result =>
        perform (next result) options
  | .define name arity takesRest body next, options =>
      journal.behind (Run.change (·.define ⟨name, arity, takesRest, body⟩)) fun result =>
        perform (next result) options
  | .register converter next, options =>
      journal.behind (Run.change fun env => .ok (env.register converter)) fun _ =>
        perform next options
  | .push next, options => journal.behind Run.push fun _ => perform next options
  | .pop next, options => journal.behind Run.pop fun _ => perform next options
  | .inFrame framed next, options => fun world =>
      journal.reached { world with env := world.env.push } ++
        perform framed options { world with env := world.env.push } ++
        journal.behind (Run.inFrame (ChainScript.perform onward evaluator framed options))
          (fun done => perform (next done.1) done.2) world
  | .evaluate chosen e next, options => fun world =>
      inner.again chosen e world ++
        journal.behind (onward.again chosen e).attempt
          (fun result => perform (next result) options) world
  | .run bindings deferred next, options => fun world =>
      journal.body onward inner (evaluator.runner bindings) deferred world ++
        journal.behind (runDeferred onward (evaluator.runner bindings) deferred).attempt
          (fun result => perform (next result) options) world
  | .tick counter next, options =>
      journal.behind (Run.tick counter) fun count => perform (next count) options

/-- A call that finds too few arguments is none. -/
def invoke (method : Method) (place : Position) (walk : Walk) (world : World) : List ι :=
  if walk.values.length < method.arity then []
  else
    journal.called ⟨method, walk.params method, walk.rest method, walk.options⟩ world ++
      (journal.perform onward inner evaluator
          (method.body (walk.params method) (walk.rest method)) ⟨walk.options, []⟩ world ++
        behindRun (ChainScript.perform onward evaluator
            (method.body (walk.params method) (walk.rest method)) ⟨walk.options, []⟩)
          (fun done _ => journal.answered method place done.1) world)

def resolve (name : String) (place : Position) (walk : Walk) (world : World) : List ι :=
  journal.reached world ++
    match evaluator.called? world.env name with
    | some method => journal.invoke onward inner evaluator method place walk world
    | none => []

mutual

def term : Expr → World → List ι
  | .identifier name place => journal.resolve onward inner evaluator name place (.start place)
  | .chain terms => walk (.start ((Expr.firstPosition? terms).getD default)) terms
  | .block body => term body
  | .text _ | .number _ | .option _ _ | .deferred _ | .stub _ => fun _ => []
termination_by structural e => e

/-- What is written down while a chain is walked through, from its last term on. -/
def walk (behind : Walk) : List Expr → World → List ι
  | [] => fun _ => []
  | head :: rest => fun world =>
      walk behind rest world ++
        behindRun (walkTerms onward evaluator behind rest) (fun walk =>
          match head with
          | .identifier name place => journal.resolve onward inner evaluator name place walk
          | _ => term head) world
termination_by structural terms => terms

end

def within (again : Evaluator → Expr → Run Value) (inner : Evaluator → Expr → World → List ι) :
    Nat → Evaluator → Expr → World → List ι
  | 0 => journal.term ⟨again, fun _ _ => throw .exhausted⟩ ⟨inner, fun _ _ _ => []⟩
  | levels + 1 =>
      journal.term ⟨again, evaluateWithin again levels⟩ ⟨inner, within again inner levels⟩

def upTo : Nat → Evaluator → Expr → World → List ι
  | 0 => fun _ _ _ => []
  | callbacks + 1 => fun evaluator e =>
      journal.within (evaluateUpTo callbacks) (upTo callbacks)
        (evaluator.maxDepth - evaluator.depth) evaluator e

/-- All that is written down while an expression is evaluated, also in bodies of deferred values. -/
def evaluate (evaluator : Evaluator) (e : Expr) (world : World) : List ι :=
  journal.upTo callbackLimit evaluator e world

end Journal

/-! Calls, and events. -/

def Journal.blank : Journal Empty where

def OnwardLog.blank : OnwardLog Empty := ⟨fun _ _ _ => [], fun _ _ _ => []⟩

def Journal.calls : Journal Call where
  called call _ := [call]

/-- All that is called while an expression is evaluated, also in the bodies of deferred values. -/
def Evaluator.calls (evaluator : Evaluator) (e : Expr) (world : World) : List Call :=
  Journal.calls.evaluate evaluator e world

inductive Event where
  | called (call : Call)
  /-- A method that was called at a place is done with its routine. -/
  | answered (method : Method) (place : Position) (result : Except Fault Value)
  | entered (deferred : Deferred)
  /-- The body that began last, of those that have not ended yet, ends. -/
  | left

namespace Event

def call? : Event → Option Call
  | .called call => some call
  | _ => none

/-- How many bodies more are active behind an event than in front of it. -/
def bodies : Event → Int
  | .entered _ => 1
  | .left => -1
  | .called _ | .answered _ _ _ => 0

end Event

def activeBodies : List Event → Int
  | [] => 0
  | event :: events => event.bodies + activeBodies events

def Journal.events : Journal Event where
  called call _ := [.called call]
  answered method place result := [.answered method place result]
  entered deferred := [.entered deferred]
  left := [.left]

@[simp]
theorem Journal.events_reached (world : World) : Journal.events.reached world = [] :=
  rfl

@[simp]
theorem Journal.events_behind {α : Type} (run : Run α) (next : α → World → List Event)
    (world : World) : Journal.events.behind run next world = behindRun run next world :=
  rfl

/-- All that happens while an expression is evaluated, also in the bodies of deferred values. -/
def Evaluator.events (evaluator : Evaluator) (e : Expr) (world : World) : List Event :=
  Journal.events.evaluate evaluator e world

end ChainScript
