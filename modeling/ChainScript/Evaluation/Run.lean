import ChainScript.Environment

/-!
Runs: what evaluation can change, and how it can end. A run works on a world and gives a result
or is halted; the world is kept in both cases.
-/

namespace ChainScript

structure World where
  env : Environment
  counters : Nat → Nat := fun _ => 0
  deriving Inhabited

inductive Halt where
  | fault (fault : Fault)
  | panic (text : String)
  /-- Methods called each other back more often than the run was allowed to. -/
  | exhausted
  deriving DecidableEq

abbrev Run := EStateM Halt World

namespace Run

variable {α : Type}

def fault (fault : Fault) : Run α := throw (.fault fault)

def ofExcept : Except Fault α → Run α
  | .ok a => pure a
  | .error cause => fault cause

/-- A run whose faults are results. A panic still ends it. -/
def attempt (run : Run α) : Run (Except Fault α) := fun world =>
  match run world with
  | .ok a after => .ok (.ok a) after
  | .error (.fault cause) after => .ok (.error cause) after
  | .error halt after => .error halt after

def ask (f : Environment → α) : Run α := fun world => .ok (f world.env) world

/-- Changes the environment, or leaves it if the change is refused. -/
def change (f : Environment → Except Fault Environment) : Run (Except Fault Unit) := fun world =>
  match f world.env with
  | .ok env => .ok (.ok ()) { world with env := env }
  | .error cause => .ok (.error cause) world

def push : Run Unit := fun world => .ok () { world with env := world.env.push }

def pop : Run Unit := fun world =>
  match world.env.pop? with
  | some env => .ok () { world with env := env }
  | none => .error (.panic Environment.popMessage) world

/-- Runs in a frame of its own, which is popped however the run ends. -/
def inFrame (run : Run α) : Run α := fun world =>
  match run { world with env := world.env.push } with
  | .ok a after => (do pop; pure a : Run α) after
  | .error halt after => (do pop; throw halt : Run α) after

def tick (counter : Nat) : Run Nat := fun world =>
  let count := world.counters counter + 1
  .ok count { world with
    counters := fun other => if other = counter then count else world.counters other }

end Run

end ChainScript
