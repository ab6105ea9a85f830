import ChainScript.Routine

/-!
The environment: a stack of frames, each with its own methods, variables and converters. There
is always a ground frame. Declarations go into the top frame, where each name can be declared
once; a lookup takes the innermost frame that knows the name. Converters are asked from the
innermost frame outwards too, and within a frame in the order in which they were registered.
-/

namespace ChainScript

structure Frame where
  methods : List Method := []
  bindings : Bindings := []
  converters : List Converter := []
  deriving Inhabited

structure Environment where
  top : Frame := {}
  /-- The frames below the top, innermost first. -/
  below : List Frame := []
  deriving Inhabited

namespace Frame

def method? (frame : Frame) (name : String) : Option Method :=
  frame.methods.find? fun method => method.name == name

def value? (frame : Frame) (name : String) : Option Value :=
  frame.bindings.lookup name

end Frame

namespace Environment

def frames (env : Environment) : List Frame := env.top :: env.below

def depth (env : Environment) : Nat := env.frames.length

def push (env : Environment) : Environment := ⟨{}, env.frames⟩

def pop? (env : Environment) : Option Environment :=
  match env.below with
  | [] => none
  | frame :: rest => some ⟨frame, rest⟩

def popMessage : String := "Attempted to pop the ground scope"

def method? (env : Environment) (name : String) : Option Method :=
  env.frames.findSome? (·.method? name)

def value? (env : Environment) (name : String) : Option Value :=
  env.frames.findSome? (·.value? name)

def declare (env : Environment) (name : String) (value : Value) : Except Fault Environment :=
  match env.top.value? name with
  | some _ => .error (.complaint (.redeclared .variable name))
  | none => .ok { env with top.bindings := (name, value) :: env.top.bindings }

def define (env : Environment) (method : Method) : Except Fault Environment :=
  match env.top.method? method.name with
  | some _ => .error (.complaint (.redeclared .method method.name))
  | none => .ok { env with top.methods := method :: env.top.methods }

def register (env : Environment) (converter : Converter) : Environment :=
  { env with top.converters := env.top.converters ++ [converter] }

def converted (env : Environment) (target : Target) (value : Value) : Option target.denote :=
  env.frames.findSome? fun frame => firstConversion target value frame.converters

/-- Takes a value as a target: as it is, else by a converter. For a list, each item can be taken
by itself, and any other value as the only item. -/
def convert (env : Environment) : (target : Target) → Value → Option target.denote
  | .list item, value =>
      (Target.list item).check value <|> env.converted (.list item) value <|>
        match value with
        | .list values => allSome (env.convert item) values
        | single => (env.convert item single).map ([·])
  | target, value => target.check value <|> env.converted target value

def expect (env : Environment) (target : Target) (value : Value) :
    Except Fault target.denote :=
  match env.convert target value with
  | some result => .ok result
  | none => .error (.complaint (.conversion target value.typeName))

end Environment

end ChainScript
