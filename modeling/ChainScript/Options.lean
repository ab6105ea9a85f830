import ChainScript.Expr

/-!
The options of one call. Every name that the method asks for is noted, so that a name which was
given and never asked for can be reported.
-/

namespace ChainScript

/-- Gives a name its value, in the place that the name has already if there is one. -/
def bindLast (name : String) (value : Value) : Bindings → Bindings
  | [] => [(name, value)]
  | (key, old) :: rest =>
      if key = name then (name, value) :: rest else (key, old) :: bindLast name value rest

structure Options where
  given : Bindings
  asked : List String := []

def sortedNames (names : List String) : List String :=
  names.mergeSort fun a b => decide (a ≤ b)

namespace Options

def ofPairs (pairs : List (String × Value)) : Options :=
  ⟨pairs.foldl (fun given pair => bindLast pair.1 pair.2 given) [], []⟩

def get? (options : Options) (name : String) : Option Value :=
  options.given.lookup name

def ask (options : Options) (name : String) : Options :=
  ⟨options.given, name :: options.asked⟩

def size (options : Options) : Nat := options.given.length

/-- Names that were given and never asked for. -/
def unused (options : Options) : List String :=
  sortedNames ((options.given.map Prod.fst).filter fun name => !options.asked.contains name)

end Options

end ChainScript
