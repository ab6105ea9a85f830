/-!
Places in a script: a byte offset with the line that it lies on. A term that no text stands
behind has the default place, offset 0 on line 0.
-/

namespace ChainScript

structure Position where
  offset : Nat := 0
  line : Nat := 0
  deriving DecidableEq, Inhabited

namespace Position

def start : Position := ⟨0, 1⟩

/-- The place after one more character; a newline opens the next line. -/
def past (place : Position) (c : Char) : Position :=
  ⟨place.offset + c.utf8Size, if c = '\n' then place.line + 1 else place.line⟩

/-- The place after one more character that opens no line, whatever it is. -/
def pastWithin (place : Position) (c : Char) : Position :=
  ⟨place.offset + c.utf8Size, place.line⟩

def pastAll (place : Position) : List Char → Position
  | [] => place
  | c :: rest => (place.past c).pastAll rest

def text (place : Position) : String :=
  "line " ++ place.line.repr ++ ", offset " ++ place.offset.repr

end Position

end ChainScript
