import ChainScript.Conversion
import ChainScript.Expr.Parser
import ChainScript.Expr.Printer

/-!
Converters of the kind that a host registers. Those from a text decline one text that is named
to them, and all decline what is not of their kind.
-/

namespace ChainScript.Host

def ofText (target : Target) (declined : String) (make : String → Option target.denote) :
    Converter where
  target := target
  apply
    | .text s => if s = declined then none else make s
    | _ => none

def ofInt (target : Target) (make : Int64 → target.denote) : Converter where
  target := target
  apply
    | .int n => some (make n)
    | _ => none

def size (s : String) : Int64 := .ofNat s.utf8ByteSize

def textToInt (declined : String) : Converter :=
  ofText .int declined fun s => some (size s)

def textToFloat (declined : String) : Converter :=
  ofText .float declined fun s => some (Numeral.ofInteger (size s) / 2.0)

/-- Reads a text as a script, without any transients. -/
def textToDeferred (declined : String) : Converter :=
  ofText .deferred declined fun s =>
    match parse s with
    | .ok body => some ⟨body, []⟩
    | .error _ => none

/-- The characters of a text, each as a value. -/
def textToValues (declined : String) : Converter :=
  ofText (.list .value) declined fun s => some (s.toList.map fun c => .text c.toString)

def textToTexts (declined : String) : Converter :=
  ofText (.list .text) declined fun s => some (s.toList.map Char.toString)

def textToCard (declined : String) : Converter :=
  ofText .card declined fun s => some ⟨s, size s⟩

def anyToInt (n : Int64) : Converter where
  target := .int
  apply _ := some n

def noneToInt : Converter where
  target := .int
  apply _ := none

def anyToText : Converter where
  target := .text
  apply value := some value.shown

def boolToFloat : Converter where
  target := .float
  apply
    | .bool b => some (if b then 1.0 else 0.0)
    | _ => none

def intToBool : Converter := ofInt .bool fun n => n != 0

def intToName : Converter := ofInt .name fun n => ⟨"n" ++ n.toInt.repr⟩

end ChainScript.Host
