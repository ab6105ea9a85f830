import ChainScript.Conversion

/-!
What can go wrong, by cause. A `Malformed` cause belongs to a place in the text. A `Complaint`
comes from inside a method, which knows of no place; the call that sees it adds one. All other
faults name the place where a chain failed.
-/

namespace ChainScript

inductive Malformed where
  | unterminatedString
  | unknownEscape (c : Char)
  | namelessOption
  | invalidNumber (word : String)
  | noExpression
  | nothingQuoted
  | emptyGroup
  | unclosedGroup
  | strayClose
  | tooDeep (limit : Nat)
  deriving DecidableEq

def Malformed.message : Malformed → String
  | .unterminatedString => "Unterminated string."
  | .unknownEscape c => "Unknown escape sequence: \\" ++ c.toString
  | .namelessOption => "Expected option name after '--'"
  | .invalidNumber word => "Invalid number: " ++ word
  | .noExpression => "Expected expression"
  | .nothingQuoted => "Expected expression after quote"
  | .emptyGroup => "Empty expression '()'"
  | .unclosedGroup => "Unbalanced '(': expected ')' before end of input"
  | .strayClose => "Unexpected ')'"
  | .tooDeep limit => "Expression nested deeper than " ++ limit.repr ++ " levels"

/-- What a frame of the environment holds under a name. -/
inductive Declared where
  | method
  | variable
  deriving DecidableEq

def Declared.text : Declared → String
  | .method => "Method"
  | .variable => "Variable"

inductive Complaint where
  | redeclared (kind : Declared) (name : String)
  | conversion (expected : Target) (found : String)
  | divisionByZero
  | overflow (symbol : String) (left right : Int64)
  | incomparable (left right : String)
  | tooDeep (limit : Nat)
  | argumentCount (expected actual : Nat)
  | raised (text : String)
  deriving DecidableEq

def Complaint.message : Complaint → String
  | .redeclared kind name => kind.text ++ " '" ++ name ++ "' is already declared in this scope"
  | .conversion expected found => "Cannot convert " ++ found ++ " to " ++ expected.typeName
  | .divisionByZero => "Division by zero"
  | .overflow symbol left right =>
      "Integer overflow in " ++ symbol ++ " " ++ left.toInt.repr ++ " " ++ right.toInt.repr
  | .incomparable left right => "Cannot compare " ++ left ++ " with " ++ right
  | .tooDeep limit => "Deferred evaluation nested deeper than " ++ limit.repr ++ " levels"
  | .argumentCount expected actual =>
      "Expected " ++ expected.repr ++ " argument(s), got " ++ actual.repr
  | .raised text => text

inductive Fault where
  | malformed (cause : Malformed) (place : Position)
  | unresolved (name : String) (place : Position)
  | arity (method : String) (expected actual : Nat) (place : Position)
  | missingOptionValue (name : String) (place : Position)
  | duplicateOption (name : String) (place : Position)
  | unusedOptions (method : String) (names : List String) (place : Position)
  | danglingOptions (names : List String) (place : Position)
  | unconsumed (leftover : Nat) (place : Position)
  | inMethod (method : String) (cause : Complaint) (place : Position)
  | complaint (cause : Complaint)
  | canceled
  deriving DecidableEq

def optionList : List String → String
  | [] => ""
  | [name] => "--" ++ name
  | name :: rest => "--" ++ name ++ ", " ++ optionList rest

namespace Fault

/-- The place of the failing part of the script, where it is known. -/
def position? : Fault → Option Position
  | .malformed _ place | .unresolved _ place | .arity _ _ _ place
  | .missingOptionValue _ place | .duplicateOption _ place | .unusedOptions _ _ place
  | .danglingOptions _ place | .unconsumed _ place | .inMethod _ _ place => some place
  | .complaint _ | .canceled => none

def isCanceled : Fault → Bool
  | .canceled => true
  | _ => false

def description : Fault → String
  | .malformed cause _ => "Parse error: " ++ cause.message
  | .unresolved name _ => "Unknown identifier '" ++ name ++ "'"
  | .arity method expected actual _ =>
      "Method '" ++ method ++ "' expects " ++ expected.repr ++ " argument(s) but got "
        ++ actual.repr
  | .missingOptionValue name _ => "Option '--" ++ name ++ "' has no value"
  | .duplicateOption name _ => "Option '--" ++ name ++ "' supplied more than once"
  | .unusedOptions method names _ =>
      "Method '" ++ method ++ "' does not accept option(s): " ++ optionList names
  | .danglingOptions names _ => "No method consumed option(s): " ++ optionList names
  | .unconsumed leftover _ =>
      "Expression left " ++ leftover.repr ++ " value(s) unconsumed; expected exactly one"
  | .inMethod method cause _ => "Error in '" ++ method ++ "': " ++ cause.message
  | .complaint cause => cause.message
  | .canceled => "Evaluation canceled"

def message (fault : Fault) : String :=
  match fault.position? with
  | some place => "[" ++ place.text ++ "] " ++ fault.description
  | none => fault.description

/-- A complaint gets the place of the call that it came out of. A fault that has a place keeps
it, and so does a cancellation stay what it is. -/
def atCall (method : String) (place : Position) : Fault → Fault
  | .complaint cause => .inMethod method cause place
  | fault => fault

end Fault

end ChainScript
