import ChainScript.Expr

/-!
The written form of expressions and values. Every expression that can be read has a written
form that reads back as the same expression; a value put in by the host has none and is shown
between angle brackets.
-/

namespace ChainScript

def separated (separator : String) : List String → String
  | [] => ""
  | [text] => text
  | text :: rest => text ++ separator ++ separated separator rest

/-- A character as it stands inside a string literal. -/
def escaped (c : Char) : List Char :=
  match c with
  | '"' => ['\\', '"']
  | '\\' => ['\\', '\\']
  | '\n' => ['\\', 'n']
  | '\t' => ['\\', 't']
  | '\r' => ['\\', 'r']
  | c => [c]

def quoted (text : String) : String :=
  String.ofList ('"' :: text.toList.flatMap escaped ++ ['"'])

mutual

def Expr.print : Expr → String
  | .text s => quoted s
  | .number n => n.text
  | .identifier name _ => name
  | .option name _ => "--" ++ name
  | .deferred body => "'" ++ body.print
  | .chain terms => separated " " (printAll terms)
  | .block body => "(" ++ body.print ++ ")"
  | .stub value => "<" ++ value.shown ++ ">"
termination_by structural e => e

def printAll : List Expr → List String
  | [] => []
  | term :: rest => term.print :: printAll rest
termination_by structural terms => terms

def Value.shown : Value → String
  | .empty => "empty"
  | .placeholder => "_"
  | .bool b => if b then "true" else "false"
  | .int n => n.toInt.repr
  | .float x => Numeral.shown x
  | .text s => s
  | .list items => "[" ++ separated ", " (shownAll items) ++ "]"
  | .deferred body _ => "'" ++ body.print
  | .host object => "<" ++ object.object.typeName ++ ">"
termination_by structural value => value

def shownAll : List Value → List String
  | [] => []
  | item :: rest => item.shown :: shownAll rest
termination_by structural items => items

end

end ChainScript
