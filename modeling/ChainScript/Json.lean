/-!
JSON texts, in one line or indented. Fields keep the order in which they are given.
-/

namespace ChainScript

inductive Json where
  | plain (text : String)
  | string (text : String)
  | array (items : List Json)
  | object (fields : List (String × Json))

namespace Json

def hexDigit (n : Nat) : Char :=
  if n < 10 then Char.ofNat ('0'.toNat + n) else Char.ofNat ('a'.toNat + n - 10)

def escaped (c : Char) : List Char :=
  match c with
  | '"' => ['\\', '"']
  | '\\' => ['\\', '\\']
  | '\x08' => ['\\', 'b']
  | '\x0c' => ['\\', 'f']
  | '\n' => ['\\', 'n']
  | '\r' => ['\\', 'r']
  | '\t' => ['\\', 't']
  | c =>
      if c.toNat < 32 then
        ['\\', 'u', '0', '0', hexDigit (c.toNat / 16), hexDigit (c.toNat % 16)]
      else [c]

def quoted (text : String) : String :=
  String.ofList ('"' :: text.toList.flatMap escaped ++ ['"'])

mutual

def compact : Json → String
  | .plain text => text
  | .string text => quoted text
  | .array [] => "[]"
  | .array (first :: rest) => "[" ++ first.compact ++ compactItems rest ++ "]"
  | .object [] => "\x7b\x7d"
  | .object ((key, value) :: rest) =>
      "\x7b" ++ quoted key ++ ":" ++ value.compact ++ compactFields rest ++ "\x7d"
termination_by structural json => json

def compactItems : List Json → String
  | [] => ""
  | item :: rest => "," ++ item.compact ++ compactItems rest
termination_by structural items => items

def compactFields : List (String × Json) → String
  | [] => ""
  | (key, value) :: rest => "," ++ quoted key ++ ":" ++ value.compact ++ compactFields rest
termination_by structural fields => fields

end

/-- A new line, two blanks further in for each level. -/
def line (level : Nat) : String :=
  String.ofList ('\n' :: List.replicate (2 * level) ' ')

mutual

/-- The text with each item and field on a line of its own. -/
def pretty (level : Nat) : Json → String
  | .plain text => text
  | .string text => quoted text
  | .array [] => "[]"
  | .array (first :: rest) =>
      "[" ++ line (level + 1) ++ first.pretty (level + 1) ++ prettyItems (level + 1) rest
        ++ line level ++ "]"
  | .object [] => "\x7b\x7d"
  | .object ((key, value) :: rest) =>
      "\x7b" ++ line (level + 1) ++ quoted key ++ ": " ++ value.pretty (level + 1)
        ++ prettyFields (level + 1) rest ++ line level ++ "\x7d"
termination_by structural json => json

def prettyItems (level : Nat) : List Json → String
  | [] => ""
  | item :: rest => "," ++ line level ++ item.pretty level ++ prettyItems level rest
termination_by structural items => items

def prettyFields (level : Nat) : List (String × Json) → String
  | [] => ""
  | (key, value) :: rest =>
      "," ++ line level ++ quoted key ++ ": " ++ value.pretty level ++ prettyFields level rest
termination_by structural fields => fields

end

end Json

end ChainScript
