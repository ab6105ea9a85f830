import ChainScript.Expr
import ChainScript.Json
import ChainScript.Token

/-!
Tokens and expressions as JSON. An expression that holds a value of the host has no such form.
-/

namespace ChainScript

def Position.json (place : Position) : Json :=
  .object [("offset", .plain place.offset.repr), ("line", .plain place.line.repr)]

def Number.json : Number → Json
  | .int n => .object [("Int", .plain n.toInt.repr)]
  | .decimal x => .object [("Decimal", .plain (Numeral.dumped x))]

def TokenKind.json (kind : TokenKind) : Json :=
  match kind with
  | .option name => .object [(kind.label, .string name)]
  | .string text => .object [(kind.label, .string text)]
  | .number n => .object [(kind.label, n.json)]
  | _ => .string kind.label

def Token.json (token : Token) : Json :=
  .object [("token_type", token.kind.json), ("lexeme", .string token.lexeme),
    ("pos", token.position.json)]

namespace Expr

def namedJson (label name : String) (place : Position) : Json :=
  .object [(label, .object [("name", .string name), ("pos", place.json)])]

mutual

def json? : Expr → Option Json
  | .text s => some (.object [("Text", .string s)])
  | .number n => some (.object [("Number", n.json)])
  | .identifier name place => some (namedJson "Identifier" name place)
  | .option name place => some (namedJson "Option" name place)
  | .deferred body => body.json?.map fun inner => .object [("Deferred", inner)]
  | .chain terms => (allJson? terms).map fun inner => .object [("Chain", .array inner)]
  | .block body => body.json?.map fun inner => .object [("Block", inner)]
  | .stub _ => none
termination_by structural e => e

def allJson? : List Expr → Option (List Json)
  | [] => some []
  | term :: rest => do
      let first ← term.json?
      let others ← allJson? rest
      some (first :: others)
termination_by structural terms => terms

end

def noJsonMessage : String :=
  "the enum variant Expr::Stub cannot be serialized"

end Expr

end ChainScript
