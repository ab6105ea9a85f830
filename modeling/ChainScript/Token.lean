import ChainScript.Number
import ChainScript.Position

/-!
Tokens: the words, marks and literals of a script, each with the text it was read from.
-/

namespace ChainScript

inductive TokenKind where
  | leftParen
  | rightParen
  | quote
  | option (name : String)
  | identifier
  | string (text : String)
  | number (n : Number)
  | endOfInput
  deriving DecidableEq

structure Token where
  kind : TokenKind
  lexeme : String
  position : Position
  deriving DecidableEq

namespace TokenKind

def label : TokenKind → String
  | .leftParen => "LEFT_PAREN"
  | .rightParen => "RIGHT_PAREN"
  | .quote => "QUOTE"
  | .option _ => "OPTION"
  | .identifier => "IDENTIFIER"
  | .string _ => "STRING"
  | .number _ => "NUMBER"
  | .endOfInput => "EOF"

/-- What the token stands for, where that is more than its kind. -/
def literal : TokenKind → String
  | .option name => name
  | .string text => text
  | .number n => n.text
  | _ => "null"

end TokenKind

def Token.text (token : Token) : String :=
  token.kind.label ++ " " ++ token.lexeme ++ " " ++ token.kind.literal

end ChainScript
