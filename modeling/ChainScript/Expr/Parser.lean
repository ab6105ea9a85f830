import ChainScript.Expr
import ChainScript.Token.Scanner

/-!
Reading expressions from tokens:

    program = chain end
    chain   = term term ...
    term    = string | number | identifier | option | ' term | ( chain )

The quotes and groups that are still open are kept in a list, innermost first, and each token is
looked at once. A parser can be asked again after it has answered; it goes on where it stopped.
-/

namespace ChainScript

def nestingLimit : Nat := 256

inductive Opening where
  | quote
  /-- A group, with the terms that stand before it in its own chain, nearest first. -/
  | group (place : Position) (before : List Expr)

def closeQuotes (term : Expr) : List Opening → Expr × List Opening
  | .quote :: outer => closeQuotes (.deferred term) outer
  | openings => (term, openings)

def atEnd : List Token → Bool
  | [] => true
  | token :: _ => token.kind == .endOfInput

def atClose : List Token → Bool
  | [] => false
  | token :: _ => token.kind == .rightParen

/-- The place of the next token, or the default place where there is none. -/
def nextPlace : List Token → Position
  | [] => default
  | token :: _ => token.position

/-- Tokens still to be read, and how deep the reading stands. An error leaves both where it
occurred, so that openings left behind by it still count. -/
structure Parser where
  rest : List Token
  depth : Nat := 0

namespace Parser

def finish (base : Nat) (terms : List Expr) (rest : List Token) :
    List Opening → Except Fault Expr × Parser
  | [] => (.ok (.chain terms.reverse), ⟨rest, base⟩)
  | .group place _ :: outer =>
      (.error (.malformed .unclosedGroup place), ⟨rest, base + outer.length⟩)
  | .quote :: outer =>
      (.error (.malformed .nothingQuoted (nextPlace rest)), ⟨rest, base + outer.length⟩)

/-- Reads the rest of a program. `terms` are the terms of the innermost chain so far, nearest
first, and `base` is the depth outside of all openings. -/
def read (base : Nat) (openings : List Opening) (terms : List Expr) :
    List Token → Except Fault Expr × Parser
  | [] => finish base terms [] openings
  | token :: rest =>
      let depth := base + openings.length
      let fail (cause : Malformed) (depth : Nat) (rest : List Token) :
          Except Fault Expr × Parser :=
        (.error (.malformed cause token.position), ⟨rest, depth⟩)
      let add (term : Expr) : Except Fault Expr × Parser :=
        let closed := closeQuotes term openings
        read base closed.2 (closed.1 :: terms) rest
      match token.kind with
      | .endOfInput => finish base terms (token :: rest) openings
      | .quote =>
          if atEnd rest || atClose rest then fail .nothingQuoted depth rest
          else if nestingLimit < depth + 1 then fail (.tooDeep nestingLimit) (depth + 1) rest
          else read base (.quote :: openings) terms rest
      | .leftParen =>
          if atClose rest then fail .emptyGroup depth rest
          else if nestingLimit < depth + 1 then fail (.tooDeep nestingLimit) (depth + 1) rest
          else read base (.group token.position terms :: openings) [] rest
      | .rightParen =>
          match openings with
          | .group _ before :: outer =>
              let closed := closeQuotes (.block (.chain terms.reverse)) outer
              read base closed.2 (closed.1 :: before) rest
          | _ => fail .strayClose depth (token :: rest)
      | .string text => add (.text text)
      | .number n => add (.number n)
      | .identifier => add (.identifier token.lexeme token.position)
      | .option name => add (.option name token.position)

def parse (parser : Parser) : Except Fault Expr × Parser :=
  if atEnd parser.rest then
    (.error (.malformed .noExpression (nextPlace parser.rest)), parser)
  else read parser.depth [] [] parser.rest

end Parser

/-- Reads a text as one program. An error in a token comes before any other. -/
def parse (source : String) : Except Fault Expr :=
  match tokens source with
  | .ok tokens => (Parser.parse ⟨tokens, 0⟩).1
  | .error fault => .error fault

end ChainScript
