import ChainScript.Token.Scanner
import Mathlib

/-!
Token sequences as they can be written: the lexemes of a text with blanks before, between and
behind them. A layout knows which tokens it stands for, and where each of them lies.
-/

namespace ChainScript

inductive Escape where
  | doubleQuote
  | backslash
  | singleQuote
  | newline
  | tab
  | carriageReturn
  deriving DecidableEq

namespace Escape

def letter : Escape → Char
  | doubleQuote => '"'
  | backslash => '\\'
  | singleQuote => '\''
  | newline => 'n'
  | tab => 't'
  | carriageReturn => 'r'

def meaning : Escape → Char
  | doubleQuote => '"'
  | backslash => '\\'
  | singleQuote => '\''
  | newline => '\n'
  | tab => '\t'
  | carriageReturn => '\r'

end Escape

inductive Letter where
  | plain (c : Char) (bare : c ≠ '"' ∧ c ≠ '\\')
  | escaped (escape : Escape)

namespace Letter

def text : Letter → List Char
  | .plain c _ => [c]
  | .escaped escape => ['\\', escape.letter]

def meaning : Letter → Char
  | .plain c _ => c
  | .escaped escape => escape.meaning

end Letter

def IsBare (word : List Char) : Prop :=
  word ≠ [] ∧ ∀ c ∈ word, isDelimiter c = false

def IsNumeral (digits : List Char) : Prop :=
  digits ≠ [] ∧ ∀ c ∈ digits, c.isDigit = true

/-- A word that starts neither with a quote nor like an option nor like a number. -/
structure IsIdentifier (word : List Char) : Prop where
  bare : IsBare word
  unquoted : word.head? ≠ some '\''
  noOption : ¬ ['-', '-'] <+: word
  noNumber : (Number.unsigned word).head?.any Char.isDigit = false

def signText (negative : Bool) : List Char :=
  if negative then ['-'] else []

def signed (negative : Bool) (digits : List Char) : Int :=
  if negative then -(Nat.ofDigitChars 10 digits 0 : Int) else Nat.ofDigitChars 10 digits 0

inductive Lexeme where
  | leftParen
  | rightParen
  | quote
  | option (name : List Char) (bare : IsBare name)
  | integer (negative : Bool) (digits : List Char) (numeral : IsNumeral digits)
      (fits : -2 ^ 63 ≤ signed negative digits ∧ signed negative digits < 2 ^ 63)
  | decimal (negative : Bool) (whole fraction : List Char) (numeral : IsNumeral whole)
      (fractional : IsNumeral fraction)
  | identifier (word : List Char) (identifies : IsIdentifier word)
  | string (letters : List Letter)

namespace Lexeme

def text : Lexeme → List Char
  | .leftParen => ['(']
  | .rightParen => [')']
  | .quote => ['\'']
  | .option name _ => '-' :: '-' :: name
  | .integer negative digits _ _ => signText negative ++ digits
  | .decimal negative whole fraction _ _ => signText negative ++ whole ++ '.' :: fraction
  | .identifier word _ => word
  | .string letters => '"' :: letters.flatMap Letter.text ++ ['"']

def kind : Lexeme → TokenKind
  | .leftParen => .leftParen
  | .rightParen => .rightParen
  | .quote => .quote
  | .option name _ => .option (String.ofList name)
  | .integer negative digits _ _ => .number (.int (.ofInt (signed negative digits)))
  | .decimal negative whole fraction _ _ =>
      .number (.decimalOf negative (Nat.ofDigitChars 10 (whole ++ fraction) 0) fraction.length)
  | .identifier _ _ => .identifier
  | .string letters => .string (String.ofList (letters.map Letter.meaning))

def isWord : Lexeme → Bool
  | .leftParen | .rightParen | .quote | .string _ => false
  | .option _ _ | .integer .. | .decimal .. | .identifier _ _ => true

def isQuote : Lexeme → Bool
  | .quote => true
  | _ => false

end Lexeme

structure Placed where
  gap : List Char
  blank : ∀ c ∈ gap, isBlank c = true
  lexeme : Lexeme

def Placed.text (placed : Placed) : List Char := placed.gap ++ placed.lexeme.text

/-- Whether two neighbours stay two. A word would go on with another word and with a quote. -/
def Apart (left right : Placed) : Prop :=
  right.gap = [] → ¬ (left.lexeme.isWord = true ∧
    (right.lexeme.isWord = true ∨ right.lexeme.isQuote = true))

structure Layout where
  placed : List Placed
  apart : placed.IsChain Apart
  last : List Char
  lastBlank : ∀ c ∈ last, isBlank c = true

/-- The place behind a text: its size in bytes, and one line more than it has newlines. -/
def placeBehind (text : List Char) : Position :=
  ⟨(String.ofList text).utf8ByteSize, 1 + text.count '\n'⟩

def tokensBehind (before : List Char) : List Placed → List Token
  | [] => []
  | placed :: rest =>
      ⟨placed.lexeme.kind, String.ofList placed.lexeme.text, placeBehind (before ++ placed.gap)⟩ ::
        tokensBehind (before ++ placed.text) rest

namespace Layout

def chars (layout : Layout) : List Char :=
  layout.placed.flatMap Placed.text ++ layout.last

def text (layout : Layout) : String := String.ofList layout.chars

/-- The tokens that a layout stands for, the end token included. -/
def tokens (layout : Layout) : List Token :=
  tokensBehind [] layout.placed ++ [⟨.endOfInput, "", placeBehind layout.chars⟩]

end Layout

theorem mem_tokensBehind (before : List Char) (placed : List Placed) (token : Token)
    (member : token ∈ tokensBehind before placed) :
    ∃ from' ∈ placed, token.kind = from'.lexeme.kind ∧
      token.lexeme = String.ofList from'.lexeme.text := by
  induction placed generalizing before with
  | nil => cases member
  | cons first rest ih =>
      rcases List.mem_cons.mp member with rfl | later
      · exact ⟨first, List.mem_cons_self, rfl, rfl⟩
      · obtain ⟨other, inside, same⟩ := ih _ later
        exact ⟨other, List.mem_cons_of_mem first inside, same⟩

theorem placeBehind_snoc (before : List Char) (c : Char) :
    placeBehind (before ++ [c]) = (placeBehind before).past c := by
  have size : (String.ofList (before ++ [c])).utf8ByteSize =
      (String.ofList before).utf8ByteSize + c.utf8Size := by
    simp [String.ofList_append]
  simp only [placeBehind, Position.past, size, List.count_append]
  by_cases newline : c = '\n'
  · simp [newline, Nat.add_assoc]
  · simp [newline]

-- The scanner counts on from place to place, a layout reads places off the text before them.
theorem placeBehind_append (before more : List Char) :
    placeBehind (before ++ more) = (placeBehind before).pastAll more := by
  induction more generalizing before with
  | nil => rw [List.append_nil, Position.pastAll]
  | cons c rest ih =>
      rw [Position.pastAll, ← placeBehind_snoc, ← ih, List.append_assoc, List.singleton_append]

end ChainScript
