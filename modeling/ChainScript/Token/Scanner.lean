import ChainScript.Fault
import ChainScript.Token

/-!
Scanning: the tokens of a text, one by one. A text always ends in one end token; what is no
token is reported and scanning goes on behind it.
-/

namespace ChainScript

def isBlank (c : Char) : Bool :=
  c == ' ' || c == '\t' || c == '\n' || c == '\x0c' || c == '\r'

/-- Where a word ends. A quote does not end one. -/
def isDelimiter (c : Char) : Bool :=
  isBlank c || c == '(' || c == ')' || c == '"'

def unescape : Char → Option Char
  | '"' => some '"'
  | '\\' => some '\\'
  | '\'' => some '\''
  | 'n' => some '\n'
  | 't' => some '\t'
  | 'r' => some '\r'
  | _ => none

structure Cursor where
  rest : List Char
  place : Position
  deriving DecidableEq

def skipBlanks (place : Position) : List Char → Cursor
  | [] => ⟨[], place⟩
  | c :: rest => if isBlank c then skipBlanks (place.past c) rest else ⟨c :: rest, place⟩

/-- Whether a word is an option, a number or an identifier. Whatever starts like a number has
to be one. -/
def classify (word : List Char) : Except Malformed TokenKind :=
  match word with
  | ['-', '-'] => .error .namelessOption
  | '-' :: '-' :: name => .ok (.option (String.ofList name))
  | _ =>
      if (Number.unsigned word).head?.any Char.isDigit then
        match Number.read? word with
        | some n => .ok (.number n)
        | none => .error (.invalidNumber (String.ofList word))
      else .ok .identifier

/-- Reads a string literal behind its opening quote. A literal that never ends is given up at
the last point where its text was cut, which is its start or its last escape. -/
def stringBody (opening : Position) (cut : Cursor) (decoded : List Char) (place : Position) :
    List Char → Except Fault String × Cursor
  | [] => (.error (.malformed .unterminatedString opening), cut)
  | '"' :: rest => (.ok (String.ofList decoded.reverse), ⟨rest, place.past '"'⟩)
  | ['\\'] => (.error (.malformed .unterminatedString opening), ⟨[], place.past '\\'⟩)
  | '\\' :: c :: rest =>
      let after := (place.past '\\').pastWithin c
      match unescape c with
      | some plain => stringBody opening ⟨rest, after⟩ (plain :: decoded) after rest
      | none => (.error (.malformed (.unknownEscape c) place), ⟨rest, after⟩)
  | c :: rest => stringBody opening cut (c :: decoded) (place.past c) rest

def scanMark (kind : TokenKind) (place : Position) (c : Char) (rest : List Char) :
    Except Fault Token × Cursor :=
  (.ok ⟨kind, String.singleton c, place⟩, ⟨rest, place.past c⟩)

/-- A string literal, whose lexeme keeps its quotes and escapes. -/
def scanString (place : Position) (c : Char) (rest : List Char) :
    Except Fault Token × Cursor :=
  let body := stringBody place ⟨rest, place.past c⟩ [] (place.past c) rest
  let lexeme := c :: rest.take (rest.length - body.2.rest.length)
  (body.1.map fun text => ⟨.string text, String.ofList lexeme, place⟩, body.2)

def scanWord (place : Position) (c : Char) (rest : List Char) :
    Except Fault Token × Cursor :=
  let word := c :: rest.takeWhile (!isDelimiter ·)
  (match classify word with
    | .ok kind => .ok ⟨kind, String.ofList word, place⟩
    | .error cause => .error (.malformed cause place),
   ⟨rest.dropWhile (!isDelimiter ·), place.pastAll word⟩)

def scanItem (place : Position) (c : Char) (rest : List Char) :
    Except Fault Token × Cursor :=
  match c with
  | '(' => scanMark .leftParen place c rest
  | ')' => scanMark .rightParen place c rest
  | '\'' => scanMark .quote place c rest
  | '"' => scanString place c rest
  | _ => scanWord place c rest

theorem skipBlanks_length_le (place : Position) (text : List Char) :
    (skipBlanks place text).rest.length ≤ text.length := by
  induction text generalizing place with
  | nil => simp [skipBlanks]
  | cons c rest ih =>
      unfold skipBlanks
      split
      · exact Nat.le_succ_of_le (ih _)
      · simp

theorem stringBody_length_le (opening : Position) (cut : Cursor) (decoded : List Char)
    (place : Position) (text : List Char) (bound : Nat)
    (cutShort : cut.rest.length ≤ bound) (textShort : text.length ≤ bound) :
    (stringBody opening cut decoded place text).2.rest.length ≤ bound := by
  fun_induction stringBody opening cut decoded place text <;> simp_all <;> omega

theorem scanItem_length_le (place : Position) (c : Char) (rest : List Char) :
    (scanItem place c rest).2.rest.length ≤ rest.length := by
  unfold scanItem
  split
  · exact Nat.le_refl _
  · exact Nat.le_refl _
  · exact Nat.le_refl _
  · exact stringBody_length_le _ _ _ _ _ _ (Nat.le_refl _) (Nat.le_refl _)
  · exact (List.dropWhile_sublist _).length_le

/-- Scanning in progress. It is finished once the end token has been given out. -/
structure Scanner where
  cursor : Cursor
  finished : Bool
  deriving DecidableEq

namespace Scanner

def start (text : List Char) : Scanner :=
  ⟨⟨text, .start⟩, false⟩

def next? (scanner : Scanner) : Option (Except Fault Token × Scanner) :=
  if scanner.finished then none
  else
    let here := skipBlanks scanner.cursor.place scanner.cursor.rest
    match here.rest with
    | [] => some (.ok ⟨.endOfInput, "", here.place⟩, ⟨here, true⟩)
    | c :: rest =>
        let found := scanItem here.place c rest
        some (found.1, ⟨found.2, false⟩)

def remaining (scanner : Scanner) : Nat :=
  if scanner.finished then 0 else scanner.cursor.rest.length + 1

theorem next?_remaining {scanner after : Scanner} {item : Except Fault Token}
    (step : scanner.next? = some (item, after)) : after.remaining < scanner.remaining := by
  have blanks := skipBlanks_length_le scanner.cursor.place scanner.cursor.rest
  cases running : scanner.finished with
  | true => simp [next?, running] at step
  | false =>
      cases found : (skipBlanks scanner.cursor.place scanner.cursor.rest).rest with
      | nil =>
          simp only [next?, running, found, Bool.false_eq_true, if_false, Option.some.injEq,
            Prod.mk.injEq] at step
          simp [remaining, running, ← step.2]
      | cons c rest =>
          have shorter := scanItem_length_le
            (skipBlanks scanner.cursor.place scanner.cursor.rest).place c rest
          simp only [next?, running, found, Bool.false_eq_true, if_false, Option.some.injEq,
            Prod.mk.injEq] at step
          rw [found, List.length_cons] at blanks
          simp only [remaining, running, ← step.2, Bool.false_eq_true, if_false]
          omega

def items (scanner : Scanner) : List (Except Fault Token) :=
  match _step : scanner.next? with
  | none => []
  | some (item, after) => item :: after.items
termination_by scanner.remaining
decreasing_by exact next?_remaining _step

end Scanner

def scan (source : String) : List (Except Fault Token) :=
  (Scanner.start source.toList).items

/-- The first error among the items, or else their tokens. -/
def firstFault : List (Except Fault Token) → Except Fault (List Token)
  | [] => .ok []
  | .error fault :: _ => .error fault
  | .ok token :: rest => (firstFault rest).map (token :: ·)

def tokens (source : String) : Except Fault (List Token) :=
  firstFault (scan source)

/-- The tokens of a text whatever else stands between them. -/
def tokensOnly (source : String) : List Token :=
  (scan source).filterMap Except.toOption

end ChainScript
