import ChainScript.Proofs.Resuming

/-!
Scanning by byte offsets. This scanner keeps two offsets into a text. It goes on by single bytes or
to the next byte of some kind, and cuts the text between two offsets. There is no result where a
byte is taken behind the end, or where a cut is out of bounds or goes through a character.
-/

namespace ChainScript

/-- Whether an offset is where a character begins or the text ends. -/
def IsBoundary (source : String) (offset : Nat) : Prop :=
  (⟨offset⟩ : String.Pos.Raw).IsValid source

instance (source : String) (offset : Nat) : Decidable (IsBoundary source offset) :=
  inferInstanceAs (Decidable (String.Pos.Raw.IsValid source _))

def slice? (source : String) (first last : Nat) : Option (List Char) :=
  if first ≤ last ∧ IsBoundary source first ∧ IsBoundary source last then
    some (String.Pos.Raw.extract source ⟨first⟩ ⟨last⟩).toList
  else none

def bytesFrom? (source : String) (offset : Nat) : Option (List UInt8) :=
  if offset ≤ source.utf8ByteSize then some ((utf8Bytes source).drop offset) else none

/-- Whether a character of a string literal stands for more than itself. -/
def isStringMark (c : Char) : Bool := c == '"' || c == '\\'

/-- The offset and the line where the item began, and those that the scanner has come to. -/
structure ByteScanner where
  start : Nat
  startLine : Nat
  current : Nat
  line : Nat
  deriving DecidableEq

namespace ByteScanner

def initial : ByteScanner := ⟨0, 1, 0, 1⟩

def place (scanner : ByteScanner) : Position := ⟨scanner.current, scanner.line⟩

def startPlace (scanner : ByteScanner) : Position := ⟨scanner.start, scanner.startLine⟩

/-- What the plain characters up to the next mark of a string literal lead to. -/
inductive Chunk where
  | ended (result : Except Fault String)
  | escaped (decoded : List Char)

/-- Goes on to the next mark, and behind the character that a backslash stands in front of. -/
def chunk? (source : String) (decoded : List Char) (scanner : ByteScanner) :
    Option (Chunk × ByteScanner) := do
  let bytes ← bytesFrom? source scanner.current
  let run := bytes.takeWhile (!byteIs isStringMark ·)
  if run.length = bytes.length then
    return (.ended (.error (.malformed .unterminatedString scanner.startPlace)), scanner)
  let plain ← slice? source scanner.current (scanner.current + run.length)
  let mark ← (utf8Bytes source)[scanner.current + run.length]?
  let behind : ByteScanner := { scanner with
    current := scanner.current + run.length + 1, line := scanner.line + run.count 0x0a }
  if byteIs (· == '"') mark then
    return (.ended (.ok (String.ofList (decoded ++ plain))), behind)
  match ← slice? source behind.current source.utf8ByteSize with
  | [] => return (.ended (.error (.malformed .unterminatedString scanner.startPlace)), behind)
  | c :: _ =>
      let after : ByteScanner := { behind with current := behind.current + c.utf8Size }
      match unescape c with
      | some meant => return (.escaped (decoded ++ plain ++ [meant]), after)
      | none =>
          return (.ended (.error (.malformed (.unknownEscape c)
            ⟨behind.current - 1, behind.line⟩)), after)

theorem chunk?_escaped (source : String) (decoded next : List Char) (scanner after : ByteScanner)
    (found : chunk? source decoded scanner = some (.escaped next, after)) :
    scanner.current < after.current ∧ scanner.current < source.utf8ByteSize := by
  simp only [chunk?, Option.bind_eq_bind, Option.pure_def] at found
  obtain ⟨bytes, _, found⟩ := Option.bind_eq_some_iff.mp found
  split at found
  · cases found
  · obtain ⟨plain, _, found⟩ := Option.bind_eq_some_iff.mp found
    obtain ⟨mark, read, found⟩ := Option.bind_eq_some_iff.mp found
    -- The mark is a byte of the text, so the text goes on at least that far.
    have within := (List.getElem?_eq_some_iff.mp read).1
    rw [length_utf8Bytes] at within
    split at found
    · cases found
    · obtain ⟨rest, _, found⟩ := Option.bind_eq_some_iff.mp found
      split at found
      · cases found
      · split at found
        · cases found
          constructor
          · simp only
            omega
          · omega
        · cases found

/-- Reads a string literal behind its opening quote, chunk by chunk. -/
def string? (source : String) (decoded : List Char) (scanner : ByteScanner) :
    Option (Except Fault String × ByteScanner) :=
  match _found : chunk? source decoded scanner with
  | none => none
  | some (.ended result, after) => some (result, after)
  | some (.escaped next, after) => string? source next after
termination_by source.utf8ByteSize - scanner.current
decreasing_by
  have further := chunk?_escaped _ _ _ _ _ _found
  omega

theorem string?_eq (source : String) (decoded : List Char) (scanner : ByteScanner) :
    string? source decoded scanner =
      match chunk? source decoded scanner with
      | none => none
      | some (.ended result, after) => some (result, after)
      | some (.escaped next, after) => string? source next after := by
  rw [string?]
  split <;> next found => rw [found]

/-- Goes on to the end of a word, whose first byte is passed already. -/
def word? (source : String) (scanner : ByteScanner) :
    Option (Except Fault TokenKind × ByteScanner) := do
  let bytes ← bytesFrom? source scanner.current
  let run := bytes.takeWhile (!byteIs isDelimiter ·)
  let behind : ByteScanner := { scanner with current := scanner.current + run.length }
  let word ← slice? source behind.start behind.current
  match classify word with
  | .ok kind => return (.ok kind, behind)
  | .error cause => return (.error (.malformed cause scanner.startPlace), behind)

def token? (source : String) (byte : UInt8) (scanner : ByteScanner) :
    Option (Except Fault TokenKind × ByteScanner) :=
  if byteIs (· == '(') byte then some (.ok .leftParen, scanner)
  else if byteIs (· == ')') byte then some (.ok .rightParen, scanner)
  else if byteIs (· == '\'') byte then some (.ok .quote, scanner)
  else if byteIs (· == '"') byte then
    (string? source [] scanner).map fun found => (found.1.map .string, found.2)
  else word? source scanner

inductive Stride where
  | over
  | blank
  | item (item : Except Fault Token)

/-- One step. Behind the end token the scanner is past the end of the text. -/
def stride? (source : String) (scanner : ByteScanner) : Option (Stride × ByteScanner) :=
  if source.utf8ByteSize < scanner.current then some (.over, scanner)
  else if scanner.current = source.utf8ByteSize then
    some (.item (.ok ⟨.endOfInput, "", ⟨source.utf8ByteSize, scanner.line⟩⟩),
      { scanner with current := scanner.current + 1 })
  else do
    let byte ← (utf8Bytes source)[scanner.current]?
    let opened : ByteScanner :=
      ⟨scanner.current, scanner.line, scanner.current + 1, scanner.line⟩
    if byteIs (· == '\n') byte then return (.blank, { opened with line := opened.line + 1 })
    if byteIs isBlank byte then return (.blank, opened)
    let (found, after) ← token? source byte opened
    match found with
    | .error fault => return (.item (.error fault), after)
    | .ok kind =>
        let lexeme ← slice? source after.start after.current
        return (.item (.ok ⟨kind, String.ofList lexeme, after.startPlace⟩), after)

theorem stride?_blank (source : String) (scanner after : ByteScanner)
    (found : stride? source scanner = some (.blank, after)) :
    scanner.current < after.current ∧ scanner.current < source.utf8ByteSize := by
  unfold stride? at found
  split at found
  · cases found
  · split at found
    · cases found
    · simp only [Option.bind_eq_bind, Option.pure_def] at found
      obtain ⟨byte, read, found⟩ := Option.bind_eq_some_iff.mp found
      have within := (List.getElem?_eq_some_iff.mp read).1
      rw [length_utf8Bytes] at within
      split at found
      · cases found
        exact ⟨Nat.lt_succ_self _, within⟩
      · split at found
        · cases found
          exact ⟨Nat.lt_succ_self _, within⟩
        · obtain ⟨token, _, found⟩ := Option.bind_eq_some_iff.mp found
          split at found
          · cases found
          · obtain ⟨lexeme, _, found⟩ := Option.bind_eq_some_iff.mp found
            cases found

def next? (source : String) (scanner : ByteScanner) :
    Option (Option (Except Fault Token) × ByteScanner) :=
  match _found : stride? source scanner with
  | none => none
  | some (.over, after) => some (none, after)
  | some (.item item, after) => some (some item, after)
  | some (.blank, after) => next? source after
termination_by source.utf8ByteSize - scanner.current
decreasing_by
  have further := stride?_blank _ _ _ _found
  omega

theorem next?_eq (source : String) (scanner : ByteScanner) :
    next? source scanner =
      match stride? source scanner with
      | none => none
      | some (.over, after) => some (none, after)
      | some (.item item, after) => some (some item, after)
      | some (.blank, after) => next? source after := by
  rw [next?]
  split <;> next found => rw [found]

def behind? (source : String) : Nat → Option ByteScanner
  | 0 => some initial
  | calls + 1 => do
      let scanner ← behind? source calls
      let (_, after) ← scanner.next? source
      return after

end ByteScanner

end ChainScript
