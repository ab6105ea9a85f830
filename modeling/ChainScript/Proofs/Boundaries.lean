import ChainScript.Proofs.ByteScanner

/-!
The scanner by byte offsets is the scanner. It never reads or cuts where it must not, for what it
stops at is ASCII and no other character has such a byte; so it stops at boundaries only, also
behind errors, and finds what the scanner by characters finds.
-/

namespace ChainScript

variable {source : String} {missed : Nat}

/-! Bytes and cuts at a cursor. -/

theorem length_bytes (run : List Char) :
    (run.flatMap String.utf8EncodeChar).length = (String.ofList run).utf8ByteSize := by
  rw [← utf8Bytes_ofList, length_utf8Bytes]

theorem isBoundary_size (before rest : List Char) :
    IsBoundary (String.ofList (before ++ rest)) (String.ofList before).utf8ByteSize :=
  String.Pos.Raw.isValid_iff_exists_append.mpr
    ⟨String.ofList before, String.ofList rest, String.ofList_append, rfl⟩

theorem slice?_middle (before run rest : List Char) :
    slice? (String.ofList (before ++ run ++ rest)) (String.ofList before).utf8ByteSize
      ((String.ofList before).utf8ByteSize + (String.ofList run).utf8ByteSize) = some run := by
  have first : IsBoundary (String.ofList (before ++ run ++ rest))
      (String.ofList before).utf8ByteSize := by
    rw [List.append_assoc]
    exact isBoundary_size before (run ++ rest)
  have last := isBoundary_size (before ++ run) rest
  rw [@String.ofList_append before run, String.utf8ByteSize_append] at last
  have cut := String.extract_of_valid before run rest
  simp only [← String.utf8ByteSize_ofList] at cut
  rw [slice?, if_pos ⟨Nat.le_add_right _ _, first, last⟩, cut, String.toList_ofList]

theorem Position.pastAll_eq (place : Position) (run : List Char) :
    place.pastAll run =
      ⟨place.offset + (String.ofList run).utf8ByteSize, place.line + run.count '\n'⟩ := by
  induction run generalizing place with
  | nil => rfl
  | cons c rest ih =>
      have size : (String.ofList (c :: rest)).utf8ByteSize =
          c.utf8Size + (String.ofList rest).utf8ByteSize := by
        rw [← length_bytes, List.flatMap_cons, List.length_append, length_bytes,
          String.length_utf8EncodeChar]
      rw [Position.pastAll, ih, size, List.count_cons]
      simp only [Position.past, beq_iff_eq]
      split <;> simp only [Position.mk.injEq] <;> omega

namespace Cursor.In

variable {place : Position} {run rest : List Char}

theorem split (here : Cursor.In ⟨rest, place⟩ source.toList missed) :
    ∃ before, source = String.ofList (before ++ rest) ∧
      place.offset = (String.ofList before).utf8ByteSize := by
  obtain ⟨before, whole, offset, _⟩ := here
  exact ⟨before, by rw [whole, String.ofList_toList], offset⟩

theorem size (here : Cursor.In ⟨rest, place⟩ source.toList missed) :
    place.offset + (String.ofList rest).utf8ByteSize = source.utf8ByteSize := by
  obtain ⟨before, rfl, offset⟩ := here.split
  rw [offset, String.ofList_append, String.utf8ByteSize_append]

theorem bytesFrom? (here : Cursor.In ⟨rest, place⟩ source.toList missed) :
    ChainScript.bytesFrom? source place.offset = some (rest.flatMap String.utf8EncodeChar) := by
  have within := here.size
  rw [ChainScript.bytesFrom?, if_pos (by omega)]
  obtain ⟨before, rfl, offset⟩ := here.split
  rw [offset, utf8Bytes_drop]

theorem slice? (here : Cursor.In ⟨run ++ rest, place⟩ source.toList missed) :
    ChainScript.slice? source place.offset (place.offset + (String.ofList run).utf8ByteSize) =
      some run := by
  obtain ⟨before, rfl, offset⟩ := here.split
  rw [offset, ← List.append_assoc]
  exact slice?_middle before run rest

theorem slice?_rest (here : Cursor.In ⟨rest, place⟩ source.toList missed) :
    ChainScript.slice? source place.offset source.utf8ByteSize = some rest := by
  have whole : Cursor.In ⟨rest ++ [], place⟩ source.toList missed := by rwa [List.append_nil]
  have cut := whole.slice?
  rwa [here.size] at cut

/-- The first byte of a character tells all that only ASCII characters can be. -/
theorem byte? {c : Char} (here : Cursor.In ⟨c :: rest, place⟩ source.toList missed) :
    ∃ byte more, (c :: rest).flatMap String.utf8EncodeChar = byte :: more ∧
      (utf8Bytes source)[place.offset]? = some byte ∧
      ChainScript.bytesFrom? source (place.offset + 1) = some more ∧
      ∀ p, OfAscii p → byteIs p byte = p c := by
  obtain ⟨byte, tail, bytes⟩ := List.exists_cons_of_ne_nil (String.utf8EncodeChar_ne_nil (c := c))
  have all : (c :: rest).flatMap String.utf8EncodeChar =
      byte :: (tail ++ rest.flatMap String.utf8EncodeChar) := by
    rw [List.flatMap_cons, bytes, List.cons_append]
  have left : (utf8Bytes source).drop place.offset =
      byte :: (tail ++ rest.flatMap String.utf8EncodeChar) := by
    obtain ⟨before, rfl, offset⟩ := here.split
    rw [offset, utf8Bytes_drop, all]
  have read : (utf8Bytes source)[place.offset]? = some byte := by
    rw [← List.head?_drop, left, List.head?_cons]
  have within := (List.getElem?_eq_some_iff.mp read).1
  rw [length_utf8Bytes] at within
  refine ⟨byte, _, all, read, ?_, ?_⟩
  · rw [ChainScript.bytesFrom?, if_pos (Nat.succ_le_of_lt within), ← List.tail_drop, left,
      List.tail_cons]
  · intro p ascii
    rcases utf8EncodeChar_cases p ascii c with ⟨has, one, same, is⟩ | ⟨lacks, free⟩
    · rw [bytes] at same
      obtain rfl := (List.cons.inj same).1
      rw [has, is]
    · rw [lacks]
      exact free byte (by simp [bytes])

theorem offset_lt {text : List Char} {other : Position} {later : List Char} {missedLater : Nat}
    (here : Cursor.In ⟨rest, place⟩ text missed) (there : Cursor.In ⟨later, other⟩ text missedLater)
    (shorter : later.length < rest.length) : place.offset < other.offset := by
  obtain ⟨before, whole, offset, _⟩ := here
  obtain ⟨before', whole', offset', _⟩ := there
  have lengths := congrArg List.length (whole.trans whole'.symm)
  simp only [List.length_append] at lengths
  have first : before <+: text := ⟨rest, whole⟩
  have second : before' <+: text := ⟨later, whole'⟩
  obtain ⟨more, rfl⟩ := List.prefix_of_prefix_length_le first second (by omega)
  cases more with
  | nil => simp at lengths; omega
  | cons c more =>
      have size := c.utf8Size_pos
      rw [offset, offset', offset_append, ← length_bytes, List.flatMap_cons, List.length_append,
        String.length_utf8EncodeChar]
      omega

end Cursor.In

/-! String literals. -/

theorem ofAscii_isStringMark : OfAscii isStringMark :=
  (ofAscii_eq '"' (by decide)).or (ofAscii_eq '\\' (by decide))

theorem takeWhile_plain (run rest : List Char) (plain : ∀ c ∈ run, isStringMark c = false)
    (stops : ∀ c ∈ rest.head?, isStringMark c = true) :
    ((run ++ rest).flatMap String.utf8EncodeChar).takeWhile (!byteIs isStringMark ·) =
      run.flatMap String.utf8EncodeChar := by
  have all : ∀ c ∈ run, (!isStringMark c) = true := by
    intro c member
    simp [plain c member]
  rw [takeWhile_bytes _ ofAscii_isStringMark, List.takeWhile_append_of_pos all]
  cases rest with
  | nil => simp
  | cons c rest => simp [stops c rfl]

theorem stringBody_run (opening : Position) (cut : Cursor) (decoded : List Char)
    (place : Position) (run rest : List Char) (plain : ∀ c ∈ run, isStringMark c = false) :
    stringBody opening cut decoded place (run ++ rest) =
      stringBody opening cut (run.reverse ++ decoded) (place.pastAll run) rest := by
  induction run generalizing decoded place with
  | nil => rfl
  | cons c run ih =>
      have bare : c ≠ '"' ∧ c ≠ '\\' := by
        simpa [isStringMark] using plain c List.mem_cons_self
      rw [List.cons_append, stringBody_plain _ _ _ _ _ _ bare,
        ih _ _ fun d member => plain d (List.mem_cons_of_mem c member)]
      simp [Position.pastAll]

theorem exists_run (text : List Char) :
    ∃ run rest, text = run ++ rest ∧ (∀ c ∈ run, isStringMark c = false) ∧
      ∀ c ∈ rest.head?, isStringMark c = true := by
  refine ⟨text.takeWhile (!isStringMark ·), text.dropWhile (!isStringMark ·),
    List.takeWhile_append_dropWhile.symm, ?_, ?_⟩
  · intro c member
    simpa using List.mem_takeWhile_imp member
  · intro c head
    have stops := List.head?_dropWhile_not (!isStringMark ·) text
    rw [Option.mem_def.mp head] at stops
    simpa using stops

theorem scanItem_ok (place : Position) (c : Char) (rest : List Char) (token : Token)
    (solid : isBlank c = false) (found : (scanItem place c rest).1 = .ok token) :
    ∃ run behind, c :: rest = run ++ behind ∧ token.kind ≠ .endOfInput ∧
      scanItem place c rest =
        (.ok ⟨token.kind, String.ofList run, place⟩, ⟨behind, place.pastAll run⟩) := by
  obtain ⟨lexeme, behind, same, ends⟩ := lexeme_of_scanItem place c rest token solid found
  obtain ⟨d, tail, text, _, scanned⟩ := scanItem_lexeme lexeme place behind ends
  rw [text, List.cons_append, List.cons.injEq] at same
  obtain ⟨rfl, rfl⟩ := same
  rw [scanned] at found
  obtain rfl := Except.ok.inj found
  refine ⟨lexeme.text, behind, ?_, lexeme.kind_open, scanned⟩
  rw [text, List.cons_append]

namespace ByteScanner

variable {scanner : ByteScanner} {run rest : List Char} {decoded : List Char}

theorem chunk?_end (here : Cursor.In ⟨run, scanner.place⟩ source.toList missed)
    (plain : ∀ c ∈ run, isStringMark c = false) :
    scanner.chunk? source decoded =
      some (.ended (.error (.malformed .unterminatedString scanner.startPlace)), scanner) := by
  have bytes := here.bytesFrom?
  have stops := takeWhile_plain run [] plain (by simp)
  rw [List.append_nil] at stops
  simp only [place] at bytes
  simp [chunk?, bytes, stops]

def atMark (scanner behind : ByteScanner) (decoded : List Char) (mark : Char) :
    List Char → Chunk × ByteScanner
  | rest =>
      if mark = '"' then (.ended (.ok (String.ofList decoded)), behind)
      else
        match rest with
        | [] => (.ended (.error (.malformed .unterminatedString scanner.startPlace)), behind)
        | c :: _ =>
            let after : ByteScanner := { behind with current := behind.current + c.utf8Size }
            match unescape c with
            | some meant => (.escaped (decoded ++ [meant]), after)
            | none =>
                (.ended (.error (.malformed (.unknownEscape c)
                  ⟨behind.current - 1, behind.line⟩)), after)

theorem chunk?_mark (decoded : List Char) (mark : Char)
    (here : Cursor.In ⟨run ++ mark :: rest, scanner.place⟩ source.toList missed)
    (plain : ∀ c ∈ run, isStringMark c = false) (marks : isStringMark mark = true) :
    ∃ behind : ByteScanner, behind.place = (scanner.place.pastAll run).past mark ∧
      behind.startPlace = scanner.startPlace ∧
      scanner.chunk? source decoded =
        some (atMark scanner behind (decoded ++ run) mark rest) := by
  have stops := takeWhile_plain run (mark :: rest) plain (by simpa using marks)
  have length := length_bytes run
  have newlines := count_newline_bytes run
  have bytes := here.bytesFrom?
  have cut := here.slice?
  obtain ⟨byte, _, _, read, _, kinds⟩ := here.pastAll.byte?
  have quote := kinds _ (ofAscii_eq '"' (by decide))
  have tail := here.pastAll.past.slice?_rest
  have past : (scanner.place.pastAll run).past mark =
      ⟨scanner.current + (String.ofList run).utf8ByteSize + 1,
        scanner.line + run.count '\n'⟩ := by
    simp only [isStringMark, Bool.or_eq_true, beq_iff_eq] at marks
    rw [Position.pastAll_eq]
    rcases marks with rfl | rfl <;> rfl
  have more : (String.ofList run).utf8ByteSize ≠
      ((run ++ mark :: rest).flatMap String.utf8EncodeChar).length := by
    rw [List.flatMap_append, List.length_append, length, List.flatMap_cons, List.length_append,
      String.length_utf8EncodeChar]
    have size := mark.utf8Size_pos
    omega
  refine ⟨⟨scanner.start, scanner.startLine, scanner.current + (String.ofList run).utf8ByteSize + 1,
    scanner.line + run.count '\n'⟩, past.symm, rfl, ?_⟩
  rw [past] at tail
  rw [Position.pastAll_eq] at read
  simp only [place] at bytes cut read
  simp only [chunk?, bytes, stops, length, newlines, cut, read, quote, tail, more, if_false,
    Option.bind_eq_bind, Option.bind_some, Option.pure_def, atMark, beq_iff_eq]
  split
  · rfl
  · cases rest with
    | nil => rfl
    | cons c rest =>
        simp only
        cases unescape c <;> rfl

theorem backslash_place {behind : ByteScanner} (before : Position)
    (place : behind.place = before.past '\\') :
    (⟨behind.current - 1, behind.line⟩ : Position) = before := by
  have offset : behind.current = before.offset + 1 := congrArg Position.offset place
  have line : behind.line = before.line := congrArg Position.line place
  rw [offset, line, Nat.add_sub_cancel]

/-- Whether the same is found, up to the same place, and the beginning of the item is kept. -/
def Matches {α : Type} (scanner : ByteScanner) (result : Option (α × ByteScanner))
    (found : α × Cursor) : Prop :=
  ∃ after : ByteScanner, result = some (found.1, after) ∧ after.place = found.2.place ∧
    after.startPlace = scanner.startPlace

-- By induction on how much text is left: a chunk ends the literal, or the next one is shorter.
theorem string?_matches (scanner : ByteScanner) (decoded text : List Char)
    (here : Cursor.In ⟨text, scanner.place⟩ source.toList missed) :
    scanner.Matches (scanner.string? source decoded)
      (stringBody scanner.startPlace ⟨text, scanner.place⟩ decoded.reverse scanner.place text) := by
  generalize size : text.length = n
  induction n using Nat.strong_induction_on generalizing text scanner decoded missed with
  | h n ih =>
      obtain ⟨run, rest, rfl, plain, stops⟩ := exists_run text
      rw [stringBody_run _ _ _ _ _ _ plain]
      cases rest with
      | nil =>
          rw [List.append_nil] at here
          exact ⟨scanner, by rw [string?_eq, chunk?_end here plain]; rfl, rfl, rfl⟩
      | cons mark rest =>
          have marks := stops mark rfl
          obtain ⟨behind, place, start, chunk⟩ := chunk?_mark decoded mark here plain marks
          simp only [isStringMark, Bool.or_eq_true, beq_iff_eq] at marks
          rcases marks with rfl | rfl
          · rw [stringBody, List.reverse_append, List.reverse_reverse, List.reverse_reverse]
            exact ⟨behind, by rw [string?_eq, chunk]; rfl, place, start⟩
          · cases rest with
            | nil => exact ⟨behind, by rw [string?_eq, chunk]; rfl, place, start⟩
            | cons c rest =>
                let after : ByteScanner := { behind with current := behind.current + c.utf8Size }
                have backslash := backslash_place _ place
                have next := here.pastAll.past.pastWithin
                rw [← place] at next
                rw [stringBody, ← place]
                cases known : unescape c with
                | some meant =>
                    simp only [atMark, known] at chunk
                    have shorter : rest.length < n := by
                      rw [← size, List.length_append]
                      simp only [List.length_cons]
                      omega
                    have deeper := ih rest.length shorter after (decoded ++ run ++ [meant]) rest
                      next rfl
                    have begun : after.startPlace = scanner.startPlace := start
                    have letters : (decoded ++ run ++ [meant]).reverse =
                        meant :: (run.reverse ++ decoded.reverse) := by
                      simp
                    rw [letters, Matches, begun] at deeper
                    rw [string?_eq, chunk]
                    exact deeper
                | none =>
                    simp only [atMark, known, backslash] at chunk
                    exact ⟨after, by rw [string?_eq, chunk]; rfl, rfl, start⟩

/-! Tokens. -/

theorem ofAscii_isBlank : OfAscii isBlank :=
  ((((ofAscii_eq ' ' (by decide)).or (ofAscii_eq '\t' (by decide))).or ofAscii_newline).or
    (ofAscii_eq '\x0c' (by decide))).or (ofAscii_eq '\r' (by decide))

theorem ofAscii_isDelimiter : OfAscii isDelimiter :=
  ((ofAscii_isBlank.or (ofAscii_eq '(' (by decide))).or (ofAscii_eq ')' (by decide))).or
    (ofAscii_eq '"' (by decide))

def opened (place : Position) : ByteScanner :=
  ⟨place.offset, place.line, place.offset + 1, place.line⟩

theorem word?_matches (place : Position) (c : Char)
    (here : Cursor.In ⟨c :: rest, place⟩ source.toList missed) (bare : isDelimiter c = false) :
    (opened place).Matches (word? source (opened place))
      ((scanWord place c rest).1.map Token.kind, (scanWord place c rest).2) := by
  obtain ⟨byte, more, bytes, _, behind, kinds⟩ := here.byte?
  have first := kinds _ ofAscii_isDelimiter
  rw [bare] at first
  -- The first byte belongs to the word, so the rest of the word is one byte shorter.
  have word := takeWhile_bytes isDelimiter ofAscii_isDelimiter (c :: rest)
  rw [bytes, List.takeWhile_cons, List.takeWhile_cons, first, bare] at word
  have length := congrArg List.length word
  rw [length_bytes] at length
  have next : place.offset + 1 + (more.takeWhile (!byteIs isDelimiter ·)).length =
      place.offset + (String.ofList (c :: rest.takeWhile (!isDelimiter ·))).utf8ByteSize := by
    simp only [Bool.not_false, if_true, List.length_cons] at length
    omega
  have parts := List.takeWhile_append_dropWhile (p := (!isDelimiter ·)) (l := rest)
  have whole : Cursor.In ⟨(c :: rest.takeWhile (!isDelimiter ·)) ++
      rest.dropWhile (!isDelimiter ·), place⟩ source.toList missed := by
    rwa [List.cons_append, parts]
  have oneLine : (c :: rest.takeWhile (!isDelimiter ·)).count '\n' = 0 := by
    apply List.count_eq_zero.mpr
    intro newline
    rcases List.mem_cons.mp newline with rfl | later
    · cases bare
    · exact absurd (List.mem_takeWhile_imp later) (by decide)
  refine ⟨⟨place.offset, place.line, place.offset + 1 +
    (more.takeWhile (!byteIs isDelimiter ·)).length, place.line⟩, ?_, ?_, rfl⟩
  · simp only [word?, opened, behind, next, whole.slice?, Option.bind_eq_bind, Option.bind_some,
      Option.pure_def, scanWord]
    cases classify (c :: rest.takeWhile (!isDelimiter ·)) <;> rfl
  · rw [scanWord, Position.pastAll_eq, oneLine, ByteScanner.place, next, Nat.add_zero]

theorem token?_matches (place : Position) (c : Char) (byte : UInt8)
    (here : Cursor.In ⟨c :: rest, place⟩ source.toList missed) (solid : isBlank c = false)
    (kinds : ∀ p, OfAscii p → byteIs p byte = p c) :
    (opened place).Matches (token? source byte (opened place))
      ((scanItem place c rest).1.map Token.kind, (scanItem place c rest).2) := by
  have is (d : Char) (small : d.toNat < 128) : byteIs (· == d) byte = (c == d) :=
    kinds _ (ofAscii_eq d small)
  simp only [token?, is '(' (by decide), is ')' (by decide), is '\'' (by decide),
    is '"' (by decide), beq_iff_eq]
  by_cases opens : c = '('
  · subst opens
    exact ⟨opened place, rfl, rfl, rfl⟩
  by_cases closes : c = ')'
  · subst closes
    exact ⟨opened place, rfl, rfl, rfl⟩
  by_cases quotes : c = '\''
  · subst quotes
    exact ⟨opened place, rfl, rfl, rfl⟩
  by_cases string : c = '"'
  · subst string
    obtain ⟨after, found, place', start⟩ :=
      string?_matches (opened place) [] rest here.past
    refine ⟨after, ?_, place', start⟩
    rw [if_neg opens, if_neg closes, if_neg quotes, if_pos rfl, found]
    change some ((stringBody place ⟨rest, place.past '"'⟩ [] (place.past '"') rest).1.map
      TokenKind.string, after) = some ((scanString place '"' rest).1.map Token.kind, after)
    simp only [scanString]
    cases (stringBody place ⟨rest, place.past '"'⟩ [] (place.past '"') rest).1 <;> rfl
  · have bare : isDelimiter c = false := by
      simpa [isDelimiter, solid] using ⟨⟨opens, closes⟩, string⟩
    rw [if_neg opens, if_neg closes, if_neg quotes, if_neg string,
      scanItem_word place c rest bare quotes]
    exact word?_matches place c here bare

/-! Steps. -/

theorem stride?_end (here : Cursor.In ⟨[], scanner.place⟩ source.toList missed) :
    scanner.stride? source = some (.item (.ok ⟨.endOfInput, "", scanner.place⟩),
      { scanner with current := scanner.current + 1 }) := by
  have size : scanner.current = source.utf8ByteSize := by simpa [place] using here.size
  rw [stride?, if_neg (by omega), if_pos size, ← size]
  rfl

theorem stride?_char (c : Char)
    (here : Cursor.In ⟨c :: rest, scanner.place⟩ source.toList missed) :
    ∃ byte, (∀ p, OfAscii p → byteIs p byte = p c) ∧
      scanner.stride? source =
        if c = '\n' then
          some (.blank, { opened scanner.place with line := scanner.line + 1 })
        else if isBlank c then some (.blank, opened scanner.place)
        else (token? source byte (opened scanner.place)).bind fun found =>
          match found.1 with
          | .error fault => some (.item (.error fault), found.2)
          | .ok kind => (slice? source found.2.start found.2.current).bind fun lexeme =>
              some (.item (.ok ⟨kind, String.ofList lexeme, found.2.startPlace⟩), found.2) := by
  obtain ⟨byte, _, _, read, _, kinds⟩ := here.byte?
  have within := (List.getElem?_eq_some_iff.mp read).1
  rw [length_utf8Bytes] at within
  simp only [place] at read within
  have newline := kinds _ ofAscii_newline
  refine ⟨byte, kinds, ?_⟩
  rw [stride?, if_neg (by omega), if_neg (by omega)]
  simp only [read, newline, kinds _ ofAscii_isBlank, Option.bind_eq_bind, Option.bind_some,
    Option.pure_def, beq_iff_eq]
  rfl

theorem stride?_blank_char (c : Char)
    (here : Cursor.In ⟨c :: rest, scanner.place⟩ source.toList missed) (blank : isBlank c = true) :
    ∃ after : ByteScanner, scanner.stride? source = some (.blank, after) ∧
      after.place = scanner.place.past c := by
  obtain ⟨byte, _, step⟩ := stride?_char c here
  have one : c.utf8Size = 1 := by
    have length := congrArg List.length (utf8EncodeChar_ascii c (ofAscii_isBlank c blank))
    rwa [String.length_utf8EncodeChar] at length
  by_cases newline : c = '\n'
  · subst newline
    exact ⟨_, step, rfl⟩
  · rw [if_neg newline, if_pos blank] at step
    refine ⟨_, step, ?_⟩
    simp [Position.past, newline, opened, place, one]

theorem stride?_item (c : Char)
    (here : Cursor.In ⟨c :: rest, scanner.place⟩ source.toList missed)
    (solid : isBlank c = false) :
    ∃ after : ByteScanner,
      scanner.stride? source = some (.item (scanItem scanner.place c rest).1, after) ∧
        after.place = (scanItem scanner.place c rest).2.place := by
  obtain ⟨byte, kinds, step⟩ := stride?_char c here
  obtain ⟨after, found, behind, start⟩ := token?_matches scanner.place c byte here solid kinds
  have noNewline : c ≠ '\n' := by
    rintro rfl
    cases solid
  rw [if_neg noNewline, solid, found] at step
  refine ⟨after, ?_, behind⟩
  rw [step]
  cases item : (scanItem scanner.place c rest).1 with
  | error fault => rfl
  | ok token =>
      obtain ⟨run, more, whole, _, scanned⟩ := scanItem_ok scanner.place c rest token solid item
      rw [whole] at here
      have cut := here.slice?
      rw [scanned] at item behind
      have first : after.start = scanner.place.offset := congrArg Position.offset start
      have last : after.current = scanner.place.offset + (String.ofList run).utf8ByteSize := by
        rw [Position.pastAll_eq] at behind
        exact congrArg Position.offset behind
      have begun : after.startPlace = scanner.place := start
      have same := Except.ok.inj item
      simp only [Bool.false_eq_true, if_false, Option.bind_some, Except.map, first, last, cut,
        begun, same]

/-! Calls. -/

/-- Whether the scanner stands where the scanner by characters does. -/
def Tracks (scanner : ByteScanner) (source : String) (other : Scanner) : Prop :=
  if other.finished then source.utf8ByteSize < scanner.current
  else scanner.place = other.cursor.place ∧ ∃ missed, other.cursor.In source.toList missed

/-- What a call gives, with the scanners at one place again and the offset further on. -/
def Answers (scanner : ByteScanner) (source : String) :
    Option (Except Fault Token × Scanner) → Prop
  | none => scanner.next? source = some (none, scanner)
  | some (item, other) => ∃ after : ByteScanner, scanner.next? source = some (some item, after) ∧
      after.Tracks source other ∧ scanner.current < after.current

theorem next?_running (text : List Char)
    (here : Cursor.In ⟨text, scanner.place⟩ source.toList missed) :
    ∃ item other, Scanner.next? ⟨⟨text, scanner.place⟩, false⟩ = some (item, other) ∧
      ∃ after : ByteScanner, scanner.next? source = some (some item, after) ∧
        after.Tracks source other ∧ scanner.current < after.current := by
  induction text generalizing scanner missed with
  | nil =>
      have size : scanner.current = source.utf8ByteSize := by simpa [place] using here.size
      have answer : scanner.next? source = some (some (.ok ⟨.endOfInput, "", scanner.place⟩),
          { scanner with current := scanner.current + 1 }) := by
        rw [next?_eq, stride?_end here]
      refine ⟨_, _, rfl, _, answer, ?_, Nat.lt_succ_self _⟩
      simp only [Tracks, if_true, size]
      exact Nat.lt_succ_self _
  | cons c rest ih =>
      by_cases blank : isBlank c = true
      · obtain ⟨after, step, place⟩ := stride?_blank_char c here blank
        have further := (stride?_blank _ _ _ step).1
        have next := here.past
        rw [← place] at next
        obtain ⟨item, other, found, last, answer, tracks, later⟩ := ih next
        refine ⟨item, other, ?_, last, by rw [next?_eq, step]; exact answer, tracks,
          Nat.lt_trans further later⟩
        rw [place] at found
        simpa [Scanner.next?, skipBlanks, blank] using found
      · have solid : isBlank c = false := Bool.eq_false_iff.mpr blank
        obtain ⟨after, step, place⟩ := stride?_item c here solid
        have next := (scanItem_resumes scanner.place c rest here).2
        refine ⟨(scanItem scanner.place c rest).1, ⟨(scanItem scanner.place c rest).2, false⟩, ?_,
          after, by rw [next?_eq, step], ?_, ?_⟩
        · simp [Scanner.next?, skipBlanks, solid]
        · simp only [Tracks, Bool.false_eq_true, if_false]
          exact ⟨place, _, next⟩
        · have shorter := scanItem_length_le scanner.place c rest
          have further := here.offset_lt next (Nat.lt_succ_of_le shorter)
          rwa [← place] at further

theorem next?_answers (other : Scanner) (tracks : scanner.Tracks source other) :
    scanner.Answers source other.next? := by
  obtain ⟨⟨text, here⟩, finished⟩ := other
  cases finished with
  | true =>
      have past : source.utf8ByteSize < scanner.current := by simpa [Tracks] using tracks
      have step : scanner.stride? source = some (.over, scanner) := if_pos past
      change scanner.next? source = some (none, scanner)
      rw [next?_eq, step]
  | false =>
      simp only [Tracks, Bool.false_eq_true, if_false] at tracks
      obtain ⟨rfl, missed, inside⟩ := tracks
      obtain ⟨item, other, found, answer⟩ := next?_running text inside
      rw [found]
      exact answer

-- By induction on the calls. Both scanners go on from where they stand, and what the scanner by
-- characters has still to give are the items behind those given.
theorem behind?_tracks (source : String) (calls : Nat) :
    ∃ scanner other, behind? source calls = some scanner ∧ scanner.Tracks source other ∧
      other.items = (scan source).drop calls := by
  induction calls with
  | zero => exact ⟨initial, .start source.toList, rfl, ⟨rfl, 0, [], rfl, rfl, rfl⟩, rfl⟩
  | succ calls ih =>
      obtain ⟨scanner, other, behind, tracks, items⟩ := ih
      have answer := next?_answers other tracks
      have tail : (scan source).drop (calls + 1) = other.items.tail := by
        rw [items, List.tail_drop]
      cases step : other.next? with
      | none =>
          rw [step] at answer
          have finished : scanner.next? source = some (none, scanner) := answer
          refine ⟨scanner, other, ?_, tracks, ?_⟩
          · simp only [behind?, behind, finished, Option.bind_eq_bind, Option.bind_some,
              Option.pure_def]
          · rw [tail, Scanner.items_of_none _ step, List.tail_nil]
      | some next =>
          rw [step] at answer
          obtain ⟨after, found, nextTracks, _⟩ := answer
          refine ⟨after, next.2, ?_, nextTracks, ?_⟩
          · simp only [behind?, behind, found, Option.bind_eq_bind, Option.bind_some,
              Option.pure_def]
          · rw [tail, Scanner.items_of_some _ _ _ step, List.tail_cons]

theorem isBoundary_of_tracks (other : Scanner) (next : Except Fault Token × Scanner)
    (tracks : scanner.Tracks source other) (step : other.next? = some next) :
    IsBoundary source scanner.current := by
  cases finished : other.finished with
  | true =>
      rw [Scanner.next?, if_pos finished] at step
      cases step
  | false =>
      rw [Tracks, if_neg (by simp [finished])] at tracks
      obtain ⟨place, missed, inside⟩ := tracks
      obtain ⟨before, whole, offset⟩ := inside.split
      have current : scanner.current = other.cursor.place.offset := congrArg Position.offset place
      rw [current, offset, whole]
      exact isBoundary_size before _

end ByteScanner

/-! All items. -/

theorem Scanner.length_items_le (scanner : Scanner) :
    scanner.items.length ≤ scanner.remaining := by
  fun_induction Scanner.items scanner with
  | case1 scanner stopped => exact Nat.zero_le _
  | case2 scanner item after step ih => exact Nat.lt_of_le_of_lt ih (next?_remaining step)

theorem length_le_size (text : List Char) :
    text.length ≤ (String.ofList text).utf8ByteSize := by
  induction text with
  | nil => exact Nat.zero_le _
  | cons c rest ih =>
      have size := c.utf8Size_pos
      rw [← length_bytes] at ih ⊢
      rw [List.flatMap_cons, List.length_append, String.length_utf8EncodeChar, List.length_cons]
      omega

-- By induction on the items. One that a character starts is no end token.
theorem endsOnce_of_items (cursor : Cursor) (items : List (Except Fault Token))
    (found : Scanner.items ⟨cursor, false⟩ = items) :
    ∃ front place, items = front ++ [.ok ⟨.endOfInput, "", place⟩] ∧
      ∀ token, .ok token ∈ front → token.kind ≠ .endOfInput := by
  induction items generalizing cursor with
  | nil => exact absurd found (Scanner.items_ne_nil cursor)
  | cons item later ih =>
      rcases Scanner.items_cons _ _ _ found with
        ⟨place, _, rfl, rfl⟩ | ⟨place, c, rest, here, rfl, rfl⟩
      · exact ⟨[], place, rfl, by simp⟩
      · obtain ⟨front, last, same, others⟩ := ih _ rfl
        refine ⟨(scanItem place c rest).1 :: front, last, by rw [same, List.cons_append], ?_⟩
        intro token member
        rcases List.mem_cons.mp member with first | later
        · obtain ⟨_, _, _, kind, _⟩ := scanItem_ok place c rest token
            (skipBlanks_solid _ _ _ _ _ here) first.symm
          exact kind
        · exact others token later

/-- The scanner by byte offsets is never at a loss, whatever the text and whatever errors lie
behind it: no byte is taken behind the end, and no cut is out of bounds or inside a character. Call
by call it gives the items of the text, stands at a boundary in front of each of them, and goes on
by at least one byte; behind the last item it gives none. There are at most as many items as bytes
and one, and the last of them, which no other is, is the end token. -/
theorem scan_by_offsets (source : String) :
    (∀ calls, ∃ scanner after : ByteScanner,
      ByteScanner.behind? source calls = some scanner ∧
        scanner.next? source = some ((scan source)[calls]?, after) ∧
        (calls < (scan source).length →
          IsBoundary source scanner.current ∧ scanner.current < after.current)) ∧
      (scan source).length ≤ source.utf8ByteSize + 1 ∧
      ∃ front place, scan source = front ++ [.ok ⟨.endOfInput, "", place⟩] ∧
        ∀ token, .ok token ∈ front → token.kind ≠ .endOfInput := by
  refine ⟨?_, ?_, endsOnce_of_items _ _ rfl⟩
  · intro calls
    obtain ⟨scanner, other, behind, tracks, items⟩ := ByteScanner.behind?_tracks source calls
    have answer := ByteScanner.next?_answers other tracks
    have given : (scan source)[calls]? = other.items.head? := by rw [items, List.head?_drop]
    cases step : other.next? with
    | none =>
        rw [step] at answer
        rw [Scanner.items_of_none _ step] at given items
        have finished : scanner.next? source = some (none, scanner) := answer
        refine ⟨scanner, scanner, behind, by rw [finished, given, List.head?_nil], ?_⟩
        intro more
        have stops := List.drop_eq_nil_iff.mp items.symm
        omega
    | some next =>
        rw [step] at answer
        rw [Scanner.items_of_some _ _ _ step] at given
        obtain ⟨after, found, nextTracks, further⟩ := answer
        refine ⟨scanner, after, behind, by rw [found, given, List.head?_cons], ?_⟩
        intro _
        exact ⟨ByteScanner.isBoundary_of_tracks other next tracks step, further⟩
  · have bound := Scanner.length_items_le (.start source.toList)
    have short := length_le_size source.toList
    rw [String.ofList_toList] at short
    exact Nat.le_trans bound (Nat.succ_le_succ short)

end ChainScript
