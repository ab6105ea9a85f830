import ChainScript.Proofs.Places

/-!
What tokens tell about their text. Scanning without errors loses nothing: each token lies in the
text where it says, no two of them overlap, and the bytes that lie in none of them are blanks.
-/

namespace ChainScript

def TokenKind.isWord : TokenKind → Bool
  | .option _ | .identifier | .number _ => true
  | .leftParen | .rightParen | .quote | .string _ | .endOfInput => false

def asciiBlanks : List UInt8 := [0x20, 0x09, 0x0a, 0x0c, 0x0d]

def utf8Bytes (text : String) : List UInt8 := text.toByteArray.data.toList

namespace Token

def stop (token : Token) : Nat := token.position.offset + token.lexeme.utf8ByteSize

def Covers (token : Token) (offset : Nat) : Prop :=
  token.position.offset ≤ offset ∧ offset < token.stop

instance (token : Token) (offset : Nat) : Decidable (token.Covers offset) :=
  inferInstanceAs (Decidable (_ ∧ _))

/-- Whether a token tells the truth about the text that it was read from, where `before` and
`behind` are what the text has on both sides of it. -/
structure Stands (token : Token) (source before behind : String) : Prop where
  split : source = before ++ token.lexeme ++ behind
  offset : token.position.offset = before.utf8ByteSize
  line : token.position.line = 1 + before.toList.count '\n'
  maximal : token.kind.isWord = true → EndsWord behind.toList
  payload : ∀ s, token.kind = .string s → ∃ letters : List Letter,
    token.lexeme = "\"" ++ String.ofList (letters.flatMap Letter.text) ++ "\"" ∧
      s = String.ofList (letters.map Letter.meaning)

end Token

/-! Bytes. -/

theorem utf8Bytes_ofList (text : List Char) :
    utf8Bytes (String.ofList text) = text.flatMap String.utf8EncodeChar := by
  simp [utf8Bytes, List.utf8Encode]

theorem utf8Bytes_append (text more : String) :
    utf8Bytes (text ++ more) = utf8Bytes text ++ utf8Bytes more := by
  simp [utf8Bytes]

theorem length_utf8Bytes (text : String) : (utf8Bytes text).length = text.utf8ByteSize := by
  simp [utf8Bytes]

theorem encode_blank (c : Char) (blank : isBlank c = true) :
    ∃ byte ∈ asciiBlanks, String.utf8EncodeChar c = [byte] := by
  simp only [isBlank, Bool.or_eq_true, beq_iff_eq] at blank
  rcases blank with (((rfl | rfl) | rfl) | rfl) | rfl <;> exact ⟨_, by decide, rfl⟩

theorem mem_asciiBlanks (text : List Char) (blank : ∀ c ∈ text, isBlank c = true) (byte : UInt8)
    (member : byte ∈ utf8Bytes (String.ofList text)) : byte ∈ asciiBlanks := by
  rw [utf8Bytes_ofList, List.mem_flatMap] at member
  obtain ⟨c, inside, encoded⟩ := member
  obtain ⟨one, known, same⟩ := encode_blank c (blank c inside)
  rw [same, List.mem_singleton] at encoded
  rwa [encoded]

/-! Lexemes. -/

theorem Lexeme.isWord_kind (lexeme : Lexeme) : lexeme.kind.isWord = lexeme.isWord := by
  cases lexeme <;> rfl

theorem Lexeme.letters_of_string (lexeme : Lexeme) (s : String) (kind : lexeme.kind = .string s) :
    ∃ letters : List Letter,
      String.ofList lexeme.text = "\"" ++ String.ofList (letters.flatMap Letter.text) ++ "\"" ∧
        s = String.ofList (letters.map Letter.meaning) := by
  cases lexeme with
  | string letters =>
      cases kind
      refine ⟨letters, ?_, rfl⟩
      have quote : "\"" = String.ofList ['"'] := rfl
      rw [quote, ← String.ofList_append, ← String.ofList_append]
      rfl
  | _ => cases kind

/-! Tokens that stand behind one another. -/

theorem stop_placed (before : List Char) (placed : Placed) :
    (placeBehind (before ++ placed.gap)).offset + (String.ofList placed.lexeme.text).utf8ByteSize =
      (placeBehind (before ++ placed.text)).offset := by
  rw [Placed.text, ← List.append_assoc, offset_append (before ++ placed.gap)]

theorem stop_tokensBehind (before : List Char) (placed : List Placed) :
    (tokensBehind before placed).Pairwise fun left right => left.stop ≤ right.position.offset := by
  induction placed generalizing before with
  | nil => exact .nil
  | cons first rest ih =>
      apply List.Pairwise.cons _ (ih _)
      intro token later
      rw [Token.stop, stop_placed]
      exact (position_tokensBehind _ _ token later).1

theorem stop_bounds (before : List Char) (placed : List Placed) (token : Token)
    (member : token ∈ tokensBehind before placed) :
    token.position.offset < token.stop ∧
      token.stop ≤ (placeBehind (before ++ placed.flatMap Placed.text)).offset := by
  induction placed generalizing before with
  | nil => cases member
  | cons first rest ih =>
      rw [List.flatMap_cons, ← List.append_assoc]
      rcases List.mem_cons.mp member with rfl | later
      · have further := offset_lexeme (before ++ first.gap) first.lexeme
        rw [Token.stop, stop_placed, offset_append (before ++ first.text)]
        rw [List.append_assoc] at further
        exact ⟨further, Nat.le_add_right _ _⟩
      · exact ih _ later

theorem stands_tokensBehind (before : List Char) (placed : List Placed) (last : List Char)
    (apart : placed.IsChain Apart) (lastBlank : ∀ c ∈ last, isBlank c = true) (token : Token)
    (member : token ∈ tokensBehind before placed) :
    ∃ front behind,
      token.Stands (String.ofList (before ++ (placed.flatMap Placed.text ++ last))) front
        behind := by
  induction placed generalizing before with
  | nil => cases member
  | cons first rest ih =>
      rcases List.mem_cons.mp member with rfl | later
      · refine ⟨String.ofList (before ++ first.gap),
          String.ofList (rest.flatMap Placed.text ++ last), ?_, rfl, ?_, ?_, ?_⟩
        · simp [← String.ofList_append, Placed.text]
        · simp [placeBehind]
        · intro word
          rw [Lexeme.isWord_kind] at word
          rw [String.toList_ofList]
          exact endsWord_behind first rest last word apart lastBlank
        · exact fun s kind => first.lexeme.letters_of_string s kind
      · have inside := ih (before ++ first.text) apart.tail later
        simpa using inside

-- By induction on the lexemes. A byte lies in the gap in front of the first one, in that one, or
-- behind it.
theorem blank_of_uncovered (before : List Char) (placed : List Placed) (last : List Char)
    (lastBlank : ∀ c ∈ last, isBlank c = true) (i : Nat) (byte : UInt8)
    (found : (utf8Bytes (String.ofList (placed.flatMap Placed.text ++ last)))[i]? = some byte)
    (uncovered : ∀ token ∈ tokensBehind before placed,
      ¬ token.Covers ((placeBehind before).offset + i)) : byte ∈ asciiBlanks := by
  induction placed generalizing before i with
  | nil => exact mem_asciiBlanks last lastBlank byte (List.mem_of_getElem? found)
  | cons first rest ih =>
      have size : (placeBehind (before ++ first.gap)).offset =
          (placeBehind before).offset + (String.ofList first.gap).utf8ByteSize := offset_append _ _
      have stop := stop_placed before first
      rw [List.flatMap_cons, Placed.text, List.append_assoc, List.append_assoc,
        String.ofList_append, String.ofList_append, utf8Bytes_append, utf8Bytes_append] at found
      rcases Nat.lt_or_ge i (String.ofList first.gap).utf8ByteSize with inGap | behindGap
      · rw [List.getElem?_append_left (by rwa [length_utf8Bytes])] at found
        exact mem_asciiBlanks first.gap first.blank byte (List.mem_of_getElem? found)
      · rw [List.getElem?_append_right (by rwa [length_utf8Bytes]), length_utf8Bytes] at found
        have free := uncovered _ List.mem_cons_self
        simp only [Token.Covers, Token.stop] at free
        have behind : (String.ofList first.lexeme.text).utf8ByteSize ≤
            i - (String.ofList first.gap).utf8ByteSize := by
          omega
        rw [List.getElem?_append_right (by rwa [length_utf8Bytes]), length_utf8Bytes] at found
        apply ih (before ++ first.text) _ found
        intro token later
        have same : (placeBehind (before ++ first.text)).offset +
            (i - (String.ofList first.gap).utf8ByteSize -
              (String.ofList first.lexeme.text).utf8ByteSize) =
            (placeBehind before).offset + i := by
          omega
        rw [same]
        exact uncovered token (List.mem_cons_of_mem _ later)

/-- Scanning without errors loses nothing. The tokens lie behind one another in the text and do not
overlap. Each has for its lexeme the text at its offset and counts the lines before it; a word is as
long as it can be, and a string literal stands for its letters. A byte that lies in no token is a
blank. The last token is the end token, at the end of the text. -/
theorem scan_covers (source : String) (found : List Token) (clean : scan source = found.map .ok) :
    found.Pairwise (fun left right => left.position.offset < right.position.offset ∧
      left.stop ≤ right.position.offset) ∧
    (∀ token ∈ found, ∃ before behind, token.Stands source before behind) ∧
    (∀ i byte, (utf8Bytes source)[i]? = some byte → (∀ token ∈ found, ¬ token.Covers i) →
      byte ∈ asciiBlanks) ∧
    ∃ front, found = front ++
        [⟨.endOfInput, "", ⟨source.utf8ByteSize, 1 + source.toList.count '\n'⟩⟩] ∧
      ∀ token ∈ front, token.kind ≠ .endOfInput := by
  have read : tokens source = .ok found := by rw [tokens, clean, firstFault_of_tokens]
  obtain ⟨layout, rfl, rfl⟩ := layout_of_tokens source found read
  refine ⟨?_, ?_, ?_, ?_⟩
  · rw [Layout.tokens, List.pairwise_append]
    refine ⟨(pairwise_tokensBehind _ _).and (stop_tokensBehind _ _),
      List.pairwise_singleton _ _, ?_⟩
    intro token member last same
    obtain rfl := List.mem_singleton.mp same
    obtain ⟨further, within⟩ := stop_bounds [] layout.placed token member
    have whole : token.stop ≤ (placeBehind layout.chars).offset := by
      rw [Layout.chars, offset_append]
      exact Nat.le_trans within (Nat.le_add_right _ _)
    exact ⟨Nat.lt_of_lt_of_le further whole, whole⟩
  · intro token member
    rcases List.mem_append.mp member with inside | last
    · exact stands_tokensBehind [] layout.placed layout.last layout.apart layout.lastBlank token
        inside
    · obtain rfl := List.mem_singleton.mp last
      refine ⟨layout.text, "", ?_, rfl, ?_, ?_, ?_⟩
      · simp
      · rw [Layout.text, String.toList_ofList]
        rfl
      · intro word
        cases word
      · intro s kind
        cases kind
  · intro i byte inside uncovered
    apply blank_of_uncovered [] layout.placed layout.last layout.lastBlank i byte inside
    intro token member
    have free := uncovered token (List.mem_append_left _ member)
    have origin : (placeBehind []).offset = 0 := rfl
    rwa [origin, Nat.zero_add]
  · refine ⟨tokensBehind [] layout.placed, ?_, ?_⟩
    · rw [Layout.text, String.toList_ofList]
      rfl
    · intro token member
      obtain ⟨placed, _, kind, _⟩ := mem_tokensBehind [] layout.placed token member
      rw [kind]
      exact placed.lexeme.kind_open

theorem scan_covers_lines :
    scan "a\n\"\\té\" b" = [⟨.identifier, "a", ⟨0, 1⟩⟩, ⟨.string "\té", "\"\\té\"", ⟨2, 2⟩⟩,
      ⟨.identifier, "b", ⟨9, 2⟩⟩, ⟨.endOfInput, "", ⟨10, 2⟩⟩].map .ok ∧
    (∃ before behind, Token.Stands ⟨.string "\té", "\"\\té\"", ⟨2, 2⟩⟩ "a\n\"\\té\" b" before
      behind) ∧
    0x20 ∈ asciiBlanks := by
  have clean : scan "a\n\"\\té\" b" = [⟨.identifier, "a", ⟨0, 1⟩⟩,
      ⟨.string "\té", "\"\\té\"", ⟨2, 2⟩⟩, ⟨.identifier, "b", ⟨9, 2⟩⟩,
      ⟨.endOfInput, "", ⟨10, 2⟩⟩].map .ok := by
    cbv
  obtain ⟨_, stands, blank, _⟩ := scan_covers _ _ clean
  exact ⟨clean, stands _ (by simp), blank 8 0x20 (by decide) (by decide)⟩

end ChainScript
