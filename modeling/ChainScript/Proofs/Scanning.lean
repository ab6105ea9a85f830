import ChainScript.Proofs.Layout

/-!
Scanning undoes writing. The text of a layout has exactly the tokens of the layout, each where it
was placed, and no errors.
-/

namespace ChainScript

def EndsWord (rest : List Char) : Prop :=
  ∀ c ∈ rest.head?, isDelimiter c = true

theorem blank_delimiter (c : Char) (blank : isBlank c = true) : isDelimiter c = true := by
  simp [isDelimiter, blank]

theorem skipBlanks_gap (place : Position) (gap rest : List Char)
    (blank : ∀ c ∈ gap, isBlank c = true) :
    skipBlanks place (gap ++ rest) = skipBlanks (place.pastAll gap) rest := by
  induction gap generalizing place with
  | nil => rfl
  | cons c tail ih =>
      rw [List.cons_append, skipBlanks, if_pos (blank c (by simp)), Position.pastAll]
      exact ih (place.past c) fun d member => blank d (List.mem_cons_of_mem c member)

theorem takeWhile_word (word rest : List Char) (bare : ∀ c ∈ word, isDelimiter c = false)
    (ends : EndsWord rest) :
    (word ++ rest).takeWhile (!isDelimiter ·) = word ∧
      (word ++ rest).dropWhile (!isDelimiter ·) = rest := by
  have all : ∀ c ∈ word, (!isDelimiter c) = true := by
    intro c member
    simp [bare c member]
  rw [List.takeWhile_append_of_pos all, List.dropWhile_append_of_pos all]
  cases rest with
  | nil => simp
  | cons c tail => simp [ends c rfl]

theorem digit_bare (c : Char) (digit : c.isDigit = true) : isDelimiter c = false := by
  have bounds : 48 ≤ c.toNat ∧ c.toNat ≤ 57 := by
    simpa [Char.isDigit, UInt32.le_iff_toNat_le] using digit
  cases found : isDelimiter c with
  | false => rfl
  | true =>
      simp only [isDelimiter, isBlank, Bool.or_eq_true, beq_iff_eq] at found
      rcases found with ((((((rfl | rfl) | rfl) | rfl) | rfl) | rfl) | rfl) | rfl <;>
        revert bounds <;> decide

theorem digit_ne (c d : Char) (digit : c.isDigit = true) (other : d.isDigit = false) : c ≠ d := by
  rintro rfl
  exact Bool.noConfusion (digit.symm.trans other)

/-! Words. -/

namespace Number

theorem unsigned_signText (negative : Bool) (word : List Char) (plain : word.head? ≠ some '-') :
    unsigned (signText negative ++ word) = word ∧
      isNegative (signText negative ++ word) = negative := by
  cases negative with
  | true => exact ⟨rfl, rfl⟩
  | false =>
      cases word with
      | nil => exact ⟨rfl, rfl⟩
      | cons c rest =>
          have other : c ≠ '-' := by simpa using plain
          constructor
          · simp only [signText, Bool.false_eq_true, if_false, List.nil_append]
            unfold unsigned
            split
            · next same => exact absurd (List.cons.inj same).1 other
            · rfl
          · simp [signText, isNegative, other]

theorem numeral_head (digits rest : List Char) (numeral : IsNumeral digits) :
    ∃ c tail, digits ++ rest = c :: tail ∧ c.isDigit = true := by
  obtain ⟨nonempty, all⟩ := numeral
  cases digits with
  | nil => exact absurd rfl nonempty
  | cons c tail => exact ⟨c, tail ++ rest, rfl, all c (by simp)⟩

theorem numeral_head_ne (digits rest : List Char) (numeral : IsNumeral digits) (d : Char)
    (other : d.isDigit = false) : (digits ++ rest).head? ≠ some d := by
  obtain ⟨c, tail, head, digit⟩ := numeral_head digits rest numeral
  simp [head, digit_ne c d digit other]

theorem allDigits_numeral (digits : List Char) (numeral : IsNumeral digits) :
    allDigits digits = true := by
  obtain ⟨nonempty, all⟩ := numeral
  cases digits with
  | nil => exact absurd rfl nonempty
  | cons c tail => simpa [allDigits] using all

theorem span_numeral (digits rest : List Char) (numeral : IsNumeral digits)
    (ends : rest = [] ∨ ∃ tail, rest = '.' :: tail) :
    (digits ++ rest).takeWhile (· != '.') = digits ∧
      (digits ++ rest).dropWhile (· != '.') = rest := by
  have all : ∀ c ∈ digits, (c != '.') = true := by
    intro c member
    simpa using digit_ne c '.' (numeral.2 c member) rfl
  rw [List.takeWhile_append_of_pos all, List.dropWhile_append_of_pos all]
  rcases ends with rfl | ⟨tail, rfl⟩ <;> simp

theorem fits_iff_bounds (n : Int) : fits n = true ↔ -2 ^ 63 ≤ n ∧ n < 2 ^ 63 := by
  have low : Int64.minValue.toInt = -2 ^ 63 := rfl
  have high : Int64.maxValue.toInt = 2 ^ 63 - 1 := rfl
  simp only [fits, low, high, Bool.and_eq_true, decide_eq_true_eq]
  omega

theorem read?_integer (negative : Bool) (digits : List Char) (numeral : IsNumeral digits)
    (within : -2 ^ 63 ≤ signed negative digits ∧ signed negative digits < 2 ^ 63) :
    read? (signText negative ++ digits) = some (.int (.ofInt (signed negative digits))) := by
  have sign := unsigned_signText negative digits
    (by simpa using numeral_head_ne digits [] numeral '-' rfl)
  have parts := span_numeral digits [] numeral (.inl rfl)
  rw [List.append_nil] at parts
  have inRange := (fits_iff_bounds _).mpr within
  simp only [read?, sign, parts, allDigits_numeral digits numeral, if_true, int?]
  exact if_pos inRange

theorem read?_decimal (negative : Bool) (whole fraction : List Char) (numeral : IsNumeral whole)
    (fractional : IsNumeral fraction) :
    read? (signText negative ++ whole ++ '.' :: fraction) =
      some (decimalOf negative (Nat.ofDigitChars 10 (whole ++ fraction) 0) fraction.length) := by
  have sign := unsigned_signText negative (whole ++ '.' :: fraction)
    (numeral_head_ne whole _ numeral '-' rfl)
  have parts := span_numeral whole ('.' :: fraction) numeral (.inr ⟨fraction, rfl⟩)
  rw [List.append_assoc]
  simp only [read?, sign, parts, allDigits_numeral whole numeral,
    allDigits_numeral fraction fractional, Bool.and_self, if_true]

end Number

theorem classify_number (negative : Bool) (digits rest : List Char) (numeral : IsNumeral digits)
    (n : Number) (reads : Number.read? (signText negative ++ (digits ++ rest)) = some n) :
    classify (signText negative ++ (digits ++ rest)) = .ok (.number n) := by
  obtain ⟨c, tail, head, digit⟩ := Number.numeral_head digits rest numeral
  have sign := Number.unsigned_signText negative (digits ++ rest)
    (Number.numeral_head_ne digits rest numeral '-' rfl)
  have minus := digit_ne c '-' digit rfl
  have first : (digits ++ rest).head?.any Char.isDigit = true := by simp [head, digit]
  -- Behind a sign stands a digit, never the second dash of an option.
  unfold classify
  split
  · next same => cases negative <;> simp_all [signText]
  · next same => cases negative <;> simp_all [signText]
  · simp only [sign.1, first, reads, if_true]

theorem classify_identifier (word : List Char) (identifies : IsIdentifier word) :
    classify word = .ok .identifier := by
  have noOption := identifies.noOption
  unfold classify
  split
  · exact absurd (List.prefix_refl _) noOption
  · exact absurd (List.prefix_append ['-', '-'] _) noOption
  · simp [identifies.noNumber]

namespace Lexeme

theorem classify_text (lexeme : Lexeme) (word : lexeme.isWord = true) :
    classify lexeme.text = .ok lexeme.kind := by
  cases lexeme with
  | leftParen => cases word
  | rightParen => cases word
  | quote => cases word
  | string letters => cases word
  | option name bare =>
      cases name with
      | nil => exact absurd rfl bare.1
      | cons c rest => rfl
  | integer negative digits numeral fits =>
      simpa [text, kind] using classify_number negative digits [] numeral _
        (by simpa using Number.read?_integer negative digits numeral fits)
  | decimal negative whole fraction numeral fractional =>
      simpa [text, kind] using classify_number negative whole ('.' :: fraction) numeral _
        (by simpa using Number.read?_decimal negative whole fraction numeral fractional)
  | identifier name identifies => exact classify_identifier name identifies

theorem signText_bare (negative : Bool) : ∀ c ∈ signText negative, isDelimiter c = false := by
  cases negative with
  | true =>
      intro c member
      rw [List.mem_singleton.mp member]
      rfl
  | false => simp [signText]

theorem number_text (negative : Bool) (digits rest : List Char) (numeral : IsNumeral digits)
    (bare : ∀ c ∈ rest, isDelimiter c = false) :
    IsBare (signText negative ++ (digits ++ rest)) ∧
      (signText negative ++ (digits ++ rest)).head? ≠ some '\'' := by
  constructor
  · constructor
    · simp [numeral.1]
    · intro c member
      simp only [List.mem_append] at member
      rcases member with sign | digit | other
      · exact signText_bare negative c sign
      · exact digit_bare c (numeral.2 c digit)
      · exact bare c other
  · cases negative with
    | true => simp [signText]
    | false => exact Number.numeral_head_ne digits rest numeral '\'' rfl

theorem word_text (lexeme : Lexeme) (word : lexeme.isWord = true) :
    IsBare lexeme.text ∧ lexeme.text.head? ≠ some '\'' := by
  cases lexeme with
  | leftParen => cases word
  | rightParen => cases word
  | quote => cases word
  | string letters => cases word
  | option name bare =>
      have dash : isDelimiter '-' = false := rfl
      constructor
      · constructor
        · simp [text]
        · simpa [text, dash] using bare.2
      · simp [text]
  | integer negative digits numeral fits =>
      simpa [text] using number_text negative digits [] numeral (by simp)
  | decimal negative whole fraction numeral fractional =>
      have point : isDelimiter '.' = false := rfl
      simpa [text] using number_text negative whole ('.' :: fraction) numeral
        (by simpa [point] using fun c member => digit_bare c (fractional.2 c member))
  | identifier name identifies => exact ⟨identifies.bare, identifies.unquoted⟩

end Lexeme

/-! String literals. -/

theorem Escape.unescape_letter (escape : Escape) :
    unescape escape.letter = some escape.meaning := by
  cases escape <;> rfl

-- No letter of an escape is a newline, so it moves the place as any character does.
theorem Escape.pastWithin_letter (escape : Escape) (place : Position) :
    place.pastWithin escape.letter = place.past escape.letter := by
  cases escape <;> rfl

-- The scanner's cases overlap, so that of a plain character holds only if no other does.
theorem stringBody_plain (opening : Position) (cut : Cursor) (decoded : List Char)
    (place : Position) (c : Char) (rest : List Char) (bare : c ≠ '"' ∧ c ≠ '\\') :
    stringBody opening cut decoded place (c :: rest) =
      stringBody opening cut (c :: decoded) (place.past c) rest := by
  conv => lhs; unfold stringBody
  split
  · next same => cases same
  · next same => exact absurd (List.cons.inj same).1 bare.1
  · next same => exact absurd (List.cons.inj same).1 bare.2
  · next same => exact absurd (List.cons.inj same).1 bare.2
  · next same =>
      obtain ⟨rfl, rfl⟩ := List.cons.inj same
      rfl

theorem stringBody_letters (opening : Position) (cut : Cursor) (decoded : List Char)
    (place : Position) (letters : List Letter) (rest : List Char) :
    stringBody opening cut decoded place (letters.flatMap Letter.text ++ '"' :: rest) =
      (.ok (String.ofList (decoded.reverse ++ letters.map Letter.meaning)),
        ⟨rest, place.pastAll (letters.flatMap Letter.text ++ ['"'])⟩) := by
  induction letters generalizing cut decoded place with
  | nil => simp [stringBody, Position.pastAll]
  | cons letter letters ih =>
      cases letter with
      | plain c bare =>
          have first : (Letter.plain c bare :: letters).flatMap Letter.text =
              c :: letters.flatMap Letter.text := rfl
          simp only [first, List.cons_append, stringBody_plain _ _ _ _ _ _ bare, ih]
          simp [Letter.meaning, Position.pastAll]
      | escaped escape =>
          have first : (Letter.escaped escape :: letters).flatMap Letter.text =
              '\\' :: escape.letter :: letters.flatMap Letter.text := rfl
          simp only [first, List.cons_append, stringBody, escape.unescape_letter,
            escape.pastWithin_letter, ih]
          simp [Letter.meaning, Position.pastAll]

theorem scanString_letters (place : Position) (letters : List Letter) (rest : List Char) :
    scanString place '"' (letters.flatMap Letter.text ++ '"' :: rest) =
      (.ok ⟨(Lexeme.string letters).kind, String.ofList (Lexeme.string letters).text, place⟩,
        ⟨rest, place.pastAll (Lexeme.string letters).text⟩) := by
  -- The scanner cuts the lexeme out by its length, which it knows from what is left.
  have length : (letters.flatMap Letter.text ++ '"' :: rest).length - rest.length =
      (letters.flatMap Letter.text ++ ['"']).length := by
    simp only [List.length_append, List.length_cons, List.length_nil]
    omega
  have lexeme : (letters.flatMap Letter.text ++ '"' :: rest).take
      (letters.flatMap Letter.text ++ ['"']).length = letters.flatMap Letter.text ++ ['"'] := by
    rw [List.append_cons _ '"' rest, List.take_left]
  simp only [scanString, stringBody_letters, length, lexeme]
  rfl

/-! Lexemes and layouts. -/

theorem scanItem_word (place : Position) (c : Char) (rest : List Char)
    (bare : isDelimiter c = false) (unquoted : c ≠ '\'') :
    scanItem place c rest = scanWord place c rest := by
  unfold scanItem
  split
  · cases bare
  · cases bare
  · exact absurd rfl unquoted
  · cases bare
  · rfl

theorem scanWord_lexeme (lexeme : Lexeme) (word : lexeme.isWord = true) (place : Position)
    (c : Char) (tail rest : List Char) (text : lexeme.text = c :: tail) (ends : EndsWord rest) :
    scanWord place c (tail ++ rest) =
      (.ok ⟨lexeme.kind, String.ofList lexeme.text, place⟩, ⟨rest, place.pastAll lexeme.text⟩) := by
  have bare := (lexeme.word_text word).1.2
  rw [text] at bare
  have spans := takeWhile_word tail rest
    (fun d member => bare d (List.mem_cons_of_mem c member)) ends
  simp only [scanWord, spans, ← text, lexeme.classify_text word]

theorem scanItem_lexeme (lexeme : Lexeme) (place : Position) (rest : List Char)
    (ends : lexeme.isWord = true → EndsWord rest) :
    ∃ c tail, lexeme.text = c :: tail ∧ isBlank c = false ∧
      scanItem place c (tail ++ rest) =
        (.ok ⟨lexeme.kind, String.ofList lexeme.text, place⟩,
          ⟨rest, place.pastAll lexeme.text⟩) := by
  cases word : lexeme.isWord with
  | true =>
      obtain ⟨⟨nonempty, bare⟩, unquoted⟩ := lexeme.word_text word
      obtain ⟨c, tail, text⟩ := List.exists_cons_of_ne_nil nonempty
      have first : isDelimiter c = false := bare c (by simp [text])
      refine ⟨c, tail, text, ?_, ?_⟩
      · cases blank : isBlank c with
        | true => exact absurd (blank_delimiter c blank) (by simp [first])
        | false => rfl
      · rw [scanItem_word place c _ first (by simpa [text] using unquoted)]
        exact scanWord_lexeme lexeme word place c tail rest text (ends word)
  | false =>
      cases lexeme with
      | leftParen => exact ⟨'(', [], rfl, rfl, rfl⟩
      | rightParen => exact ⟨')', [], rfl, rfl, rfl⟩
      | quote => exact ⟨'\'', [], rfl, rfl, rfl⟩
      | string letters =>
          refine ⟨'"', letters.flatMap Letter.text ++ ['"'], rfl, rfl, ?_⟩
          rw [List.append_assoc]
          exact scanString_letters place letters rest
      | option name bare => cases word
      | integer negative digits numeral fits => cases word
      | decimal negative whole fraction numeral fractional => cases word
      | identifier name identifies => cases word

namespace Scanner

theorem items_of_none (scanner : Scanner) (stopped : scanner.next? = none) :
    scanner.items = [] := by
  rw [items]
  split
  · rfl
  · next step => cases stopped.symm.trans step

theorem items_of_some (scanner after : Scanner) (item : Except Fault Token)
    (step : scanner.next? = some (item, after)) : scanner.items = item :: after.items := by
  rw [items]
  split
  · next stopped => cases stopped.symm.trans step
  · next found =>
      cases found.symm.trans step
      rfl

theorem items_of_end (place here : Position) (text : List Char)
    (blanks : skipBlanks place text = ⟨[], here⟩) :
    items ⟨⟨text, place⟩, false⟩ = [.ok ⟨.endOfInput, "", here⟩] := by
  rw [items_of_some _ ⟨⟨[], here⟩, true⟩ (.ok ⟨.endOfInput, "", here⟩) (by simp [next?, blanks]),
    items_of_none _ rfl]

theorem items_of_item (place here : Position) (text : List Char) (c : Char) (rest : List Char)
    (blanks : skipBlanks place text = ⟨c :: rest, here⟩) :
    items ⟨⟨text, place⟩, false⟩ =
      (scanItem here c rest).1 :: items ⟨(scanItem here c rest).2, false⟩ :=
  items_of_some _ _ _ (by simp [next?, blanks])

end Scanner

theorem endsWord_blank (gap rest : List Char) (blank : ∀ c ∈ gap, isBlank c = true)
    (ends : gap = [] → EndsWord rest) : EndsWord (gap ++ rest) := by
  cases gap with
  | nil => exact ends rfl
  | cons c tail =>
      intro d head
      obtain rfl : c = d := by simpa using head
      exact blank_delimiter c (blank c (by simp))

theorem endsWord_lexeme (lexeme : Lexeme) (rest : List Char) (noWord : lexeme.isWord = false)
    (noQuote : lexeme.isQuote = false) : EndsWord (lexeme.text ++ rest) := by
  cases lexeme with
  | leftParen => exact fun c head => by cases head; rfl
  | rightParen => exact fun c head => by cases head; rfl
  | quote => cases noQuote
  | string letters => exact fun c head => by cases head; rfl
  | option name bare => cases noWord
  | integer negative digits numeral fits => cases noWord
  | decimal negative whole fraction numeral fractional => cases noWord
  | identifier name identifies => cases noWord

theorem endsWord_behind (first : Placed) (placed : List Placed) (last : List Char)
    (word : first.lexeme.isWord = true) (apart : (first :: placed).IsChain Apart)
    (lastBlank : ∀ c ∈ last, isBlank c = true) :
    EndsWord (placed.flatMap Placed.text ++ last) := by
  cases placed with
  | nil => simpa using endsWord_blank last [] lastBlank fun _ c head => by cases head
  | cons next rest =>
      have distinct := apart.rel
      rw [List.flatMap_cons, Placed.text, List.append_assoc, List.append_assoc]
      apply endsWord_blank next.gap _ next.blank
      intro noGap
      have neither := fun either => distinct noGap ⟨word, either⟩
      apply endsWord_lexeme
      · exact Bool.eq_false_iff.mpr fun isWord => neither (.inl isWord)
      · exact Bool.eq_false_iff.mpr fun isQuote => neither (.inr isQuote)

-- By induction on the lexemes that are left; the text in front of them tells the place.
theorem items_of_placed (before : List Char) (placed : List Placed) (last : List Char)
    (apart : placed.IsChain Apart) (lastBlank : ∀ c ∈ last, isBlank c = true) :
    Scanner.items ⟨⟨placed.flatMap Placed.text ++ last, placeBehind before⟩, false⟩ =
      (tokensBehind before placed).map .ok ++
        [.ok ⟨.endOfInput, "", placeBehind (before ++ (placed.flatMap Placed.text ++ last))⟩] := by
  induction placed generalizing before with
  | nil =>
      have blanks := skipBlanks_gap (placeBehind before) last [] lastBlank
      rw [List.append_nil, ← placeBehind_append] at blanks
      exact Scanner.items_of_end _ _ _ blanks
  | cons first rest ih =>
      obtain ⟨c, tail, text, solid, found⟩ := scanItem_lexeme first.lexeme
        (placeBehind (before ++ first.gap)) (rest.flatMap Placed.text ++ last)
        fun word => endsWord_behind first rest last word apart lastBlank
      have blanks : skipBlanks (placeBehind before)
          ((first :: rest).flatMap Placed.text ++ last) =
          ⟨c :: (tail ++ (rest.flatMap Placed.text ++ last)),
            placeBehind (before ++ first.gap)⟩ := by
        rw [List.flatMap_cons, Placed.text, List.append_assoc, List.append_assoc, text,
          skipBlanks_gap _ _ _ first.blank, ← placeBehind_append, List.cons_append, skipBlanks,
          if_neg (by simp [solid])]
      rw [Scanner.items_of_item _ _ _ _ _ blanks, found, ← placeBehind_append,
        List.append_assoc]
      have tokens := ih (before ++ first.text) apart.tail
      simpa [tokensBehind, Placed.text] using tokens

theorem items_of_layout (layout : Layout) :
    (Scanner.start layout.chars).items = layout.tokens.map .ok := by
  have items := items_of_placed [] layout.placed layout.last layout.apart layout.lastBlank
  have origin : placeBehind [] = .start := rfl
  rw [origin, List.nil_append] at items
  simpa [Scanner.start, Layout.tokens, Layout.chars] using items

theorem firstFault_of_tokens (found : List Token) : firstFault (found.map .ok) = .ok found := by
  induction found with
  | nil => rfl
  | cons token rest ih => simp [firstFault, ih, Except.map]

theorem tokens_of_layout (layout : Layout) : tokens layout.text = .ok layout.tokens := by
  rw [tokens, scan, Layout.text, String.toList_ofList, items_of_layout, firstFault_of_tokens]

/-- The scanner finds in the text of a layout the tokens of that layout and nothing else. -/
theorem scan_layout (layout : Layout) : scan layout.text = layout.tokens.map .ok := by
  rw [scan, Layout.text, String.toList_ofList, items_of_layout]

end ChainScript
