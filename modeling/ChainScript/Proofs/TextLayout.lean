import ChainScript.Expr.Parser
import ChainScript.Proofs.Scanning

/-!
Every text without errors is the text of a layout, and its tokens are those of the layout. With
the converse this says what the scanner accepts: a word is as long as it can be, a literal has its
escapes in order, and only blanks are left out.
-/

namespace ChainScript

namespace Number

theorem sign_of_word (word : List Char) :
    word = signText (isNegative word) ++ unsigned word := by
  unfold unsigned
  split
  · rfl
  · next other =>
      cases word with
      | nil => rfl
      | cons c rest =>
          have plain : c ≠ '-' := by
            rintro rfl
            exact other rest rfl
          simp [isNegative, signText, plain]

theorem numeral_of_allDigits (digits : List Char) (all : allDigits digits = true) :
    IsNumeral digits := by
  cases digits with
  | nil => cases all
  | cons c tail =>
      constructor
      · exact List.cons_ne_nil c tail
      · simpa [allDigits] using all

theorem lexeme_of_read? (word : List Char) (n : Number) (reads : read? word = some n) :
    ∃ lexeme : Lexeme, lexeme.text = word ∧ lexeme.kind = .number n ∧ lexeme.isWord = true := by
  have sign := sign_of_word word
  have parts := List.takeWhile_append_dropWhile (p := (· != '.')) (l := unsigned word)
  simp only [read?] at reads
  split at reads
  · next noPoint =>
      rw [noPoint, List.append_nil] at parts
      split at reads
      · next all =>
          rw [parts] at all reads
          have signedInt : int? (isNegative word) (Nat.ofDigitChars 10 (unsigned word) 0) =
              if fits (signed (isNegative word) (unsigned word)) then
                some (.int (.ofInt (signed (isNegative word) (unsigned word)))) else none := rfl
          rw [signedInt] at reads
          split at reads
          · next inRange =>
              refine ⟨.integer (isNegative word) (unsigned word)
                (numeral_of_allDigits _ all) ((fits_iff_bounds _).mp inRange), sign.symm, ?_, rfl⟩
              exact congrArg TokenKind.number (Option.some.inj reads)
          · cases reads
      · cases reads
  · next point fraction hasPoint =>
      -- The digits stop at the first point, so what they stop at is one.
      have dot : point = '.' := by
        have stops := List.head?_dropWhile_not (p := (· != '.')) (unsigned word)
        rw [hasPoint] at stops
        simpa using stops
      subst dot
      split at reads
      · next all =>
          simp only [Bool.and_eq_true] at all
          rw [hasPoint] at parts
          refine ⟨.decimal (isNegative word) _ fraction (numeral_of_allDigits _ all.1)
            (numeral_of_allDigits _ all.2), ?_, ?_, rfl⟩
          · rw [Lexeme.text, List.append_assoc, parts, ← sign]
          · exact congrArg TokenKind.number (Option.some.inj reads)
      · cases reads

end Number

theorem lexeme_of_classify (word : List Char) (kind : TokenKind) (bare : IsBare word)
    (unquoted : word.head? ≠ some '\'') (found : classify word = .ok kind) :
    ∃ lexeme : Lexeme, lexeme.text = word ∧ lexeme.kind = kind ∧ lexeme.isWord = true := by
  unfold classify at found
  split at found
  · cases found
  · next name nonempty =>
      have named : IsBare name := ⟨fun empty => nonempty (by rw [empty]), fun c member =>
        bare.2 c (by simp [member])⟩
      exact ⟨.option name named, rfl, Except.ok.inj found, rfl⟩
  · next lone other =>
      split at found
      · next number =>
          split at found
          · next n reads =>
              obtain ⟨lexeme, text, same, isWord⟩ := Number.lexeme_of_read? _ n reads
              exact ⟨lexeme, text, same.trans (Except.ok.inj found), isWord⟩
          · cases found
      · next number =>
          refine ⟨.identifier _ ⟨bare, unquoted, ?_, by simpa using number⟩, rfl,
            Except.ok.inj found, rfl⟩
          rintro ⟨name, same⟩
          exact other name same.symm

theorem Escape.exists_of_unescape (c plain : Char) (meant : unescape c = some plain) :
    ∃ escape : Escape, escape.letter = c := by
  unfold unescape at meant
  split at meant
  · exact ⟨.doubleQuote, rfl⟩
  · exact ⟨.backslash, rfl⟩
  · exact ⟨.singleQuote, rfl⟩
  · exact ⟨.newline, rfl⟩
  · exact ⟨.tab, rfl⟩
  · exact ⟨.carriageReturn, rfl⟩
  · cases meant

theorem letters_of_stringBody (text : List Char) (opening : Position) (cut : Cursor)
    (decoded : List Char) (place : Position) (s : String)
    (found : (stringBody opening cut decoded place text).1 = .ok s) :
    ∃ (letters : List Letter) (behind : List Char),
      text = letters.flatMap Letter.text ++ '"' :: behind := by
  fun_induction stringBody opening cut decoded place text with
  | case1 cut decoded place => cases found
  | case2 cut decoded place rest => exact ⟨[], rest, rfl⟩
  | case3 cut decoded place => cases found
  | case4 cut decoded place c rest after plain meant ih =>
      obtain ⟨letters, behind, same⟩ := ih found
      obtain ⟨escape, letter⟩ := Escape.exists_of_unescape c plain meant
      exact ⟨.escaped escape :: letters, behind, by simp [Letter.text, letter, same]⟩
  | case5 cut decoded place c rest after unknown => cases found
  | case6 cut decoded place c rest noQuote noEnd noEscape ih =>
      obtain ⟨letters, behind, same⟩ := ih found
      refine ⟨.plain c ⟨noQuote, ?_⟩ :: letters, behind, by simp [Letter.text, same]⟩
      rintro rfl
      cases rest with
      | nil => exact noEnd rfl rfl
      | cons d rest => exact noEscape d rest rfl rfl

theorem lexeme_of_scanWord (place : Position) (c : Char) (rest : List Char) (token : Token)
    (first : isDelimiter c = false) (unquoted : c ≠ '\'')
    (found : (scanWord place c rest).1 = .ok token) :
    ∃ (lexeme : Lexeme) (behind : List Char), c :: rest = lexeme.text ++ behind ∧
      (lexeme.isWord = true → EndsWord behind) := by
  have bare : IsBare (c :: rest.takeWhile (!isDelimiter ·)) := by
    constructor
    · exact List.cons_ne_nil _ _
    · intro d member
      rcases List.mem_cons.mp member with rfl | later
      · exact first
      · simpa using List.mem_takeWhile_imp later
  have ends : EndsWord (rest.dropWhile (!isDelimiter ·)) := by
    intro d head
    have stops := List.head?_dropWhile_not (!isDelimiter ·) rest
    rw [Option.mem_def.mp head] at stops
    simpa using stops
  simp only [scanWord] at found
  split at found
  · next kind classified =>
      obtain ⟨lexeme, text, _, _⟩ := lexeme_of_classify _ kind bare (by simpa using unquoted)
        classified
      refine ⟨lexeme, rest.dropWhile (!isDelimiter ·), ?_, fun _ => ends⟩
      rw [text, List.cons_append, List.takeWhile_append_dropWhile]
  · cases found

theorem lexeme_of_scanItem (place : Position) (c : Char) (rest : List Char) (token : Token)
    (solid : isBlank c = false) (found : (scanItem place c rest).1 = .ok token) :
    ∃ (lexeme : Lexeme) (behind : List Char), c :: rest = lexeme.text ++ behind ∧
      (lexeme.isWord = true → EndsWord behind) := by
  unfold scanItem at found
  split at found
  · exact ⟨.leftParen, rest, rfl, fun word => by cases word⟩
  · exact ⟨.rightParen, rest, rfl, fun word => by cases word⟩
  · exact ⟨.quote, rest, rfl, fun word => by cases word⟩
  · simp only [scanString] at found
    cases body : (stringBody place ⟨rest, place.past '"'⟩ [] (place.past '"') rest).1 with
    | error fault =>
        rw [body] at found
        cases found
    | ok s =>
        obtain ⟨letters, behind, same⟩ := letters_of_stringBody _ _ _ _ _ s body
        exact ⟨.string letters, behind, by simp [Lexeme.text, same], fun word => by cases word⟩
  · next noOpen noClose noQuote noString =>
      exact lexeme_of_scanWord place c rest token
        (by simpa [isDelimiter, solid] using ⟨⟨noOpen, noClose⟩, noString⟩) noQuote found

theorem lexeme_starts_word (lexeme : Lexeme) (rest : List Char)
    (ends : EndsWord (lexeme.text ++ rest)) :
    ¬ (lexeme.isWord = true ∨ lexeme.isQuote = true) := by
  rintro (word | mark)
  · obtain ⟨⟨nonempty, bare⟩, _⟩ := lexeme.word_text word
    obtain ⟨c, tail, text⟩ := List.exists_cons_of_ne_nil nonempty
    have delimits := ends c (by simp [text])
    rw [bare c (by simp [text])] at delimits
    cases delimits
  · cases lexeme with
    | quote => exact absurd (ends '\'' rfl) (by decide)
    | leftParen => cases mark
    | rightParen => cases mark
    | string letters => cases mark
    | option name bare => cases mark
    | integer negative digits numeral fits => cases mark
    | decimal negative whole fraction numeral fractional => cases mark
    | identifier name identifies => cases mark

-- Without a gap a second word would have been part of the first.
theorem apart_cons (first : Placed) (placed : List Placed) (last : List Char)
    (ends : first.lexeme.isWord = true → EndsWord (placed.flatMap Placed.text ++ last))
    (apart : placed.IsChain Apart) : (first :: placed).IsChain Apart := by
  cases placed with
  | nil => exact .singleton _
  | cons second others =>
      apply List.IsChain.cons_cons _ apart
      rintro noGap ⟨word, either⟩
      have behind := ends word
      rw [List.flatMap_cons, Placed.text, noGap, List.nil_append, List.append_assoc] at behind
      exact lexeme_starts_word _ _ behind either

theorem Scanner.items_ne_nil (cursor : Cursor) : items ⟨cursor, false⟩ ≠ [] := by
  cases here : skipBlanks cursor.place cursor.rest with
  | mk rest place =>
      cases rest with
      | nil => simp [items_of_end _ _ _ here]
      | cons c tail => simp [items_of_item _ _ _ _ _ here]

-- The scanner goes on behind one token at a time, so the induction is on what it found.
theorem placed_of_items (before text : List Char) (found : List Token)
    (items : Scanner.items ⟨⟨text, placeBehind before⟩, false⟩ = found.map .ok) :
    ∃ (placed : List Placed) (last : List Char), text = placed.flatMap Placed.text ++ last ∧
      placed.IsChain Apart ∧ ∀ c ∈ last, isBlank c = true := by
  induction found generalizing before text with
  | nil => exact absurd items (Scanner.items_ne_nil _)
  | cons token found ih =>
      have parts := List.takeWhile_append_dropWhile (p := isBlank) (l := text)
      have gap : ∀ c ∈ text.takeWhile isBlank, isBlank c = true :=
        fun c member => List.mem_takeWhile_imp member
      have blanks := skipBlanks_gap (placeBehind before) _ (text.dropWhile isBlank) gap
      rw [parts, ← placeBehind_append] at blanks
      cases solidText : text.dropWhile isBlank with
      | nil =>
          rw [solidText, List.append_nil] at parts
          exact ⟨[], text, rfl, .nil, by rwa [parts] at gap⟩
      | cons c tail =>
          have solid : isBlank c = false := by
            have stops := List.head?_dropWhile_not isBlank text
            rw [solidText] at stops
            simpa using stops
          rw [solidText, skipBlanks, if_neg (by simp [solid])] at blanks
          rw [Scanner.items_of_item _ _ _ _ _ blanks, List.map_cons, List.cons.injEq] at items
          obtain ⟨lexeme, behind, same, ends⟩ := lexeme_of_scanItem _ c tail token solid items.1
          obtain ⟨d, rest, lexemeText, _, step⟩ := scanItem_lexeme lexeme
            (placeBehind (before ++ text.takeWhile isBlank)) behind ends
          rw [lexemeText, List.cons_append, List.cons.injEq] at same
          obtain ⟨rfl, rfl⟩ := same
          have next := items.2
          rw [step, ← placeBehind_append] at next
          obtain ⟨placed, last, text', apart, lastBlank⟩ := ih _ _ next
          refine ⟨⟨text.takeWhile isBlank, gap, lexeme⟩ :: placed, last, ?_, ?_, lastBlank⟩
          · rw [List.flatMap_cons, Placed.text, lexemeText, List.append_assoc, List.append_assoc,
              ← text', List.cons_append, ← solidText, parts]
          · rw [text'] at ends
            exact apart_cons _ placed last ends apart

theorem eq_map_of_firstFault (items : List (Except Fault Token)) (found : List Token)
    (clean : firstFault items = .ok found) : items = found.map .ok := by
  induction items generalizing found with
  | nil =>
      cases clean
      rfl
  | cons item rest ih =>
      cases item with
      | error fault => cases clean
      | ok token =>
          simp only [firstFault] at clean
          cases others : firstFault rest with
          | error fault =>
              rw [others] at clean
              cases clean
          | ok tail =>
              rw [others] at clean
              cases clean
              rw [List.map_cons, ← ih tail others]

/-- In front of the first error are tokens only. -/
theorem front_of_firstFault (items : List (Except Fault Token)) (fault : Fault)
    (failed : firstFault items = .error fault) :
    ∃ (front : List Token) (behind : List (Except Fault Token)),
      items = front.map .ok ++ .error fault :: behind := by
  induction items with
  | nil => cases failed
  | cons item rest ih =>
      cases item with
      | error cause =>
          cases failed
          exact ⟨[], rest, rfl⟩
      | ok token =>
          cases later : firstFault rest with
          | ok tokens => simp [firstFault, later, Except.map] at failed
          | error cause =>
              simp only [firstFault, later, Except.map, Except.error.injEq] at failed
              subst failed
              obtain ⟨front, behind, rfl⟩ := ih later
              exact ⟨token :: front, behind, rfl⟩

theorem layout_of_tokens (source : String) (found : List Token)
    (clean : tokens source = .ok found) :
    ∃ layout : Layout, layout.text = source ∧ layout.tokens = found := by
  have items := eq_map_of_firstFault _ _ clean
  obtain ⟨placed, last, same, apart, lastBlank⟩ := placed_of_items [] source.toList found items
  have text : Layout.text ⟨placed, apart, last, lastBlank⟩ = source := by
    rw [Layout.text, Layout.chars, ← same, String.ofList_toList]
  refine ⟨⟨placed, apart, last, lastBlank⟩, text, ?_⟩
  have again := tokens_of_layout ⟨placed, apart, last, lastBlank⟩
  rw [text, clean] at again
  exact (Except.ok.inj again).symm

theorem Lexeme.kind_open (lexeme : Lexeme) : lexeme.kind ≠ .endOfInput := by
  cases lexeme <;> simp [Lexeme.kind]

def EndsOnce (found : List Token) : Prop :=
  ∃ front last, found = front ++ [last] ∧ last.kind = .endOfInput ∧
    ∀ token ∈ front, token.kind ≠ .endOfInput

theorem endsOnce_of_tokens (source : String) (found : List Token)
    (clean : tokens source = .ok found) : EndsOnce found := by
  obtain ⟨layout, _, rfl⟩ := layout_of_tokens source found clean
  refine ⟨tokensBehind [] layout.placed, _, rfl, rfl, ?_⟩
  intro token member
  obtain ⟨placed, _, kind, _⟩ := mem_tokensBehind [] layout.placed token member
  rw [kind]
  exact placed.lexeme.kind_open

theorem EndsOnce.last_of_atEnd (found front rest : List Token) (once : EndsOnce found)
    (parts : found = front ++ rest) (open' : ∀ token ∈ front, token.kind ≠ .endOfInput)
    (ends : atEnd rest) : ∃ last, rest = [last] ∧ last.kind = .endOfInput := by
  obtain ⟨before, last, rfl, kind, others⟩ := once
  cases rest with
  | nil =>
      have member : last ∈ front := by
        rw [← List.append_nil front, ← parts]
        simp
      exact absurd kind (open' last member)
  | cons token tail =>
      have first : token.kind = .endOfInput := by simpa [atEnd] using ends
      -- Behind the end token there is nothing, for the last token is not it.
      rcases List.eq_nil_or_concat tail with rfl | ⟨tail, end', rfl⟩
      · exact ⟨token, rfl, first⟩
      · have lasts : before ++ [last] = (front ++ token :: tail) ++ [end'] := by simpa using parts
        have fronts := List.append_inj_left' lasts rfl
        exact absurd first (others token (by simp [fronts]))

end ChainScript
