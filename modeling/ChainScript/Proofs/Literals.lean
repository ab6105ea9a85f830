import ChainScript.Proofs.Overflow
import ChainScript.Proofs.Resuming
import ChainScript.Proofs.RoundTrip

/-!
Number literals and their printed form. A literal is read to a number whose text is a literal of
that number again, unless it is a decimal past the largest double: that one is read to an infinity,
whose text is an identifier.
-/

namespace ChainScript

open Float.Model (UnpackedFloat)
open Float.Model.UnpackedFloat

/-! Decimals past the largest double. -/

namespace Numeral

theorem isFinite_neg (x : Float) : (-x).isFinite = x.isFinite := by
  rw [isFinite_eq_unpack, isFinite_eq_unpack, unpack_neg]
  cases x.toModel.unpack <;> rfl

theorem beq_of_isFinite (x : Float) (finite : x.isFinite = true) : (x == x) = true := by
  have compared : (x == x) = x.toModel.unpack.beq x.toModel.unpack := rfl
  rw [isFinite_eq_unpack] at finite
  rw [compared]
  cases value : x.toModel.unpack with
  | notANumber =>
      rw [value] at finite
      cases finite
  | infinity sign =>
      rw [value] at finite
      cases finite
  | zero sign => rfl
  | finite sign m e positive =>
      cases sign <;> simp [UnpackedFloat.beq, UnpackedFloat.compare]

end Numeral

namespace Number

theorem isFinite_decimalOf (negative : Bool) (digits places : Nat) (fractional : 0 < places) :
    (decimalOf negative digits places).isFinite = true ↔
      digits < Numeral.overflowBound * 10 ^ places := by
  rw [← Numeral.isFinite_ofDecimal digits places fractional]
  cases negative with
  | false => rfl
  | true =>
      have size := Numeral.isFinite_neg (Numeral.ofDecimal digits (-places))
      exact Eq.congr_left size

theorem text_decimalOf_large (negative : Bool) (digits places : Nat) (fractional : 0 < places)
    (large : Numeral.overflowBound * 10 ^ places ≤ digits) :
    (decimalOf negative digits places).text = if negative then "-inf" else "inf" := by
  have value := Numeral.unpack_ofDecimal_large digits places fractional large
  have negated : (-Numeral.ofDecimal digits (-places)).toModel.unpack = .infinity .negative := by
    rw [Numeral.unpack_neg, value]
    rfl
  cases negative with
  | false => simp [text, decimalOf, Numeral.shown, value, Numeral.signText]
  | true => simp [text, decimalOf, Numeral.shown, negated, Numeral.signText]

theorem same_self (n : Number) (finite : n.isFinite = true) : n.same n = true := by
  cases n with
  | int n => exact beq_self_eq_true n
  | decimal x => exact Numeral.beq_of_isFinite x finite

end Number

/-! Tokens among errors. -/

theorem isWritten_of_scanItem (place : Position) (c : Char) (rest : List Char) (token : Token)
    (solid : isBlank c = false) (found : (scanItem place c rest).1 = .ok token) :
    token.IsWritten := by
  obtain ⟨lexeme, behind, same, ends⟩ := lexeme_of_scanItem place c rest token solid found
  obtain ⟨d, tail, text, _, step⟩ := scanItem_lexeme lexeme place behind ends
  rw [text, List.cons_append, List.cons.injEq] at same
  obtain ⟨rfl, rfl⟩ := same
  rw [step] at found
  obtain rfl := Except.ok.inj found
  exact ⟨lexeme, rfl, rfl⟩

theorem isWritten_of_items (cursor : Cursor) (items : List (Except Fault Token))
    (scanned : Scanner.items ⟨cursor, false⟩ = items) (token : Token)
    (member : .ok token ∈ items) : token.kind = .endOfInput ∨ token.IsWritten := by
  induction items generalizing cursor with
  | nil => cases member
  | cons item later ih =>
      rcases Scanner.items_cons _ _ _ scanned with
        ⟨place, _, rfl, rfl⟩ | ⟨place, c, rest, here, rfl, next⟩
      · obtain rfl := Except.ok.inj (List.mem_singleton.mp member)
        exact .inl rfl
      · rcases List.mem_cons.mp member with first | behind
        · exact .inr (isWritten_of_scanItem place c rest token
            (skipBlanks_solid _ _ _ _ _ here) first.symm)
        · exact ih _ next.symm behind

theorem scan_lexeme (lexeme : Lexeme) (text : String) (same : lexeme.text = text.toList) :
    scan text = [.ok ⟨lexeme.kind, text, .start⟩,
      .ok ⟨.endOfInput, "", placeBehind text.toList⟩] := by
  have items := items_of_layout ⟨[⟨[], by simp, lexeme⟩], .singleton _, [], by simp⟩
  have origin : placeBehind [] = .start := rfl
  simpa [scan, Layout.chars, Layout.tokens, tokensBehind, Placed.text, same, origin] using items

/-! Literals. -/

/-- A decimal literal that is past the largest double when it is rounded. -/
def TooLarge (word : List Char) : Prop :=
  ∃ negative whole fraction, IsNumeral whole ∧ IsNumeral fraction ∧
    word = signText negative ++ whole ++ '.' :: fraction ∧
    Numeral.overflowBound * 10 ^ fraction.length ≤ Nat.ofDigitChars 10 (whole ++ fraction) 0

theorem places_pos (fraction : List Char) (fractional : IsNumeral fraction) :
    0 < fraction.length :=
  List.length_pos_iff.mpr fractional.1

theorem isWord_of_number (lexeme : Lexeme) (n : Number) (kind : lexeme.kind = .number n) :
    lexeme.isWord = true := by
  cases lexeme <;> first | rfl | cases kind

/-- Words of the same text are classified alike, so a decimal can be split in one way only. -/
theorem decimal_of_literal (lexeme : Lexeme) (n : Number) (kind : lexeme.kind = .number n)
    (negative : Bool) (whole fraction : List Char) (numeral : IsNumeral whole)
    (fractional : IsNumeral fraction)
    (text : lexeme.text = signText negative ++ whole ++ '.' :: fraction) :
    n = .decimalOf negative (Nat.ofDigitChars 10 (whole ++ fraction) 0) fraction.length := by
  have word := lexeme.classify_text (isWord_of_number lexeme n kind)
  have again := (Lexeme.decimal negative whole fraction numeral fractional).classify_text rfl
  rw [Lexeme.text, ← text, word, kind] at again
  exact TokenKind.number.inj (Except.ok.inj again)

theorem isFinite_literal_iff (lexeme : Lexeme) (n : Number) (kind : lexeme.kind = .number n) :
    n.isFinite = true ↔ ¬ TooLarge lexeme.text := by
  constructor
  · rintro finite ⟨negative, whole, fraction, numeral, fractional, text, large⟩
    obtain rfl := decimal_of_literal lexeme n kind negative whole fraction numeral fractional text
    rw [Number.isFinite_decimalOf _ _ _ (places_pos fraction fractional)] at finite
    exact absurd finite (Nat.not_lt.mpr large)
  · intro small
    cases lexeme with
    | integer negative digits numeral fits =>
        cases kind
        rfl
    | decimal negative whole fraction numeral fractional =>
        cases kind
        rw [Number.isFinite_decimalOf _ _ _ (places_pos fraction fractional)]
        by_contra large
        exact small ⟨negative, whole, fraction, numeral, fractional, rfl, Nat.not_lt.mp large⟩
    | leftParen => cases kind
    | rightParen => cases kind
    | quote => cases kind
    | option name bare => cases kind
    | identifier word identifies => cases kind
    | string letters => cases kind

theorem text_of_literal (lexeme : Lexeme) (n : Number) (kind : lexeme.kind = .number n)
    (large : TooLarge lexeme.text) : n.text = "inf" ∨ n.text = "-inf" := by
  obtain ⟨negative, whole, fraction, numeral, fractional, text, past⟩ := large
  obtain rfl := decimal_of_literal lexeme n kind negative whole fraction numeral fractional text
  rw [Number.text_decimalOf_large _ _ _ (places_pos fraction fractional) past]
  cases negative <;> simp

theorem scan_infinity (text : String) (infinite : text = "inf" ∨ text = "-inf") :
    scan text = [.ok ⟨.identifier, text, .start⟩,
      .ok ⟨.endOfInput, "", placeBehind text.toList⟩] := by
  have identifies : ∀ word ∈ [['i', 'n', 'f'], ['-', 'i', 'n', 'f']], IsIdentifier word := by
    simp only [List.mem_cons, List.not_mem_nil, or_false, forall_eq_or_imp, forall_eq]
    exact ⟨⟨⟨by simp, by simp [isDelimiter, isBlank]⟩, by simp, by simp, by simp [Number.unsigned]⟩,
      ⟨⟨by simp, by simp [isDelimiter, isBlank]⟩, by simp, by simp, by simp [Number.unsigned]⟩⟩
  have member : text.toList ∈ [['i', 'n', 'f'], ['-', 'i', 'n', 'f']] := by
    rcases infinite with rfl | rfl <;> simp
  exact scan_lexeme (.identifier text.toList (identifies _ member)) text rfl

/-- The text of a number is a literal of it. Whatever is read as a number from a text, errors or
not, and is no decimal past the largest double, is shown by a text that scans as this number and
nothing else. A decimal past the largest double is shown as an infinity, and that text scans as an
identifier. -/
theorem literal_read_back (source : String) (token : Token) (n : Number)
    (scanned : .ok token ∈ scan source) (number : token.kind = .number n) :
    (¬ TooLarge token.lexeme.toList → n.same n = true ∧
      scan n.text = [.ok ⟨.number n, n.text, .start⟩,
        .ok ⟨.endOfInput, "", placeBehind n.text.toList⟩]) ∧
    (TooLarge token.lexeme.toList → (n.text = "inf" ∨ n.text = "-inf") ∧
      scan n.text = [.ok ⟨.identifier, n.text, .start⟩,
        .ok ⟨.endOfInput, "", placeBehind n.text.toList⟩]) := by
  obtain ⟨lexeme, kind, text⟩ : token.IsWritten := by
    refine (isWritten_of_items _ _ rfl token scanned).resolve_left ?_
    rw [number]
    exact TokenKind.noConfusion
  rw [number] at kind
  rw [text, String.toList_ofList]
  constructor
  · intro small
    have finite := (isFinite_literal_iff lexeme n kind.symm).mpr small
    obtain ⟨shown, same, again⟩ := lexeme_of_number n finite
    exact ⟨n.same_self finite, again ▸ scan_lexeme shown n.text same⟩
  · intro large
    have infinite := text_of_literal lexeme n kind.symm large
    exact ⟨infinite, scan_infinity n.text infinite⟩

theorem literal_read_back_padded :
    .ok ⟨.number (.decimalOf true 750 2), "-007.50", .start⟩ ∈ scan "-007.50" ∧
    ¬ TooLarge "-007.50".toList ∧ (Number.decimalOf true 750 2).text = "-7.5" ∧
    scan "-7.5" = [.ok ⟨.number (.decimalOf true 750 2), "-7.5", .start⟩,
      .ok ⟨.endOfInput, "", ⟨4, 1⟩⟩] := by
  obtain ⟨lexeme, written⟩ : ∃ lexeme, lexeme = Lexeme.decimal true ['0', '0', '7'] ['5', '0']
      ⟨by simp, by simp⟩ ⟨by simp, by simp⟩ := ⟨_, rfl⟩
  have spelled : lexeme.text = "-007.50".toList := by simp [written, Lexeme.text, signText]
  have kind : lexeme.kind = .number (.decimalOf true 750 2) := by
    rw [written]
    rfl
  have member : .ok ⟨.number (.decimalOf true 750 2), "-007.50", .start⟩ ∈ scan "-007.50" := by
    rw [scan_lexeme lexeme _ spelled, kind]
    exact List.mem_cons_self
  have finite : (Number.decimalOf true 750 2).isFinite = true := by decide +kernel
  have small := (isFinite_literal_iff lexeme _ kind).mp finite
  rw [spelled] at small
  have text : (Number.decimalOf true 750 2).text = "-7.5" := by decide +kernel
  obtain ⟨_, again⟩ := (literal_read_back "-007.50" _ _ member rfl).1 small
  rw [text] at again
  exact ⟨member, small, text, again⟩

/-- The decimal 10 ^ 309 is a literal, but its text is not one. -/
theorem literal_lost :
    ∃ literal n, literal = String.ofList ('1' :: List.replicate 309 '0' ++ ['.', '0']) ∧
      TooLarge literal.toList ∧
      scan literal = [.ok ⟨.number n, literal, .start⟩,
        .ok ⟨.endOfInput, "", placeBehind literal.toList⟩] ∧
      n.text = "inf" ∧
      scan n.text = [.ok ⟨.identifier, "inf", .start⟩, .ok ⟨.endOfInput, "", ⟨3, 1⟩⟩] := by
  obtain ⟨whole, whole_eq⟩ : ∃ whole, whole = '1' :: List.replicate 309 '0' := ⟨_, rfl⟩
  have numeral : IsNumeral whole := by
    rw [whole_eq]
    refine ⟨List.cons_ne_nil _ _, ?_⟩
    simp only [List.mem_cons, List.mem_replicate]
    rintro c (rfl | ⟨_, rfl⟩) <;> rfl
  have digits : Nat.ofDigitChars 10 (whole ++ ['0']) 0 = 10 ^ 310 := by
    rw [whole_eq]
    decide +kernel
  have scanned := scan_lexeme (.decimal false whole ['0'] numeral isNumeral_zero)
    (String.ofList (whole ++ ['.', '0'])) (by simp [Lexeme.text, signText])
  have text : (Number.decimalOf false (10 ^ 310) 1).text = "inf" := by decide +kernel
  have large : Numeral.overflowBound * 10 ^ 1 ≤ 10 ^ 310 := by decide +kernel
  refine ⟨_, .decimalOf false (10 ^ 310) 1, rfl, ?_, ?_, text, ?_⟩
  · rw [← whole_eq, String.toList_ofList]
    refine ⟨false, whole, ['0'], numeral, isNumeral_zero, rfl, ?_⟩
    rw [digits, List.length_singleton]
    exact large
  · rw [← whole_eq, scanned, Lexeme.kind, digits]
    rfl
  · rw [text, scan_infinity "inf" (.inl rfl)]
    rfl

end ChainScript
