import ChainScript.Expr.Printer
import ChainScript.Proofs.Canonical

/-!
Reading undoes printing. A canonical expression is printed as the text of a layout, whose tokens
are derived by a program with the same tree, apart from the places.
-/

namespace ChainScript

theorem tokensBehind_append (before : List Char) (left right : List Placed) :
    tokensBehind before (left ++ right) =
      tokensBehind before left ++ tokensBehind (before ++ left.flatMap Placed.text) right := by
  induction left generalizing before with
  | nil => simp [tokensBehind]
  | cons first rest ih => simp [tokensBehind, ih]

structure Spells (placed : List Placed) (gap text : List Char) : Prop where
  starts : placed.head?.map Placed.gap = some gap
  text : placed.flatMap Placed.text = gap ++ text
  apart : placed.IsChain Apart

theorem starts_append (left right : List Placed) (gap : List Char)
    (starts : left.head?.map Placed.gap = some gap) :
    (left ++ right).head?.map Placed.gap = some gap := by
  cases left with
  | nil => cases starts
  | cons first rest => exact starts

namespace Spells

theorem single (gap : List Char) (blank : ∀ c ∈ gap, isBlank c = true) (lexeme : Lexeme) :
    Spells [⟨gap, blank, lexeme⟩] gap lexeme.text where
  starts := rfl
  text := by simp [Placed.text]
  apart := .singleton _

/-- A mark never goes on, so anything can follow it at once. -/
theorem behind_mark (placed : List Placed) (text gap : List Char)
    (blank : ∀ c ∈ gap, isBlank c = true) (mark : Lexeme) (noWord : mark.isWord = false)
    (spells : Spells placed [] text) :
    Spells (⟨gap, blank, mark⟩ :: placed) gap (mark.text ++ text) := by
  constructor
  · rfl
  · simp [Placed.text, spells.text]
  · apply List.isChain_cons.mpr
    constructor
    · rintro next _ _ ⟨word, _⟩
      simp [noWord] at word
    · exact spells.apart

theorem append (left right : List Placed) (gap text between more : List Char)
    (spells : Spells left gap text) (others : Spells right between more)
    (nonempty : between ≠ []) : Spells (left ++ right) gap (text ++ (between ++ more)) := by
  constructor
  · exact starts_append left right gap spells.starts
  · simp [spells.text, others.text]
  · apply List.isChain_append.mpr ⟨spells.apart, others.apart, _⟩
    intro last _ next head noGap
    have gaps := others.starts
    rw [Option.mem_def.mp head, Option.map_some, Option.some.injEq] at gaps
    exact absurd (gaps.symm.trans noGap) nonempty

theorem closed (placed : List Placed) (gap text : List Char) (spells : Spells placed gap text) :
    Spells (placed ++ [⟨[], by simp, .rightParen⟩]) gap (text ++ [')']) := by
  constructor
  · exact starts_append placed _ gap spells.starts
  · simp [spells.text, Placed.text, Lexeme.text]
  · apply List.isChain_append.mpr ⟨spells.apart, .singleton _, _⟩
    -- A closing parenthesis is neither a word nor a quote.
    rintro last _ next head _ ⟨_, word | quote⟩
    · cases head
      cases word
    · cases head
      cases quote

end Spells

/-! Terms. -/

/-- Whether an expression is printed as lexemes that are derived as a term of the same shape. -/
def Writable (e : Expr) : Prop :=
  ∀ gap, (∀ c ∈ gap, isBlank c = true) → ∃ placed, Spells placed gap e.print.toList ∧
    ∀ before, ∃ term : Grammar.Term, term.yield = tokensBehind before placed ∧
      term.tree.unplaced = e.unplaced

theorem writable_leaf (e : Expr) (lexeme : Lexeme) (text : lexeme.text = e.print.toList)
    (reads : ∀ place, ∃ leaf, Token.leaf? ⟨lexeme.kind, String.ofList lexeme.text, place⟩ =
      some leaf ∧ leaf.unplaced = e.unplaced) : Writable e := by
  intro gap blank
  refine ⟨[⟨gap, blank, lexeme⟩], text ▸ Spells.single gap blank lexeme, ?_⟩
  intro before
  obtain ⟨leaf, found, same⟩ := reads (placeBehind (before ++ gap))
  exact ⟨.leaf _ leaf found, rfl, same⟩

theorem exists_letter (c : Char) :
    ∃ letter : Letter, letter.text = escaped c ∧ letter.meaning = c := by
  unfold escaped
  split
  · exact ⟨.escaped .doubleQuote, rfl, rfl⟩
  · exact ⟨.escaped .backslash, rfl, rfl⟩
  · exact ⟨.escaped .newline, rfl, rfl⟩
  · exact ⟨.escaped .tab, rfl, rfl⟩
  · exact ⟨.escaped .carriageReturn, rfl, rfl⟩
  · next noQuote noEscape _ _ _ => exact ⟨.plain c ⟨noQuote, noEscape⟩, rfl, rfl⟩

theorem exists_letters (chars : List Char) :
    ∃ letters : List Letter, letters.flatMap Letter.text = chars.flatMap escaped ∧
      letters.map Letter.meaning = chars := by
  induction chars with
  | nil => exact ⟨[], rfl, rfl⟩
  | cons c rest ih =>
      obtain ⟨letter, text, meaning⟩ := exists_letter c
      obtain ⟨letters, texts, meanings⟩ := ih
      exact ⟨letter :: letters, by simp [text, texts], by simp [meaning, meanings]⟩

theorem writable_text (s : String) : Writable (.text s) := by
  obtain ⟨letters, texts, meanings⟩ := exists_letters s.toList
  refine writable_leaf _ (.string letters) ?_ fun place => ⟨.text s, ?_, rfl⟩
  · simp [Lexeme.text, Expr.print, quoted, texts]
  · simp [Token.leaf?, Lexeme.kind, meanings]

theorem toList_repr_int (n : Int) :
    n.repr.toList = signText (decide (n < 0)) ++ Nat.toDigits 10 n.natAbs := by
  cases n with
  | ofNat size => simp [Int.repr, signText]
  | negSucc size =>
      have negative : Int.negSucc size < 0 := Int.negSucc_lt_zero size
      simp [Int.repr, signText, negative, String.toList_append]

theorem signed_natAbs (n : Int) : signed (decide (n < 0)) (Nat.toDigits 10 n.natAbs) = n := by
  rw [signed, Nat.ofDigitChars_ten_toDigits]
  by_cases negative : n < 0
  · rw [if_pos (decide_eq_true negative)]
    omega
  · rw [if_neg (by simpa using negative)]
    omega

theorem lexeme_of_number (n : Number) (finite : n.isFinite = true) :
    ∃ lexeme : Lexeme, lexeme.text = n.text.toList ∧ lexeme.kind = .number n := by
  cases n with
  | int n =>
      have value := signed_natAbs n.toInt
      have within := And.intro n.le_toInt n.toInt_lt
      rw [← value] at within
      refine ⟨.integer _ _ (isNumeral_toDigits n.toInt.natAbs) within,
        (toList_repr_int n.toInt).symm, ?_⟩
      simp [Lexeme.kind, value]
  | decimal x =>
      obtain ⟨negative, whole, fraction, numeral, fractional, text, value⟩ :=
        shown_decimal x finite
      exact ⟨.decimal negative whole fraction numeral fractional, text.symm,
        congrArg TokenKind.number value⟩

theorem writable_number (n : Number) (finite : n.isFinite = true) : Writable (.number n) := by
  obtain ⟨lexeme, text, kind⟩ := lexeme_of_number n finite
  refine writable_leaf _ lexeme text fun place => ⟨.number n, ?_, rfl⟩
  simp [Token.leaf?, kind]

theorem writable_identifier (name : String) (place : Position) (isName : IsName name) :
    Writable (.identifier name place) := by
  refine writable_leaf _ (.identifier name.toList (isIdentifier_of_isName name isName)) rfl
    fun here => ⟨.identifier name here, ?_, rfl⟩
  simp [Token.leaf?, Lexeme.kind, Lexeme.text]

theorem writable_option (name : String) (place : Position) (nonempty : name ≠ "")
    (bare : ∀ c ∈ name.toList, isDelimiter c = false) : Writable (.option name place) := by
  refine writable_leaf _ (.option name.toList ⟨by simpa using nonempty, bare⟩) ?_
    fun here => ⟨.option name here, ?_, rfl⟩
  · simp [Lexeme.text, Expr.print, String.toList_append]
  · simp [Token.leaf?, Lexeme.kind]

theorem writable_deferred (body : Expr) (writable : Writable body) : Writable (.deferred body) := by
  intro gap blank
  obtain ⟨placed, spells, derives⟩ := writable [] (by simp)
  refine ⟨⟨gap, blank, .quote⟩ :: placed, ?_, ?_⟩
  · have behind := spells.behind_mark placed _ gap blank .quote rfl
    simpa [Expr.print, String.toList_append, Lexeme.text] using behind
  · intro before
    obtain ⟨term, yield, same⟩ := derives (before ++ gap ++ ['\''])
    refine ⟨.quoted ⟨.quote, "'", placeBehind (before ++ gap)⟩ rfl term, ?_, ?_⟩
    · simp [Grammar.Term.yield, yield, tokensBehind, Placed.text, Lexeme.text, Lexeme.kind]
    · simp [Grammar.Term.tree, Expr.unplaced, same]

/-! Chains. -/

theorem blank_space : ∀ c ∈ [' '], isBlank c = true := by
  intro c member
  rw [List.mem_singleton.mp member]
  rfl

-- The first term takes the gap that is given, each later one a space.
theorem writable_chain (terms : List Expr) (nonempty : terms ≠ [])
    (writable : ∀ term ∈ terms, Writable term) (gap : List Char)
    (blank : ∀ c ∈ gap, isBlank c = true) :
    ∃ placed, Spells placed gap (separated " " (printAll terms)).toList ∧
      ∀ before, ∃ chain : Grammar.Chain, chain.yield = tokensBehind before placed ∧
        Expr.unplacedAll chain.trees = Expr.unplacedAll terms := by
  induction terms generalizing gap with
  | nil => exact absurd rfl nonempty
  | cons term rest ih =>
      obtain ⟨placed, spells, derives⟩ := writable term List.mem_cons_self gap blank
      cases rest with
      | nil =>
          refine ⟨placed, spells, ?_⟩
          intro before
          obtain ⟨derivation, yield, same⟩ := derives before
          exact ⟨.last derivation, yield, by simp [Grammar.Chain.trees, Expr.unplacedAll, same]⟩
      | cons next others =>
          obtain ⟨more, spelled, derived⟩ := ih (List.cons_ne_nil _ _)
            (fun other member => writable other (List.mem_cons_of_mem term member))
            [' '] blank_space
          refine ⟨placed ++ more, ?_, ?_⟩
          · have both := spells.append placed more gap _ [' '] _ spelled (List.cons_ne_nil _ _)
            simpa [printAll, separated, String.toList_append] using both
          · intro before
            obtain ⟨first, yield, same⟩ := derives before
            obtain ⟨chain, yields, sames⟩ := derived (before ++ placed.flatMap Placed.text)
            refine ⟨.more first chain, ?_, ?_⟩
            · rw [Grammar.Chain.yield, yield, yields, tokensBehind_append]
            · simp [Grammar.Chain.trees, Expr.unplacedAll, same, sames]

theorem writable_block (terms : List Expr) (nonempty : terms ≠ [])
    (writable : ∀ term ∈ terms, Writable term) : Writable (.block (.chain terms)) := by
  intro gap blank
  obtain ⟨placed, spells, derives⟩ := writable_chain terms nonempty writable [] (by simp)
  refine ⟨⟨gap, blank, .leftParen⟩ :: (placed ++ [⟨[], by simp, .rightParen⟩]), ?_, ?_⟩
  · have group := (spells.closed placed _ _).behind_mark _ _ gap blank .leftParen rfl
    simpa [Expr.print, String.toList_append, Lexeme.text] using group
  · intro before
    obtain ⟨chain, yield, same⟩ := derives (before ++ gap ++ ['('])
    refine ⟨.group ⟨.leftParen, "(", placeBehind (before ++ gap)⟩ rfl chain
      ⟨.rightParen, ")", placeBehind (before ++ gap ++ ['('] ++ placed.flatMap Placed.text)⟩ rfl,
      ?_, ?_⟩
    · simp [Grammar.Term.yield, yield, tokensBehind, tokensBehind_append, Placed.text,
        Lexeme.text, Lexeme.kind]
    · simp [Grammar.Term.tree, Expr.unplaced, same]

theorem writable_of_isTerm (e : Expr) (term : IsTerm e) : Writable e := by
  induction term with
  | text s => exact writable_text s
  | int n => exact writable_number (.int n) rfl
  | decimal x finite => exact writable_number (.decimal x) finite
  | identifier name place isName => exact writable_identifier name place isName
  | option name place some bare => exact writable_option name place some bare
  | deferred body term ih => exact writable_deferred body ih
  | block terms some all ih => exact writable_block terms some ih

/-! Programs. -/

namespace Expr

mutual

theorem nesting_unplaced (e : Expr) : e.unplaced.nesting = e.nesting := by
  cases e with
  | deferred body => simp [unplaced, nesting, body.nesting_unplaced]
  | chain terms => exact nestingAll_unplacedAll terms
  | block body => simp [unplaced, nesting, body.nesting_unplaced]
  | text s => rfl
  | number n => rfl
  | identifier name place => rfl
  | option name place => rfl
  | stub value => rfl

theorem nestingAll_unplacedAll (terms : List Expr) :
    nestingAll (unplacedAll terms) = nestingAll terms := by
  cases terms with
  | nil => rfl
  | cons term rest =>
      simp [unplacedAll, nestingAll, term.nesting_unplaced, nestingAll_unplacedAll rest]

end

mutual

theorem print_unplaced (e : Expr) : e.unplaced.print = e.print := by
  cases e with
  | deferred body => simp [unplaced, print, body.print_unplaced]
  | chain terms => simp [unplaced, print, printAll_unplacedAll terms]
  | block body => simp [unplaced, print, body.print_unplaced]
  | text s => rfl
  | number n => rfl
  | identifier name place => rfl
  | option name place => rfl
  | stub value => rfl

theorem printAll_unplacedAll (terms : List Expr) :
    printAll (unplacedAll terms) = printAll terms := by
  cases terms with
  | nil => rfl
  | cons term rest =>
      simp [unplacedAll, printAll, term.print_unplaced, printAll_unplacedAll rest]

end

end Expr

/-- A canonical expression is read back from what is printed, but for the places. -/
theorem parse_of_isCanonical (e : Expr) (canonical : IsCanonical e) :
    ∃ again, parse e.print = .ok again ∧ again.unplaced = e.unplaced := by
  obtain ⟨terms, nonempty, all, shallow⟩ := canonical
  obtain ⟨placed, spells, derives⟩ := writable_chain terms nonempty
    (fun term member => writable_of_isTerm term (all term member)) [] (by simp)
  obtain ⟨chain, yield, same⟩ := derives []
  obtain ⟨layout, written⟩ : ∃ layout : Layout, layout = ⟨placed, spells.apart, [], by simp⟩ :=
    ⟨_, rfl⟩
  have text : layout.text = (Expr.chain terms).print := by
    simp [written, Layout.text, Layout.chars, spells.text, Expr.print]
  have scanned := tokens_of_layout layout
  rw [text] at scanned
  obtain ⟨program, derived⟩ : ∃ program : Grammar.Program, program =
      ⟨chain, ⟨.endOfInput, "", placeBehind layout.chars⟩, rfl⟩ := ⟨_, rfl⟩
  have tokens : program.yield = layout.tokens := by
    simp [derived, Grammar.Program.yield, Layout.tokens, yield, written]
  have depth : program.nesting ≤ nestingLimit := by
    have nested : chain.nesting = Expr.nestingAll terms := by
      rw [← chain.nesting_trees, ← Expr.nestingAll_unplacedAll, same,
        Expr.nestingAll_unplacedAll]
    simpa [derived, Grammar.Program.nesting, nested] using shallow
  refine ⟨program.tree, ?_, ?_⟩
  · rw [parse, scanned, ← tokens]
    exact Parser.parse_of_derived program depth
  · simp [derived, Grammar.Program.tree, Expr.unplaced, same]

/-- Parsing undoes printing: a canonical expression is read back but for its places, and prints
and reads the same from then on. Every expression that is read is canonical, unless a decimal in
it is not finite, and a text that is printed as it stands is read back with its places. -/
theorem parse_print :
    (∀ e, IsCanonical e → ∃ again, parse e.print = .ok again ∧
      again.unplaced = e.unplaced ∧ again.print = e.print ∧ parse again.print = .ok again) ∧
    (∀ source e, parse source = .ok e → e.finite = true → IsCanonical e ∧
      (∃ again, parse e.print = .ok again ∧ again.print = e.print) ∧
      (e.print = source → parse e.print = .ok e)) := by
  have prints : ∀ e, IsCanonical e → ∃ again, parse e.print = .ok again ∧
      again.unplaced = e.unplaced ∧ again.print = e.print ∧ parse again.print = .ok again := by
    intro e canonical
    obtain ⟨again, parsed, same⟩ := parse_of_isCanonical e canonical
    have print : again.print = e.print := by
      rw [← again.print_unplaced, same, e.print_unplaced]
    exact ⟨again, parsed, same, print, print ▸ parsed⟩
  refine ⟨prints, ?_⟩
  intro source e parsed finite
  have canonical := isCanonical_of_parse source e parsed finite
  obtain ⟨again, read, _, print, _⟩ := prints e canonical
  exact ⟨canonical, ⟨again, read, print⟩, fun same => same ▸ parsed⟩

theorem parse_print_sum :
    IsCanonical (.chain [.identifier "+" default, .number (.int (-1)),
      .deferred (.block (.chain [.option "by" default, .text "\""]))]) ∧
    ∃ again, parse "+ -1 '(--by \"\\\"\")" = .ok again ∧
      again.print = "+ -1 '(--by \"\\\"\")" := by
  have plus : IsName "+" := ⟨⟨.endOfInput, "", ⟨1, 1⟩⟩, by cbv⟩
  have group : ∀ term ∈ [Expr.option "by" default, .text "\""], IsTerm term := by
    simp only [List.mem_cons, List.not_mem_nil, or_false, forall_eq_or_imp, forall_eq]
    exact ⟨.option _ _ (by decide) (by simp [isDelimiter, isBlank]), .text _⟩
  have terms : ∀ term ∈ [Expr.identifier "+" default, .number (.int (-1)),
      .deferred (.block (.chain [.option "by" default, .text "\""]))], IsTerm term := by
    simp only [List.mem_cons, List.not_mem_nil, or_false, forall_eq_or_imp, forall_eq]
    exact ⟨.identifier _ _ plus, .int _, .deferred _ (.block _ (by simp) group)⟩
  have canonical := IsCanonical.chain _ (by simp) terms (by decide)
  obtain ⟨again, parsed, _, print, _⟩ := parse_print.1 _ canonical
  exact ⟨canonical, again, parsed, print⟩

end ChainScript
