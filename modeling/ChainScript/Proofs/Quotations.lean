import ChainScript.Proofs.Comparing
import ChainScript.Proofs.Literals
import ChainScript.Proofs.Relayout

/-!
Quotations. Two expressions are the same if they are so but for their places and each word of the
one has the place of its counterpart in the other. A text that is written twice in one script has
no word in the same place twice, so that quoting it twice gives the same value just if it has no
words at all.
-/

namespace ChainScript

namespace Expr

/-! Sameness is sameness but for places, and sameness of places. -/

mutual

theorem places_of_same (e f : Expr) (same : e.same f = true) : e.places = f.places := by
  cases e with
  | identifier a p => cases f <;> simp_all [Expr.same, places]
  | option a p => cases f <;> simp_all [Expr.same, places]
  | deferred d =>
      cases f with
      | deferred e => exact d.places_of_same e same
      | _ => cases same
  | block d =>
      cases f with
      | block e => exact d.places_of_same e same
      | _ => cases same
  | chain terms =>
      cases f with
      | chain others => exact placesAll_of_same terms others same
      | _ => cases same
  | text s => cases f <;> simp_all [Expr.same, places]
  | number n => cases f <;> simp_all [Expr.same, places]
  | stub value => cases f <;> simp_all [Expr.same, places]

theorem placesAll_of_same (terms others : List Expr) (same : sameTerms terms others = true) :
    placesAll terms = placesAll others := by
  cases terms with
  | nil =>
      cases others with
      | nil => rfl
      | cons other rest => cases same
  | cons term rest =>
      cases others with
      | nil => cases same
      | cons other others =>
          obtain ⟨first, later⟩ := Bool.and_eq_true_iff.mp same
          rw [placesAll, placesAll, term.places_of_same other first,
            placesAll_of_same rest others later]

end

theorem length_places_of_same (e f : Expr) (same : e.unplaced.same f.unplaced = true) :
    e.places.length = f.places.length := by
  rw [← e.length_places_unplaced, ← f.length_places_unplaced, places_of_same _ _ same]

mutual

-- Terms with the same expressions but for places have equally many of them, so that equal places
-- of a chain are equal places of each term.
theorem same_iff_unplaced (e f : Expr) :
    e.same f = true ↔ e.unplaced.same f.unplaced = true ∧ e.places = f.places := by
  cases e with
  | text s => cases f <;> simp [Expr.same, unplaced, places]
  | number n => cases f <;> simp [Expr.same, unplaced, places]
  | identifier a p => cases f <;> simp [Expr.same, unplaced, places]
  | option a p => cases f <;> simp [Expr.same, unplaced, places]
  | deferred d => cases f <;> simp [Expr.same, unplaced, places, d.same_iff_unplaced]
  | chain terms => cases f <;> simp [Expr.same, unplaced, places, sameTerms_iff_unplaced terms]
  | block d => cases f <;> simp [Expr.same, unplaced, places, d.same_iff_unplaced]
  | stub value => cases f <;> simp [Expr.same, unplaced, places]
termination_by structural e

theorem sameTerms_iff_unplaced (terms others : List Expr) :
    sameTerms terms others = true ↔ sameTerms (unplacedAll terms) (unplacedAll others) = true ∧
      placesAll terms = placesAll others := by
  cases terms with
  | nil => cases others <;> simp [sameTerms, unplacedAll, placesAll]
  | cons term rest =>
      cases others with
      | nil => simp [sameTerms, unplacedAll]
      | cons other others =>
          simp only [sameTerms, unplacedAll, placesAll, Bool.and_eq_true,
            term.same_iff_unplaced other, sameTerms_iff_unplaced rest others]
          constructor
          · rintro ⟨⟨first, here⟩, later, there⟩
            exact ⟨⟨first, later⟩, by rw [here, there]⟩
          · rintro ⟨⟨first, later⟩, all⟩
            obtain ⟨here, there⟩ := List.append_inj all (length_places_of_same term other first)
            exact ⟨⟨first, here⟩, later, there⟩
termination_by structural terms

end

mutual

/-- An expression that can be written is the same as itself, unless a literal is not finite. -/
theorem same_self (e : Expr) (finite : e.finite = true) (stubless : e.Stubless) :
    e.same e = true := by
  cases e with
  | number n =>
      apply Number.same_self
      cases n <;> exact finite
  | deferred body => exact body.same_self finite stubless
  | block body => exact body.same_self finite stubless
  | chain terms => exact sameTerms_self terms finite stubless
  | stub value => exact absurd stubless id
  | text s => simp [Expr.same]
  | identifier name place => simp [Expr.same]
  | option name place => simp [Expr.same]

theorem sameTerms_self (terms : List Expr) (finite : finiteAll terms = true)
    (stubless : StublessAll terms) : sameTerms terms terms = true := by
  cases terms with
  | nil => rfl
  | cons term rest =>
      obtain ⟨first, later⟩ := Bool.and_eq_true_iff.mp finite
      rw [sameTerms, term.same_self first stubless.1, sameTerms_self rest later stubless.2]
      rfl

end

end Expr

/-! Two terms in one text. -/

theorem isIdentifier_equality : IsIdentifier "==".toList where
  bare := ⟨by decide, by simp [isDelimiter, isBlank]⟩
  unquoted := by decide
  noOption := by decide
  noNumber := by decide

theorem isChain_mark (mark : Placed) (placed : List Placed) (noWord : mark.lexeme.isWord = false)
    (apart : placed.IsChain Apart) : (mark :: placed).IsChain Apart := by
  apply List.isChain_cons.mpr ⟨_, apart⟩
  rintro next _ _ ⟨word, _⟩
  rw [noWord] at word
  cases word

theorem isChain_gap (left : List Placed) (next : Placed) (right : List Placed)
    (gap : next.gap ≠ []) (apart : left.IsChain Apart) (others : (next :: right).IsChain Apart) :
    (left ++ next :: right).IsChain Apart := by
  apply List.isChain_append.mpr ⟨apart, others, _⟩
  rintro last _ first head noGap
  obtain rfl := Option.some.inj head
  exact absurd noGap gap

namespace Layout

variable (left right : Layout)

/-- Two texts with a quote in front of each, behind the word for equality. -/
def compared : Layout where
  placed := ⟨[], by simp, .identifier "==".toList isIdentifier_equality⟩ ::
    ⟨[' '], blank_space, .quote⟩ :: left.placed ++
    ⟨left.last ++ [' '], by simpa [or_imp, forall_and] using ⟨left.lastBlank, by decide⟩,
      .quote⟩ :: right.placed
  apart := by
    apply isChain_gap [_] _ _ (by simp) (.singleton _)
    apply isChain_mark _ _ rfl
    apply isChain_gap left.placed _ right.placed (by simp) left.apart
    exact isChain_mark _ _ rfl right.apart
  last := right.last
  lastBlank := right.lastBlank

theorem text_compared : (left.compared right).text = "== '" ++ left.text ++ " '" ++ right.text := by
  apply String.toList_injective
  simp [text, chars, compared, Placed.text, Lexeme.text]

theorem term_behind (e : Expr) (parsed : parse left.text = .ok (.chain [e])) (before : List Char) :
    ∃ term : Grammar.Term, term.yield = tokensBehind before left.placed ∧
      term.tree.unplaced = e.unplaced ∧ term.nesting = e.nesting := by
  obtain ⟨chain, yield, _, tree⟩ := left.chain_of_parse (.chain [e]) parsed
  have trees : chain.trees = [e] := Expr.chain.inj tree
  cases chain with
  | more term rest => exact absurd (List.cons.inj trees).2 rest.trees_ne_nil
  | last term =>
      have words : (tokensBehind before left.placed).map Token.word =
          term.yield.map Token.word := by
        rw [words_tokensBehind, show term.yield = _ from yield, words_tokensBehind]
      obtain ⟨other, yield, unplaced, nesting⟩ := term.relaid _ words
      obtain rfl : term.tree = e := (List.cons.inj trees).1
      exact ⟨other, yield, unplaced, by rw [nesting, term.nesting_tree]⟩

end Layout

theorem parse_compared (t u : String) (e f : Expr) (parsed : parse t = .ok (.chain [e]))
    (parsed' : parse u = .ok (.chain [f])) (shallow : e.nesting < nestingLimit)
    (shallow' : f.nesting < nestingLimit) :
    ∃ d d', parse ("== '" ++ t ++ " '" ++ u) =
        .ok (.chain [.identifier "==" .start, .deferred d, .deferred d']) ∧
      d.unplaced = e.unplaced ∧ d'.unplaced = f.unplaced := by
  obtain ⟨left, rfl⟩ := layout_of_parse t _ parsed
  obtain ⟨right, rfl⟩ := layout_of_parse u _ parsed'
  let behind := "== '".toList ++ left.chars ++ " '".toList
  obtain ⟨first, yield, unplaced, nesting⟩ := left.term_behind e parsed "== '".toList
  obtain ⟨second, yield', unplaced', nesting'⟩ := right.term_behind f parsed' behind
  let mark : Token := ⟨.quote, "'", placeBehind "== ".toList⟩
  let mark' : Token := ⟨.quote, "'", placeBehind ("== '".toList ++ left.chars ++ [' '])⟩
  let program : Grammar.Program :=
    ⟨.more (.leaf ⟨.identifier, "==", .start⟩ _ rfl)
      (.more (.quoted mark rfl first) (.last (.quoted mark' rfl second))),
      ⟨.endOfInput, "", placeBehind (left.compared right).chars⟩, rfl⟩
  have tokens : program.yield = (left.compared right).tokens := by
    have origin : placeBehind [] = .start := rfl
    simp [program, mark, mark', behind, Grammar.Program.yield, Grammar.Chain.yield,
      Grammar.Term.yield, yield, yield', Layout.tokens, Layout.compared, Layout.chars, tokensBehind,
      tokensBehind_append, Placed.text, Lexeme.text, Lexeme.kind, origin]
  have depth : program.nesting ≤ nestingLimit := by
    simp only [program, Grammar.Program.nesting, Grammar.Chain.nesting, Grammar.Term.nesting,
      nesting, nesting']
    omega
  refine ⟨first.tree, second.tree, ?_, unplaced, unplaced'⟩
  have read := Parser.parse_of_derived program depth
  rw [tokens] at read
  rw [← Layout.text_compared, parse, tokens_of_layout]
  exact read

/-- In one text the words of a later term are in later places, so that only terms without words
have the same places. -/
theorem places_eq_iff (source : String) (word : Expr) (e f : Expr)
    (parsed : parse source = .ok (.chain [word, .deferred e, .deferred f])) :
    e.places = f.places ↔ e.places = [] ∧ f.places = [] := by
  constructor
  · intro same
    have apart := (places_of_parse source _ parsed).1
    simp only [Expr.places, Expr.placesAll, List.append_nil] at apart
    have across := (List.pairwise_append.mp (List.pairwise_append.mp apart).2.1).2.2
    rw [← same] at across ⊢
    cases places : e.places with
    | nil => exact ⟨rfl, rfl⟩
    | cons place rest =>
        rw [places] at across
        exact absurd (across place List.mem_cons_self place List.mem_cons_self) (Nat.lt_irrefl _)
  · rintro ⟨wordless, wordless'⟩
    rw [wordless, wordless']

theorem same_compared (source : String) (word : Expr) (e f d d' : Expr)
    (parsed : parse source = .ok (.chain [word, .deferred d, .deferred d']))
    (unplaced : d.unplaced = e.unplaced) (unplaced' : d'.unplaced = f.unplaced) :
    d.same d' = (e.unplaced.same f.unplaced && decide (e.places = [])) := by
  have length : d.places.length = e.places.length := by
    rw [← d.length_places_unplaced, unplaced, e.length_places_unplaced]
  have length' : d'.places.length = f.places.length := by
    rw [← d'.length_places_unplaced, unplaced', f.length_places_unplaced]
  apply Bool.eq_iff_iff.mpr
  rw [d.same_iff_unplaced, places_eq_iff source word d d' parsed, unplaced, unplaced',
    Bool.and_eq_true, decide_eq_true_iff]
  apply and_congr_right
  intro same
  have equal := Expr.length_places_of_same e f same
  simp only [← List.length_eq_zero_iff, length, length', ← equal, and_self]

theorem evaluate_compared (e f : Expr) (place : Position) :
    Evaluator.evaluate {} (.chain [.identifier "==" place, .deferred e, .deferred f])
      { env := Prelude.environment } = .ok (.bool (e.same f)) { env := Prelude.environment } :=
  Prelude.evaluate_answered place {} { env := Prelude.environment }
    ⟨"==", 2, false, Prelude.equalBody⟩ [e, f] .deferred (.deferred · []) (.ok (.bool (e.same f)))
    (fun _ _ => rfl) rfl rfl rfl

theorem evaluate_quoted_pair (t u : String) (e f : Expr) (parsed : parse t = .ok (.chain [e]))
    (parsed' : parse u = .ok (.chain [f])) (shallow : e.nesting < nestingLimit)
    (shallow' : f.nesting < nestingLimit) :
    Evaluator.evaluateSource {} ("== '" ++ t ++ " '" ++ u) { env := Prelude.environment } =
      .ok (.bool (e.unplaced.same f.unplaced && decide (e.places = [])))
        { env := Prelude.environment } := by
  obtain ⟨d, d', read, unplaced, unplaced'⟩ :=
    parse_compared t u e f parsed parsed' shallow shallow'
  simp only [Evaluator.evaluateSource, read]
  rw [evaluate_compared, same_compared _ _ e f d d' read unplaced unplaced']

/-- A term that is quoted twice in one text is equal to itself just if there is no word in it, and
equal to another term that is quoted behind it just if the two are the same but for places and have
no words. For deferred values are the same just if their bodies are so but for places, and each word
is in the place of its counterpart. -/
theorem quoted_twice (t : String) (e : Expr) (parsed : parse t = .ok (.chain [e]))
    (shallow : e.nesting < nestingLimit) (finite : e.finite = true) :
    Evaluator.evaluateSource {} ("== '" ++ t ++ " '" ++ t) { env := Prelude.environment } =
      .ok (.bool (decide (e.places = []))) { env := Prelude.environment } ∧
    (∀ (u : String) (f : Expr), parse u = .ok (.chain [f]) → f.nesting < nestingLimit →
      Evaluator.evaluateSource {} ("== '" ++ t ++ " '" ++ u) { env := Prelude.environment } =
        .ok (.bool (e.unplaced.same f.unplaced && decide (e.places = [])))
          { env := Prelude.environment }) ∧
    ∀ (f : Expr) (captured captured' : Bindings),
      (Value.deferred e captured).same (.deferred f captured') = true ↔
        e.unplaced.same f.unplaced = true ∧ e.places = f.places := by
  refine ⟨?_, ?_, fun f _ _ => e.same_iff_unplaced f⟩
  · have stubless : e.Stubless := (stubless_of_parse t _ parsed).1
    have itself := ((e.same_iff_unplaced e).mp (e.same_self finite stubless)).1
    rw [evaluate_quoted_pair t t e e parsed parsed shallow shallow, itself, Bool.true_and]
  · intro u f parsed' shallow'
    exact evaluate_quoted_pair t u e f parsed parsed' shallow shallow'

theorem quoted_twice_number :
    parse "(1 \"a\")" = .ok (.chain [.block (.chain [.number (.int 1), .text "a"])]) ∧
    Evaluator.evaluateSource {} ("== '" ++ "(1 \"a\")" ++ " '" ++ "(1 \"a\")")
      { env := Prelude.environment } = .ok (.bool true) { env := Prelude.environment } := by
  have read : parse "(1 \"a\")" =
      .ok (.chain [.block (.chain [.number (.int 1), .text "a"])]) := by
    cbv
  exact ⟨read, (quoted_twice _ _ read (by decide) (by decide)).1⟩

/-- A bare word that is quoted twice is not equal to itself. -/
theorem quoted_word_unequal :
    parse "x" = .ok (.chain [.identifier "x" .start]) ∧
    Evaluator.evaluateSource {} "== 'x 'x" { env := Prelude.environment } =
      .ok (.bool false) { env := Prelude.environment } := by
  have word : parse "x" = .ok (.chain [.identifier "x" .start]) := by cbv
  have read : parse "== 'x 'x" = .ok (.chain [.identifier "==" ⟨0, 1⟩,
      .deferred (.identifier "x" ⟨4, 1⟩), .deferred (.identifier "x" ⟨7, 1⟩)]) := by
    cbv
  refine ⟨word, ?_⟩
  simp only [Evaluator.evaluateSource, read]
  exact evaluate_compared _ _ _

end ChainScript
