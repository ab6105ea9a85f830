import ChainScript.Proofs.Canonical

/-!
Places in what is read from a text. The words of an expression lie behind one another in the text,
so no two of them share a place, and none has the place of a term that no text stands behind. The
blanks of a text decide about places and about nothing else.
-/

namespace ChainScript

namespace Expr

mutual

/-- The places of all words in an expression, from left to right. -/
def places : Expr → List Position
  | .identifier _ place => [place]
  | .option _ place => [place]
  | .deferred body => body.places
  | .chain terms => placesAll terms
  | .block body => body.places
  | .text _ | .number _ | .stub _ => []
termination_by structural e => e

def placesAll : List Expr → List Position
  | [] => []
  | term :: rest => term.places ++ placesAll rest
termination_by structural terms => terms

end

end Expr

/-! Tokens lie behind one another. -/

theorem Lexeme.text_ne_nil (lexeme : Lexeme) : lexeme.text ≠ [] := by
  cases lexeme with
  | integer negative digits numeral fits =>
      simp [Lexeme.text, numeral.1]
  | identifier word identifies => exact identifies.bare.1
  | _ => simp [Lexeme.text]

theorem offset_append (before more : List Char) :
    (placeBehind (before ++ more)).offset =
      (placeBehind before).offset + (String.ofList more).utf8ByteSize := by
  simp [placeBehind, String.ofList_append]

theorem offset_lexeme (before : List Char) (lexeme : Lexeme) :
    (placeBehind before).offset < (placeBehind (before ++ lexeme.text)).offset := by
  obtain ⟨c, rest, text⟩ := List.exists_cons_of_ne_nil lexeme.text_ne_nil
  have size : (String.ofList (c :: rest)).utf8ByteSize =
      c.utf8Size + (String.ofList rest).utf8ByteSize := by
    rw [← List.singleton_append, String.ofList_append]
    simp
  have first := c.utf8Size_pos
  rw [offset_append, text, size]
  omega

theorem position_tokensBehind (before : List Char) (placed : List Placed) (token : Token)
    (member : token ∈ tokensBehind before placed) :
    (placeBehind before).offset ≤ token.position.offset ∧ 1 ≤ token.position.line := by
  induction placed generalizing before with
  | nil => cases member
  | cons first rest ih =>
      rcases List.mem_cons.mp member with rfl | later
      · constructor
        · simp only [offset_append]
          omega
        · simp [placeBehind]
      · obtain ⟨behind, line⟩ := ih _ later
        rw [offset_append] at behind
        exact ⟨by omega, line⟩

theorem pairwise_tokensBehind (before : List Char) (placed : List Placed) :
    (tokensBehind before placed).Pairwise fun left right =>
      left.position.offset < right.position.offset := by
  induction placed generalizing before with
  | nil => exact .nil
  | cons first rest ih =>
      apply List.Pairwise.cons _ (ih _)
      intro token later
      have behind := (position_tokensBehind _ _ token later).1
      have here := offset_lexeme (before ++ first.gap) first.lexeme
      rw [List.append_assoc] at here
      exact Nat.lt_of_lt_of_le here behind

/-! Words stand in an expression as their tokens do in the text. -/

namespace Grammar

mutual

theorem Term.places_sublist (term : Term) :
    term.tree.places.Sublist (term.yield.map Token.position) := by
  cases term with
  | leaf token e reads =>
      rcases leaf_cases token e reads with
        ⟨s, _, rfl⟩ | ⟨n, _, rfl⟩ | ⟨_, rfl⟩ | ⟨name, _, rfl⟩
      · exact List.nil_sublist _
      · exact List.nil_sublist _
      · exact .refl _
      · exact .refl _
  | quoted mark marks body =>
      apply List.Sublist.cons
      exact body.places_sublist
  | group opening opens body closing closes =>
      rw [Term.yield, List.map_append, List.map_cons]
      apply List.Sublist.trans (body.places_sublist)
      apply List.Sublist.trans (List.sublist_cons_self opening.position _)
      exact List.sublist_append_left _ _

theorem Chain.places_sublist (chain : Chain) :
    (Expr.placesAll chain.trees).Sublist (chain.yield.map Token.position) := by
  cases chain with
  | last term =>
      rw [Chain.trees, Expr.placesAll, Expr.placesAll, List.append_nil]
      exact term.places_sublist
  | more term rest =>
      rw [Chain.trees, Expr.placesAll, Chain.yield, List.map_append]
      exact term.places_sublist.append rest.places_sublist

end

end Grammar

theorem places_of_parse (source : String) (e : Expr) (parsed : parse source = .ok e) :
    e.places.Pairwise (fun p q => p.offset < q.offset) ∧ ∀ p ∈ e.places, 1 ≤ p.line := by
  obtain ⟨layout, rfl⟩ := layout_of_parse source e parsed
  obtain ⟨chain, yield, _, rfl⟩ := layout.chain_of_parse e parsed
  have inside := chain.places_sublist
  rw [yield] at inside
  have apart : ((tokensBehind [] layout.placed).map Token.position).Pairwise
      fun p q => p.offset < q.offset :=
    List.pairwise_map.mpr (pairwise_tokensBehind [] layout.placed)
  constructor
  · exact apart.sublist inside
  · intro p member
    obtain ⟨token, found, rfl⟩ := List.mem_map.mp (inside.subset member)
    exact (position_tokensBehind [] layout.placed token found).2

/-! Other blanks, other places. -/

def Token.word (token : Token) : TokenKind × String := (token.kind, token.lexeme)

theorem leaf_of_word (token other : Token) (e : Expr) (reads : token.leaf? = some e)
    (same : other.word = token.word) :
    ∃ e', other.leaf? = some e' ∧ e'.unplaced = e.unplaced := by
  obtain ⟨kind, lexeme, position⟩ := token
  obtain ⟨kind', lexeme', position'⟩ := other
  cases same
  cases kind <;> cases reads <;> exact ⟨_, rfl, rfl⟩

namespace Grammar

mutual

/-- Tokens that say the same have the same derivation but for places. -/
theorem Term.relaid (term : Term) (tokens : List Token)
    (same : tokens.map Token.word = term.yield.map Token.word) :
    ∃ other : Term, other.yield = tokens ∧ other.tree.unplaced = term.tree.unplaced ∧
      other.nesting = term.nesting := by
  cases term with
  | leaf token e reads =>
      obtain ⟨other, rest, rfl, word, ended⟩ := List.map_eq_cons_iff.mp same
      obtain rfl := List.map_eq_nil_iff.mp ended
      obtain ⟨e', reads', unplaced⟩ := leaf_of_word token other e reads word
      exact ⟨.leaf other e' reads', rfl, unplaced, rfl⟩
  | quoted mark marks body =>
      obtain ⟨mark', rest, rfl, word, words⟩ := List.map_eq_cons_iff.mp same
      obtain ⟨body', yield, unplaced, nesting⟩ := body.relaid rest words
      have marks' : mark'.kind = .quote := (congrArg Prod.fst word).trans marks
      exact ⟨.quoted mark' marks' body', by simp [Term.yield, yield],
        by simp [Term.tree, Expr.unplaced, unplaced], by simp [Term.nesting, nesting]⟩
  | group opening opens body closing closes =>
      simp only [Term.yield, List.cons_append, List.map_cons, List.map_append] at same
      obtain ⟨opening', behind, rfl, word, words⟩ := List.map_eq_cons_iff.mp same
      obtain ⟨inside, rest, rfl, within, last⟩ := List.map_eq_append_iff.mp words
      obtain ⟨closing', ended, rfl, word', empty⟩ := List.map_eq_cons_iff.mp last
      obtain rfl := List.map_eq_nil_iff.mp empty
      obtain ⟨body', yield, unplaced, nesting⟩ := body.relaid inside within
      have opens' : opening'.kind = .leftParen := (congrArg Prod.fst word).trans opens
      have closes' : closing'.kind = .rightParen := (congrArg Prod.fst word').trans closes
      exact ⟨.group opening' opens' body' closing' closes', by simp [Term.yield, yield],
        by simp [Term.tree, Expr.unplaced, unplaced], by simp [Term.nesting, nesting]⟩

theorem Chain.relaid (chain : Chain) (tokens : List Token)
    (same : tokens.map Token.word = chain.yield.map Token.word) :
    ∃ other : Chain, other.yield = tokens ∧
      Expr.unplacedAll other.trees = Expr.unplacedAll chain.trees ∧
      other.nesting = chain.nesting := by
  cases chain with
  | last term =>
      obtain ⟨other, yield, unplaced, nesting⟩ := term.relaid tokens same
      exact ⟨.last other, yield, by simp [Chain.trees, Expr.unplacedAll, unplaced], nesting⟩
  | more term rest =>
      rw [Chain.yield, List.map_append] at same
      obtain ⟨first, later, rfl, words, words'⟩ := List.map_eq_append_iff.mp same
      obtain ⟨other, yield, unplaced, nesting⟩ := term.relaid first words
      obtain ⟨others, yields, unplaced', nesting'⟩ := rest.relaid later words'
      exact ⟨.more other others, by simp [Chain.yield, yield, yields],
        by simp [Chain.trees, Expr.unplacedAll, unplaced, unplaced'],
        by simp [Chain.nesting, nesting, nesting']⟩

end

end Grammar

theorem words_tokensBehind (before : List Char) (placed : List Placed) :
    (tokensBehind before placed).map Token.word =
      placed.map fun placed => (placed.lexeme.kind, String.ofList placed.lexeme.text) := by
  induction placed generalizing before with
  | nil => rfl
  | cons first rest ih => exact congrArg (_ :: ·) (ih _)

/-- Two texts of the same lexemes are read as the same expression but for places. -/
theorem parse_relaid (layout other : Layout)
    (same : layout.placed.map Placed.lexeme = other.placed.map Placed.lexeme) (e : Expr)
    (parsed : parse layout.text = .ok e) :
    ∃ e', parse other.text = .ok e' ∧ e'.unplaced = e.unplaced := by
  have words : (tokensBehind [] other.placed).map Token.word =
      (tokensBehind [] layout.placed).map Token.word := by
    have texts := congrArg (List.map fun lexeme : Lexeme =>
      (lexeme.kind, String.ofList lexeme.text)) same
    rw [List.map_map, List.map_map] at texts
    rw [words_tokensBehind, words_tokensBehind]
    exact texts.symm
  obtain ⟨chain, yield, shallow, rfl⟩ := layout.chain_of_parse e parsed
  rw [← yield] at words
  obtain ⟨chain', yield', unplaced, nesting⟩ := chain.relaid _ words
  have again := Parser.parse_of_derived ⟨chain', ⟨.endOfInput, "", placeBehind other.chars⟩, rfl⟩
    (by simpa [Grammar.Program.nesting, nesting] using shallow)
  refine ⟨.chain chain'.trees, ?_, congrArg Expr.chain unplaced⟩
  simp only [parse, tokens_of_layout]
  rw [Grammar.Program.yield, yield'] at again
  exact again

end ChainScript
