import ChainScript.Proofs.Parsing
import ChainScript.Proofs.ReadBack

/-!
Canonical expressions: those that can be written. Every expression that is read from a text is
canonical, unless it has a decimal literal past the largest double.
-/

namespace ChainScript

namespace Expr

mutual

def unplaced : Expr → Expr
  | .text s => .text s
  | .number n => .number n
  | .identifier name _ => .identifier name default
  | .option name _ => .option name default
  | .deferred body => .deferred body.unplaced
  | .chain terms => .chain (unplacedAll terms)
  | .block body => .block body.unplaced
  | .stub value => .stub value
termination_by structural e => e

def unplacedAll : List Expr → List Expr
  | [] => []
  | term :: rest => term.unplaced :: unplacedAll rest
termination_by structural terms => terms

end

mutual

/-- How many quotes and groups stand around each other at most. -/
def nesting : Expr → Nat
  | .deferred body => body.nesting + 1
  | .block body => body.nesting + 1
  | .chain terms => nestingAll terms
  | .text _ | .number _ | .identifier _ _ | .option _ _ | .stub _ => 0
termination_by structural e => e

def nestingAll : List Expr → Nat
  | [] => 0
  | term :: rest => max term.nesting (nestingAll rest)
termination_by structural terms => terms

end

mutual

def finite : Expr → Bool
  | .number (.decimal x) => x.isFinite
  | .deferred body => body.finite
  | .block body => body.finite
  | .chain terms => finiteAll terms
  | .text _ | .number (.int _) | .identifier _ _ | .option _ _ | .stub _ => true
termination_by structural e => e

def finiteAll : List Expr → Bool
  | [] => true
  | term :: rest => term.finite && finiteAll rest
termination_by structural terms => terms

end

end Expr

def IsName (name : String) : Prop :=
  ∃ last, tokens name = .ok [⟨.identifier, name, .start⟩, last]

inductive IsTerm : Expr → Prop where
  | text (s : String) : IsTerm (.text s)
  | int (n : Int64) : IsTerm (.number (.int n))
  | decimal (x : Float) (finite : x.isFinite = true) : IsTerm (.number (.decimal x))
  | identifier (name : String) (place : Position) (isName : IsName name) :
      IsTerm (.identifier name place)
  | option (name : String) (place : Position) (nonempty : name ≠ "")
      (bare : ∀ c ∈ name.toList, isDelimiter c = false) : IsTerm (.option name place)
  | deferred (body : Expr) (term : IsTerm body) : IsTerm (.deferred body)
  | block (terms : List Expr) (nonempty : terms ≠ []) (all : ∀ term ∈ terms, IsTerm term) :
      IsTerm (.block (.chain terms))

inductive IsCanonical : Expr → Prop where
  | chain (terms : List Expr) (nonempty : terms ≠ []) (all : ∀ term ∈ terms, IsTerm term)
      (shallow : Expr.nestingAll terms ≤ nestingLimit) : IsCanonical (.chain terms)

/-! Names. -/

theorem isIdentifier_of_kind (lexeme : Lexeme) (kind : lexeme.kind = .identifier) :
    IsIdentifier lexeme.text := by
  cases lexeme with
  | identifier word identifies => exact identifies
  | leftParen => cases kind
  | rightParen => cases kind
  | quote => cases kind
  | string letters => cases kind
  | option name bare => cases kind
  | integer negative digits numeral fits => cases kind
  | decimal negative whole fraction numeral fractional => cases kind

theorem isBare_of_kind (lexeme : Lexeme) (name : String) (kind : lexeme.kind = .option name) :
    IsBare name.toList := by
  cases lexeme with
  | option word bare =>
      obtain rfl := TokenKind.option.inj kind
      rw [String.toList_ofList]
      exact bare
  | leftParen => cases kind
  | rightParen => cases kind
  | quote => cases kind
  | string letters => cases kind
  | identifier word identifies => cases kind
  | integer negative digits numeral fits => cases kind
  | decimal negative whole fraction numeral fractional => cases kind

theorem isName_of_isIdentifier (name : String) (identifies : IsIdentifier name.toList) :
    IsName name := by
  obtain ⟨layout, written⟩ : ∃ layout : Layout, layout =
      ⟨[⟨[], by simp, .identifier name.toList identifies⟩], .singleton _, [], by simp⟩ := ⟨_, rfl⟩
  have text : layout.text = name := by
    simp [written, Layout.text, Layout.chars, Placed.text, Lexeme.text]
  have scanned := tokens_of_layout layout
  rw [text] at scanned
  refine ⟨⟨.endOfInput, "", placeBehind layout.chars⟩, ?_⟩
  rw [scanned, Layout.tokens, written]
  simp [tokensBehind, Lexeme.kind, Lexeme.text]
  rfl

theorem isIdentifier_of_isName (name : String) (isName : IsName name) :
    IsIdentifier name.toList := by
  obtain ⟨last, scanned⟩ := isName
  obtain ⟨layout, _, found⟩ := layout_of_tokens name _ scanned
  have member : (⟨.identifier, name, .start⟩ : Token) ∈ layout.tokens := by simp [found]
  rcases List.mem_append.mp member with inside | ending
  · obtain ⟨placed, _, kind, lexeme⟩ := mem_tokensBehind _ _ _ inside
    have identifies := isIdentifier_of_kind placed.lexeme kind.symm
    have same : name = String.ofList placed.lexeme.text := lexeme
    rw [same, String.toList_ofList]
    exact identifies
  · cases List.mem_singleton.mp ending

/-! What is read is canonical. -/

def Token.IsWritten (token : Token) : Prop :=
  ∃ lexeme : Lexeme, token.kind = lexeme.kind ∧ token.lexeme = String.ofList lexeme.text

theorem isTerm_of_leaf (token : Token) (e : Expr) (reads : token.leaf? = some e)
    (written : token.IsWritten) (finite : e.finite = true) : IsTerm e := by
  obtain ⟨lexeme, kind, text⟩ := written
  rcases Grammar.leaf_cases token e reads with
    ⟨s, _, rfl⟩ | ⟨n, _, rfl⟩ | ⟨here, rfl⟩ | ⟨name, here, rfl⟩
  · exact .text s
  · cases n with
    | int n => exact .int n
    | decimal x => exact .decimal x finite
  · apply IsTerm.identifier
    apply isName_of_isIdentifier
    rw [text, String.toList_ofList]
    exact isIdentifier_of_kind lexeme (kind.symm.trans here)
  · have bare := isBare_of_kind lexeme name (kind.symm.trans here)
    exact .option name _ (by simpa using bare.1) bare.2

namespace Grammar

mutual

theorem Term.isTerm_tree (term : Term) (written : ∀ token ∈ term.yield, token.IsWritten)
    (finite : term.tree.finite = true) : IsTerm term.tree := by
  cases term with
  | leaf token e reads =>
      exact isTerm_of_leaf token e reads (written token List.mem_cons_self) finite
  | quoted mark marks body =>
      exact .deferred _ (body.isTerm_tree
        (fun token member => written token (List.mem_cons_of_mem mark member)) finite)
  | group opening opens body closing closes =>
      exact .block _ body.trees_ne_nil (body.isTerm_trees
        (fun token member => written token (by simp [Term.yield, member])) finite)

theorem Chain.isTerm_trees (chain : Chain) (written : ∀ token ∈ chain.yield, token.IsWritten)
    (finite : Expr.finiteAll chain.trees = true) : ∀ e ∈ chain.trees, IsTerm e := by
  cases chain with
  | last term =>
      intro e member
      obtain rfl := List.mem_singleton.mp member
      exact term.isTerm_tree written (by simpa [Chain.trees, Expr.finiteAll] using finite)
  | more term rest =>
      simp only [Chain.trees, Expr.finiteAll, Bool.and_eq_true] at finite
      intro e member
      rcases List.mem_cons.mp member with rfl | later
      · exact term.isTerm_tree
          (fun token inside => written token (by simp [Chain.yield, inside])) finite.1
      · exact rest.isTerm_trees
          (fun token inside => written token (by simp [Chain.yield, inside])) finite.2 e later

end

theorem nesting_leaf (token : Token) (e : Expr) (reads : token.leaf? = some e) :
    e.nesting = 0 := by
  rcases leaf_cases token e reads with ⟨s, _, rfl⟩ | ⟨n, _, rfl⟩ | ⟨_, rfl⟩ | ⟨name, _, rfl⟩ <;> rfl

mutual

theorem Term.nesting_tree (term : Term) : term.tree.nesting = term.nesting := by
  cases term with
  | leaf token e reads => exact nesting_leaf token e reads
  | quoted mark marks body => exact congrArg (· + 1) body.nesting_tree
  | group opening opens body closing closes => exact congrArg (· + 1) body.nesting_trees

theorem Chain.nesting_trees (chain : Chain) : Expr.nestingAll chain.trees = chain.nesting := by
  cases chain with
  | last term => simp [Chain.trees, Chain.nesting, Expr.nestingAll, term.nesting_tree]
  | more term rest =>
      simp [Chain.trees, Chain.nesting, Expr.nestingAll, term.nesting_tree, rest.nesting_trees]

end

end Grammar

theorem isCanonical_of_parse (source : String) (e : Expr) (parsed : parse source = .ok e)
    (finite : e.finite = true) : IsCanonical e := by
  obtain ⟨layout, rfl⟩ := layout_of_parse source e parsed
  obtain ⟨chain, yield, shallow, rfl⟩ := layout.chain_of_parse e parsed
  have written : ∀ token ∈ chain.yield, token.IsWritten := by
    intro token member
    rw [yield] at member
    obtain ⟨placed, _, kind, text⟩ := mem_tokensBehind _ _ _ member
    exact ⟨placed.lexeme, kind, text⟩
  have terms := chain.isTerm_trees written finite
  have depth : Expr.nestingAll chain.trees ≤ nestingLimit := by
    rw [chain.nesting_trees]
    exact shallow
  exact .chain _ chain.trees_ne_nil terms depth

end ChainScript
