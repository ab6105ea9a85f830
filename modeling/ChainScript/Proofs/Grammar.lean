import ChainScript.Expr.Parser

/-!
The grammar of programs, as derivations over tokens:

    program = chain end
    chain   = term term ...
    term    = string | number | identifier | option | ' term | ( chain )

A derivation has its tokens at the leaves; read from left to right they are its yield. The main
statement is that no tokens have two derivations.
-/

namespace ChainScript

/-- The expression of a token that is a term by itself. A word brings its own name and place. -/
def Token.leaf? (token : Token) : Option Expr :=
  match token.kind with
  | .string text => some (.text text)
  | .number n => some (.number n)
  | .identifier => some (.identifier token.lexeme token.position)
  | .option name => some (.option name token.position)
  | _ => none

namespace Grammar

mutual

inductive Term where
  | leaf (token : Token) (e : Expr) (reads : token.leaf? = some e)
  | quoted (mark : Token) (marks : mark.kind = .quote) (body : Term)
  | group (opening : Token) (opens : opening.kind = .leftParen) (body : Chain)
      (closing : Token) (closes : closing.kind = .rightParen)

inductive Chain where
  | last (term : Term)
  | more (term : Term) (rest : Chain)

end

structure Program where
  chain : Chain
  last : Token
  ends : last.kind = .endOfInput

mutual

def Term.yield : Term → List Token
  | .leaf token _ _ => [token]
  | .quoted mark _ body => mark :: body.yield
  | .group opening _ body closing _ => opening :: body.yield ++ [closing]
termination_by structural term => term

def Chain.yield : Chain → List Token
  | .last term => term.yield
  | .more term rest => term.yield ++ rest.yield
termination_by structural chain => chain

end

mutual

def Term.tree : Term → Expr
  | .leaf _ e _ => e
  | .quoted _ _ body => .deferred body.tree
  | .group _ _ body _ _ => .block (.chain body.trees)
termination_by structural term => term

def Chain.trees : Chain → List Expr
  | .last term => [term.tree]
  | .more term rest => term.tree :: rest.trees
termination_by structural chain => chain

end

theorem Chain.trees_ne_nil (chain : Chain) : chain.trees ≠ [] := by
  cases chain <;> exact List.cons_ne_nil _ _

mutual

/-- How many quotes and groups stand around the token that lies deepest. -/
def Term.nesting : Term → Nat
  | .leaf _ _ _ => 0
  | .quoted _ _ body => body.nesting + 1
  | .group _ _ body _ _ => body.nesting + 1
termination_by structural term => term

def Chain.nesting : Chain → Nat
  | .last term => term.nesting
  | .more term rest => max term.nesting rest.nesting
termination_by structural chain => chain

end

namespace Program

def yield (program : Program) : List Token := program.chain.yield ++ [program.last]

def tree (program : Program) : Expr := .chain program.chain.trees

def nesting (program : Program) : Nat := program.chain.nesting

end Program

theorem leaf_cases (token : Token) (e : Expr) (reads : token.leaf? = some e) :
    (∃ s, token.kind = .string s ∧ e = .text s) ∨
      (∃ n, token.kind = .number n ∧ e = .number n) ∨
      (token.kind = .identifier ∧ e = .identifier token.lexeme token.position) ∨
      ∃ name, token.kind = .option name ∧ e = .option name token.position := by
  unfold Token.leaf? at reads
  split at reads
  · next s kind => exact .inl ⟨s, kind, (Option.some.inj reads).symm⟩
  · next n kind => exact .inr (.inl ⟨n, kind, (Option.some.inj reads).symm⟩)
  · next kind => exact .inr (.inr (.inl ⟨kind, (Option.some.inj reads).symm⟩))
  · next name kind => exact .inr (.inr (.inr ⟨name, kind, (Option.some.inj reads).symm⟩))
  · cases reads

theorem leaf_open (token : Token) (e : Expr) (reads : token.leaf? = some e) :
    token.kind ≠ .rightParen ∧ token.kind ≠ .endOfInput := by
  rcases leaf_cases token e reads with ⟨s, kind, _⟩ | ⟨n, kind, _⟩ | ⟨kind, _⟩ | ⟨name, kind, _⟩ <;>
    simp [kind]

theorem leaf_not_opening (token : Token) (e : Expr) (reads : token.leaf? = some e) :
    token.kind ≠ .quote ∧ token.kind ≠ .leftParen := by
  rcases leaf_cases token e reads with ⟨s, kind, _⟩ | ⟨n, kind, _⟩ | ⟨kind, _⟩ | ⟨name, kind, _⟩ <;>
    simp [kind]

/-- The token that a term starts with. It tells which rule the term was made by. -/
def Term.head : Term → Token
  | .leaf token _ _ => token
  | .quoted mark _ _ => mark
  | .group opening _ _ _ _ => opening

theorem Term.yield_head (term : Term) : ∃ rest, term.yield = term.head :: rest := by
  cases term with
  | leaf token e reads => exact ⟨[], rfl⟩
  | quoted mark marks body => exact ⟨body.yield, rfl⟩
  | group opening opens body closing closes => exact ⟨body.yield ++ [closing], rfl⟩

theorem Term.head_open (term : Term) :
    term.head.kind ≠ .rightParen ∧ term.head.kind ≠ .endOfInput := by
  cases term with
  | leaf token e reads => exact leaf_open token e reads
  | quoted mark marks body => simp [Term.head, marks]
  | group opening opens body closing closes => simp [Term.head, opens]

theorem Term.head_eq_of_yield (left right : Term) (leftRest rightRest : List Token)
    (same : left.yield ++ leftRest = right.yield ++ rightRest) : left.head = right.head := by
  obtain ⟨leftTail, leftHead⟩ := left.yield_head
  obtain ⟨rightTail, rightHead⟩ := right.yield_head
  rw [leftHead, rightHead] at same
  exact (List.cons.inj same).1

mutual

theorem Term.yield_open (term : Term) (token : Token) (member : token ∈ term.yield) :
    token.kind ≠ .endOfInput := by
  cases term with
  | leaf leaf e reads =>
      obtain rfl := List.mem_singleton.mp member
      exact (leaf_open _ e reads).2
  | quoted mark marks body =>
      rcases List.mem_cons.mp member with rfl | inside
      · simp [marks]
      · exact body.yield_open token inside
  | group opening opens body closing closes =>
      simp only [Term.yield, List.cons_append, List.mem_cons, List.mem_append,
        List.not_mem_nil, or_false] at member
      rcases member with rfl | inside | rfl
      · simp [opens]
      · exact body.yield_open token inside
      · simp [closes]

theorem Chain.yield_open (chain : Chain) (token : Token) (member : token ∈ chain.yield) :
    token.kind ≠ .endOfInput := by
  cases chain with
  | last term => exact term.yield_open token member
  | more term rest =>
      rcases List.mem_append.mp member with first | later
      · exact term.yield_open token first
      · exact rest.yield_open token later

end

theorem Chain.yield_head (chain : Chain) :
    ∃ token rest, chain.yield = token :: rest ∧ token.kind ≠ .rightParen ∧
      token.kind ≠ .endOfInput := by
  cases chain with
  | last term =>
      obtain ⟨tail, head⟩ := term.yield_head
      exact ⟨term.head, tail, head, term.head_open⟩
  | more term rest =>
      obtain ⟨tail, head⟩ := term.yield_head
      exact ⟨term.head, tail ++ rest.yield, by simp [Chain.yield, head], term.head_open⟩

/-- Where a chain can end: in front of a closing parenthesis or of the end. -/
def Closed (rest : List Token) : Prop :=
  ∀ token ∈ rest.head?, token.kind = .rightParen ∨ token.kind = .endOfInput

theorem chain_not_closed (chain : Chain) (rest : List Token) :
    ¬ Closed (chain.yield ++ rest) := by
  obtain ⟨token, tail, head, notClose, notEnd⟩ := chain.yield_head
  intro closed
  rcases closed token (by simp [head]) with close | ending
  · exact notClose close
  · exact notEnd ending

mutual

/-- A term is known from its yield, whatever stands behind it. -/
theorem Term.eq_of_yield (left right : Term) (leftRest rightRest : List Token)
    (same : left.yield ++ leftRest = right.yield ++ rightRest) :
    left = right ∧ leftRest = rightRest := by
  -- Both start with the same token, and that leaves one rule for both.
  have heads := congrArg Token.kind (left.head_eq_of_yield right leftRest rightRest same)
  cases left with
  | leaf token e reads =>
      have kinds := leaf_not_opening token e reads
      cases right with
      | leaf other f others =>
          simp only [Term.yield, List.singleton_append, List.cons.injEq] at same
          obtain ⟨rfl, rests⟩ := same
          obtain rfl := Option.some.inj (reads.symm.trans others)
          exact ⟨rfl, rests⟩
      | quoted mark marks body => exact absurd (heads.trans marks) kinds.1
      | group opening opens body closing closes => exact absurd (heads.trans opens) kinds.2
  | quoted mark marks body =>
      cases right with
      | leaf other f others =>
          exact absurd (heads.symm.trans marks) (leaf_not_opening other f others).1
      | quoted other others rightBody =>
          simp only [Term.yield, List.cons_append, List.cons.injEq] at same
          obtain ⟨rfl, bodies⟩ := same
          obtain ⟨rfl, rests⟩ := body.eq_of_yield rightBody _ _ bodies
          exact ⟨rfl, rests⟩
      | group opening opens rightBody closing closes =>
          have kinds : TokenKind.quote = .leftParen := marks.symm.trans (heads.trans opens)
          exact absurd kinds (by decide)
  | group opening opens body closing closes =>
      cases right with
      | leaf other f others =>
          exact absurd (heads.symm.trans opens) (leaf_not_opening other f others).2
      | quoted mark marks rightBody =>
          have kinds : TokenKind.leftParen = .quote := opens.symm.trans (heads.trans marks)
          exact absurd kinds (by decide)
      | group other others rightBody rightClosing rightCloses =>
          simp only [Term.yield, List.cons_append, List.append_assoc, List.nil_append,
            List.cons.injEq] at same
          obtain ⟨rfl, bodies⟩ := same
          obtain ⟨rfl, closings⟩ := body.eq_of_yield rightBody _ _
            (by simp [Closed, closes]) (by simp [Closed, rightCloses]) bodies
          obtain ⟨rfl, rests⟩ := List.cons.inj closings
          exact ⟨rfl, rests⟩

/-- Chains are as long as they can be, so what stands behind them has to be closed. -/
theorem Chain.eq_of_yield (left right : Chain) (leftRest rightRest : List Token)
    (leftClosed : Closed leftRest) (rightClosed : Closed rightRest)
    (same : left.yield ++ leftRest = right.yield ++ rightRest) :
    left = right ∧ leftRest = rightRest := by
  cases left with
  | last term =>
      cases right with
      | last other =>
          obtain ⟨rfl, rests⟩ := term.eq_of_yield other _ _ same
          exact ⟨rfl, rests⟩
      | more other rest =>
          -- Where the one ends, the other would go on with a term, which is not closed.
          obtain ⟨_, rests⟩ := term.eq_of_yield other leftRest (rest.yield ++ rightRest)
            (by simpa [Chain.yield] using same)
          exact absurd (rests ▸ leftClosed) (chain_not_closed rest rightRest)
  | more term rest =>
      cases right with
      | last other =>
          obtain ⟨_, rests⟩ := term.eq_of_yield other (rest.yield ++ leftRest) rightRest
            (by simpa [Chain.yield] using same)
          exact absurd (rests ▸ rightClosed) (chain_not_closed rest leftRest)
      | more other others =>
          obtain ⟨rfl, rests⟩ := term.eq_of_yield other (rest.yield ++ leftRest)
            (others.yield ++ rightRest) (by simpa [Chain.yield] using same)
          obtain ⟨rfl, ends⟩ := rest.eq_of_yield others _ _ leftClosed rightClosed rests
          exact ⟨rfl, ends⟩

end

theorem Program.eq_of_yield (left right : Program) (same : left.yield = right.yield) :
    left = right := by
  obtain ⟨chain, last, ends⟩ := left
  obtain ⟨other, end', ends'⟩ := right
  obtain ⟨rfl, lasts⟩ := chain.eq_of_yield other _ _
    (by simp [Closed, ends]) (by simp [Closed, ends']) same
  obtain rfl := List.singleton_inj.mp lasts
  rfl

end Grammar

end ChainScript
