import ChainScript.Proofs.Parsing

/-!
Reading by descent. This parser keeps an index into its tokens, and one call reads a term or a
chain, with calls inside it for what a quote or a group holds. There is no result where it looks at
a token outside of its tokens, where a term would start with a closing parenthesis or with the end,
or where more calls are needed inside each other than allowed.
-/

namespace ChainScript

/-- Where a parser by descent stands: the index of the next token, and how deep it is. -/
structure Descent where
  current : Nat := 0
  depth : Nat := 0
  deriving DecidableEq

namespace Descent

def andThen {α β : Type} (outcome : Option (Except Fault α × Descent))
    (next : α → Descent → Option (Except Fault β × Descent)) : Option (Except Fault β × Descent) :=
  match outcome with
  | none => none
  | some (.error fault, after) => some (.error fault, after)
  | some (.ok found, after) => next found after

variable (tokens : List Token)

def isAtEnd (parser : Descent) : Bool :=
  match tokens[parser.current]? with
  | none => true
  | some token => token.kind == .endOfInput

def peek? (parser : Descent) : Option Token :=
  tokens[min parser.current (tokens.length - 1)]?

def isAt? (kind : TokenKind) (parser : Descent) : Option Bool :=
  if parser.isAtEnd tokens then some false
  else (parser.peek? tokens).map fun token => token.kind == kind

def advance? (parser : Descent) : Option (Token × Descent) :=
  (parser.peek? tokens).map fun token =>
    (token, if parser.isAtEnd tokens then parser
      else { parser with current := parser.current + 1 })

def placeAhead (parser : Descent) : Position :=
  (tokens[parser.current]?.map Token.position).getD default

mutual

/-- Reads one term, with so many calls inside each other at most. -/
def term? : Nat → Descent → Option (Except Fault Expr × Descent)
  | 0, _ => none
  | calls + 1, parser => do
      let (token, parser) ← parser.advance? tokens
      let deeper : Descent := { parser with depth := parser.depth + 1 }
      match token.kind with
      | .string text => return (.ok (.text text), parser)
      | .number n => return (.ok (.number n), parser)
      | .identifier => return (.ok (.identifier token.lexeme token.position), parser)
      | .option name => return (.ok (.option name token.position), parser)
      | .quote =>
          if parser.isAtEnd tokens || (← parser.isAt? tokens .rightParen) then
            return (.error (.malformed .nothingQuoted token.position), parser)
          if nestingLimit < deeper.depth then
            return (.error (.malformed (.tooDeep nestingLimit) token.position), deeper)
          andThen (term? calls deeper) fun body after =>
            some (.ok (.deferred body), { after with depth := after.depth - 1 })
      | .leftParen =>
          if ← parser.isAt? tokens .rightParen then
            return (.error (.malformed .emptyGroup token.position), parser)
          if nestingLimit < deeper.depth then
            return (.error (.malformed (.tooDeep nestingLimit) token.position), deeper)
          andThen (chain? calls [] deeper) fun terms after => do
            let outside : Descent := { after with depth := after.depth - 1 }
            if ← outside.isAt? tokens .rightParen then
              let (_, behind) ← outside.advance? tokens
              return (.ok (.block (.chain terms.reverse)), behind)
            return (.error (.malformed .unclosedGroup token.position), outside)
      | .rightParen | .endOfInput => none

/-- Reads the terms up to a closing parenthesis or the end. Those read so far come nearest first. -/
def chain? : Nat → List Expr → Descent → Option (Except Fault (List Expr) × Descent)
  | 0, _, _ => none
  | calls + 1, terms, parser => do
      if parser.isAtEnd tokens || (← parser.isAt? tokens .rightParen) then
        return (.ok terms, parser)
      andThen (term? calls parser) fun term after => chain? calls (term :: terms) after

end

def parse? (calls : Nat) (parser : Descent) : Option (Except Fault Expr × Descent) :=
  if parser.isAtEnd tokens then
    some (.error (.malformed .noExpression (parser.placeAhead tokens)), parser)
  else
    andThen (chain? tokens calls [] parser) fun terms after =>
      if after.isAtEnd tokens then some (.ok (.chain terms.reverse), after)
      else some (.error (.malformed .strayClose (after.placeAhead tokens)), after)

/-- The answers of a parser that is asked again and again, and where it stands behind them. -/
def answers? (calls : Nat) : Nat → Descent → Option (List (Except Fault Expr) × Descent)
  | 0, parser => some ([], parser)
  | times + 1, parser => do
      let (answer, after) ← parser.parse? tokens calls
      let (later, last) ← answers? calls times after
      return (answer :: later, last)

/-! What it sees is what is left of its tokens. -/

def left (parser : Descent) : List Token :=
  tokens.drop parser.current

variable {tokens} {parser : Descent} {token : Token} {rest : List Token}

theorem length_left : (parser.left tokens).length = tokens.length - parser.current := by
  simp [left]

theorem head?_left : (parser.left tokens).head? = tokens[parser.current]? := by
  simp [left, List.head?_drop]

theorem isAtEnd_eq : parser.isAtEnd tokens = atEnd (parser.left tokens) := by
  rw [isAtEnd, ← head?_left]
  cases parser.left tokens <;> rfl

theorem placeAhead_eq : parser.placeAhead tokens = nextPlace (parser.left tokens) := by
  rw [placeAhead, ← head?_left]
  cases parser.left tokens <;> rfl

theorem lt_length_of_left (next : parser.left tokens = token :: rest) :
    parser.current < tokens.length := by
  have length := @length_left tokens parser
  rw [next, List.length_cons] at length
  omega

theorem peek?_of_left (next : parser.left tokens = token :: rest) :
    parser.peek? tokens = some token := by
  have inside := lt_length_of_left next
  have clamped : min parser.current (tokens.length - 1) = parser.current := by omega
  rw [peek?, clamped, ← head?_left, next]
  rfl

theorem left_of_left (next : parser.left tokens = token :: rest) (depth : Nat) :
    left tokens ⟨parser.current + 1, depth⟩ = rest := by
  have behind : (parser.left tokens).drop 1 = rest := by rw [next]; rfl
  rw [← behind]
  simp [left, List.drop_drop]

theorem isAt?_rightParen :
    parser.isAt? tokens .rightParen = some (atClose (parser.left tokens)) := by
  rw [isAt?, isAtEnd_eq]
  cases next : parser.left tokens with
  | nil => rfl
  | cons token rest =>
      rw [peek?_of_left next]
      by_cases ends : token.kind = .endOfInput
      · simp [atEnd, atClose, ends]
      · simp [atEnd, atClose, ends]

theorem advance?_of_left (next : parser.left tokens = token :: rest)
    (more : token.kind ≠ .endOfInput) :
    parser.advance? tokens = some (token, ⟨parser.current + 1, parser.depth⟩) := by
  rw [advance?, peek?_of_left next, isAtEnd_eq, next]
  simp [atEnd, more]

theorem exists_of_atClose (ahead : List Token) (closes : atClose ahead = true) :
    ∃ token rest, ahead = token :: rest ∧ token.kind = .rightParen := by
  cases ahead with
  | nil => simp [atClose] at closes
  | cons token rest => exact ⟨token, rest, rfl, by simpa [atClose] using closes⟩

/-! One equation for each kind of token, over what is left. -/

variable {calls : Nat} {terms : List Expr}

theorem chain?_succ : parser.chain? tokens (calls + 1) terms =
    if atEnd (parser.left tokens) || atClose (parser.left tokens) then some (.ok terms, parser)
    else andThen (parser.term? tokens calls) fun term after =>
      after.chain? tokens calls (term :: terms) := by
  rw [chain?, isAt?_rightParen, isAtEnd_eq]
  rfl

theorem term?_leaf {e : Expr} (next : parser.left tokens = token :: rest)
    (reads : token.leaf? = some e) :
    parser.term? tokens (calls + 1) = some (.ok e, ⟨parser.current + 1, parser.depth⟩) := by
  rw [term?, advance?_of_left next (Grammar.leaf_open token e reads).2]
  rcases Grammar.leaf_cases token e reads with
    ⟨s, kind, rfl⟩ | ⟨n, kind, rfl⟩ | ⟨kind, rfl⟩ | ⟨name, kind, rfl⟩ <;>
    simp [kind]

theorem term?_quote (next : parser.left tokens = token :: rest) (marks : token.kind = .quote) :
    parser.term? tokens (calls + 1) =
      if atEnd rest || atClose rest then
        some (.error (.malformed .nothingQuoted token.position),
          ⟨parser.current + 1, parser.depth⟩)
      else if nestingLimit < parser.depth + 1 then
        some (.error (.malformed (.tooDeep nestingLimit) token.position),
          ⟨parser.current + 1, parser.depth + 1⟩)
      else andThen (term? tokens calls ⟨parser.current + 1, parser.depth + 1⟩) fun body after =>
        some (.ok (.deferred body), ⟨after.current, after.depth - 1⟩) := by
  rw [term?, advance?_of_left next (by simp [marks])]
  simp only [marks, Option.bind_eq_bind, Option.bind_some, isAt?_rightParen, isAtEnd_eq,
    left_of_left next]
  rfl

theorem term?_group (next : parser.left tokens = token :: rest)
    (opens : token.kind = .leftParen) :
    parser.term? tokens (calls + 1) =
      if atClose rest then
        some (.error (.malformed .emptyGroup token.position), ⟨parser.current + 1, parser.depth⟩)
      else if nestingLimit < parser.depth + 1 then
        some (.error (.malformed (.tooDeep nestingLimit) token.position),
          ⟨parser.current + 1, parser.depth + 1⟩)
      else andThen (chain? tokens calls [] ⟨parser.current + 1, parser.depth + 1⟩)
        fun terms after =>
          if atClose (after.left tokens) then
            some (.ok (.block (.chain terms.reverse)), ⟨after.current + 1, after.depth - 1⟩)
          else
            some (.error (.malformed .unclosedGroup token.position),
              ⟨after.current, after.depth - 1⟩) := by
  rw [term?, advance?_of_left next (by simp [opens])]
  simp only [opens, Option.bind_eq_bind, Option.bind_some, isAt?_rightParen, left_of_left next]
  refine if_congr Iff.rfl rfl (if_congr Iff.rfl rfl (congrArg (andThen _) ?_))
  funext terms after
  have outside : left tokens ⟨after.current, after.depth - 1⟩ = after.left tokens := rfl
  rw [outside]
  by_cases closes : atClose (after.left tokens) = true
  · obtain ⟨close, behind, ahead, kind⟩ := exists_of_atClose _ closes
    have closed : advance? tokens ⟨after.current, after.depth - 1⟩ =
        some (close, ⟨after.current + 1, after.depth - 1⟩) :=
      @advance?_of_left tokens ⟨after.current, after.depth - 1⟩ close behind ahead (by simp [kind])
    rw [if_pos closes, if_pos closes, closed]
    rfl
  · rw [if_neg closes, if_neg closes]
    rfl

end Descent

end ChainScript
