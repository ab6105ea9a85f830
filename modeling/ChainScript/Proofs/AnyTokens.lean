import ChainScript.Proofs.Descent

/-!
Any tokens at all: without an end, with an end in the middle, in an order that no text has. The
lookahead of a parser by descent lets it stay inside of them, and what it answers is what the parser
with openings answers, again and again. The end token makes no difference to a first answer.
-/

namespace ChainScript

def Parser.answers : Nat → Parser → List (Except Fault Expr)
  | 0, _ => []
  | times + 1, parser => parser.parse.1 :: answers times parser.parse.2

def quoteWaits : List Opening → Bool
  | .quote :: _ => true
  | _ => false

theorem closeQuotes_of_settled (term : Expr) (openings : List Opening)
    (settled : quoteWaits openings = false) : closeQuotes term openings = (term, openings) := by
  cases openings with
  | nil => rfl
  | cons opening outer =>
      cases opening with
      | quote => simp [quoteWaits] at settled
      | group place before => rfl

theorem quoteWaits_closeQuotes (term : Expr) (openings : List Opening) :
    quoteWaits (closeQuotes term openings).2 = false := by
  induction openings generalizing term with
  | nil => rfl
  | cons opening outer ih =>
      cases opening with
      | quote => exact ih (.deferred term)
      | group place before => rfl

theorem kind_of_leaf?_eq_none (token : Token) (leaf : token.leaf? = none) :
    token.kind = .quote ∨ token.kind = .leftParen ∨ token.kind = .rightParen ∨
      token.kind = .endOfInput := by
  cases kind : token.kind with
  | quote => exact .inl rfl
  | leftParen => exact .inr (.inl rfl)
  | rightParen => exact .inr (.inr (.inl rfl))
  | endOfInput => exact .inr (.inr (.inr rfl))
  | string text => simp [Token.leaf?, kind] at leaf
  | number n => simp [Token.leaf?, kind] at leaf
  | identifier => simp [Token.leaf?, kind] at leaf
  | option name => simp [Token.leaf?, kind] at leaf

/-! The parser with openings, token by token. -/

namespace Parser

variable {base : Nat} {openings : List Opening} {terms : List Expr} {token : Token}
  {rest : List Token}

theorem read_quote (marks : token.kind = .quote) :
    read base openings terms (token :: rest) =
      if atEnd rest || atClose rest then
        (.error (.malformed .nothingQuoted token.position), ⟨rest, base + openings.length⟩)
      else if nestingLimit < base + openings.length + 1 then
        (.error (.malformed (.tooDeep nestingLimit) token.position),
          ⟨rest, base + openings.length + 1⟩)
      else read base (.quote :: openings) terms rest := by
  simp only [read, marks]

theorem read_group (opens : token.kind = .leftParen) :
    read base openings terms (token :: rest) =
      if atClose rest then
        (.error (.malformed .emptyGroup token.position), ⟨rest, base + openings.length⟩)
      else if nestingLimit < base + openings.length + 1 then
        (.error (.malformed (.tooDeep nestingLimit) token.position),
          ⟨rest, base + openings.length + 1⟩)
      else read base (.group token.position terms :: openings) [] rest := by
  simp only [read, opens]

theorem read_closing {place : Position} {found : List Expr} (closes : token.kind = .rightParen) :
    read base (.group place terms :: openings) found (token :: rest) =
      read base (closeQuotes (.block (.chain found.reverse)) openings).2
        ((closeQuotes (.block (.chain found.reverse)) openings).1 :: terms) rest := by
  simp only [read, closes]

theorem read_atEnd (ends : atEnd rest = true) :
    read base openings terms rest = finish base terms rest openings := by
  cases rest with
  | nil => rfl
  | cons token rest =>
      have kind : token.kind = .endOfInput := by simpa [atEnd] using ends
      simp only [read, kind]

end Parser

namespace Descent

variable {tokens : List Token} {parser : Descent} {token : Token} {rest : List Token}
variable {calls : Nat} {terms : List Expr}

/-! What a call gives is what the parser with openings makes of the same tokens. -/

def Malforms (fault : Fault) : Prop := ∃ cause place, fault = .malformed cause place

/-- A term that is read goes to the openings; one that fails ends the reading. -/
def ReadsTerm (tokens : List Token) (parser : Descent) : Except Fault Expr → Descent → Prop
  | .ok e, after => after.depth = parser.depth ∧
      ∀ base openings terms, base + openings.length = parser.depth →
        Parser.read base openings terms (parser.left tokens) =
          Parser.read base (closeQuotes e openings).2 ((closeQuotes e openings).1 :: terms)
            (after.left tokens)
  | .error fault, after => Malforms fault ∧
      ∀ base openings terms, base + openings.length = parser.depth →
        Parser.read base openings terms (parser.left tokens) =
          (.error fault, ⟨after.left tokens, after.depth⟩)

/-- A chain that is read is complete, and its terms are those of the innermost opening. -/
def ReadsChain (tokens : List Token) (parser : Descent) (terms : List Expr) :
    Except Fault (List Expr) → Descent → Prop
  | .ok found, after => after.depth = parser.depth ∧
      (atEnd (after.left tokens) || atClose (after.left tokens)) = true ∧
      ∀ base openings, base + openings.length = parser.depth → quoteWaits openings = false →
        Parser.read base openings terms (parser.left tokens) =
          Parser.read base openings found (after.left tokens)
  | .error fault, after => Malforms fault ∧
      ∀ base openings, base + openings.length = parser.depth → quoteWaits openings = false →
        Parser.read base openings terms (parser.left tokens) =
          (.error fault, ⟨after.left tokens, after.depth⟩)

/-- There is a result, the parser has moved on inside of its tokens, and the result agrees. -/
def TermRead (tokens : List Token) (parser : Descent)
    (outcome : Option (Except Fault Expr × Descent)) : Prop :=
  ∃ result after, outcome = some (result, after) ∧ parser.current < after.current ∧
    after.current ≤ tokens.length ∧ ReadsTerm tokens parser result after

/-- A chain may be empty, and then the parser stays where it is. -/
def ChainRead (tokens : List Token) (parser : Descent) (terms : List Expr)
    (outcome : Option (Except Fault (List Expr) × Descent)) : Prop :=
  ∃ result after, outcome = some (result, after) ∧ parser.current ≤ after.current ∧
    after.current ≤ tokens.length ∧ ReadsChain tokens parser terms result after

/-- With so many calls inside each other every term is read that the lookahead allows. -/
def TermsRead (tokens : List Token) (calls : Nat) : Prop :=
  ∀ (parser : Descent) (token : Token) (rest : List Token), parser.left tokens = token :: rest →
    ¬ (atEnd (token :: rest) || atClose (token :: rest)) = true →
    2 * (rest.length + 1) ≤ calls → TermRead tokens parser (parser.term? tokens calls)

def ChainsRead (tokens : List Token) (calls : Nat) : Prop :=
  ∀ (parser : Descent) (terms : List Expr), parser.current ≤ tokens.length →
    2 * (parser.left tokens).length + 1 ≤ calls →
    ChainRead tokens parser terms (parser.chain? tokens calls terms)

/-- No quote waits for the first term of a chain, so that it is one more of the same chain. -/
theorem ReadsChain.behind {term : Expr} {middle after : Descent} {result : Except Fault (List Expr)}
    (goesOn : ReadsChain tokens middle (term :: terms) result after)
    (reads : ReadsTerm tokens parser (.ok term) middle) :
    ReadsChain tokens parser terms result after := by
  have same : ∀ base openings, base + openings.length = parser.depth →
      quoteWaits openings = false →
      Parser.read base openings terms (parser.left tokens) =
        Parser.read base openings (term :: terms) (middle.left tokens) := by
    intro base openings stands settled
    rw [reads.2 base openings terms stands, closeQuotes_of_settled term openings settled]
  cases result with
  | error fault =>
      refine ⟨goesOn.1, fun base openings stands settled => ?_⟩
      rw [same base openings stands settled]
      exact goesOn.2 base openings (stands.trans reads.1.symm) settled
  | ok found =>
      refine ⟨goesOn.1.trans reads.1, goesOn.2.1, fun base openings stands settled => ?_⟩
      rw [same base openings stands settled]
      exact goesOn.2.2 base openings (stands.trans reads.1.symm) settled

theorem chainsRead_succ (termsRead : TermsRead tokens calls)
    (chainsRead : ChainsRead tokens calls) : ChainsRead tokens (calls + 1) := by
  intro parser terms inside enough
  rw [chain?_succ]
  by_cases done : (atEnd (parser.left tokens) || atClose (parser.left tokens)) = true
  · rw [if_pos done]
    exact ⟨.ok terms, parser, rfl, Nat.le_refl _, inside, rfl, done, fun _ _ _ _ => rfl⟩
  · rw [if_neg done]
    cases next : parser.left tokens with
    | nil => simp [next, atEnd] at done
    | cons token rest =>
        have size : (parser.left tokens).length = rest.length + 1 := by rw [next]; rfl
        obtain ⟨result, middle, found, forward, within, reads⟩ :=
          termsRead parser token rest next (by rwa [next] at done) (by omega)
        rw [found]
        cases result with
        | error fault =>
            exact ⟨.error fault, middle, rfl, Nat.le_of_lt forward, within, reads.1,
              fun base openings stands _ => reads.2 base openings terms stands⟩
        | ok term =>
            have shorter := @length_left tokens middle
            have longer := @length_left tokens parser
            obtain ⟨result, after, found, onward, bounded, goesOn⟩ :=
              chainsRead middle (term :: terms) within (by omega)
            have moves : parser.current ≤ after.current := by omega
            exact ⟨result, after, found, moves, bounded, goesOn.behind reads⟩

theorem termRead_of_fail {cause : Malformed} {depth : Nat}
    (next : parser.left tokens = token :: rest)
    (fails : ∀ base openings terms, base + openings.length = parser.depth →
      Parser.read base openings terms (token :: rest) =
        (.error (.malformed cause token.position), ⟨rest, depth⟩)) :
    TermRead tokens parser
      (some (.error (.malformed cause token.position), ⟨parser.current + 1, depth⟩)) := by
  refine ⟨_, _, rfl, Nat.lt_succ_self _, lt_length_of_left next, ⟨_, _, rfl⟩, ?_⟩
  intro base openings terms stands
  rw [next, left_of_left next]
  exact fails base openings terms stands

/-- A quote or a group fails where the lookahead stops it or where it is too deep, and goes on with
one more opening elsewhere. -/
theorem termRead_opens {stops : Bool} {cause : Malformed} {opening : List Expr → Opening}
    {inner : List Expr → List Expr} {outcome : Option (Except Fault Expr × Descent)}
    (next : parser.left tokens = token :: rest)
    (opens : ∀ base openings terms, Parser.read base openings terms (token :: rest) =
      if stops then
        (.error (.malformed cause token.position), ⟨rest, base + openings.length⟩)
      else if nestingLimit < base + openings.length + 1 then
        (.error (.malformed (.tooDeep nestingLimit) token.position),
          ⟨rest, base + openings.length + 1⟩)
      else Parser.read base (opening terms :: openings) (inner terms) rest)
    (goesOn : stops = false →
      (∀ base openings terms, base + openings.length = parser.depth →
        Parser.read base openings terms (parser.left tokens) =
          Parser.read base (opening terms :: openings) (inner terms)
            (left tokens ⟨parser.current + 1, parser.depth + 1⟩)) →
      TermRead tokens parser outcome) :
    TermRead tokens parser
      (if stops then
        some (.error (.malformed cause token.position), ⟨parser.current + 1, parser.depth⟩)
      else if nestingLimit < parser.depth + 1 then
        some (.error (.malformed (.tooDeep nestingLimit) token.position),
          ⟨parser.current + 1, parser.depth + 1⟩)
      else outcome) := by
  by_cases stop : stops = true
  · rw [if_pos stop]
    apply termRead_of_fail next
    intro base openings terms stands
    rw [opens, if_pos stop, stands]
  · rw [if_neg stop]
    by_cases deep : nestingLimit < parser.depth + 1
    · rw [if_pos deep]
      apply termRead_of_fail next
      intro base openings terms stands
      rw [opens, if_neg stop, stands, if_pos deep]
    · rw [if_neg deep]
      apply goesOn (Bool.eq_false_iff.mpr stop)
      intro base openings terms stands
      rw [next, left_of_left next, opens, if_neg stop, stands, if_neg deep]

theorem termRead_leaf {e : Expr} (next : parser.left tokens = token :: rest)
    (reads : token.leaf? = some e) : TermRead tokens parser (parser.term? tokens (calls + 1)) := by
  rw [term?_leaf next reads]
  refine ⟨_, _, rfl, Nat.lt_succ_self _, lt_length_of_left next, rfl, ?_⟩
  intro base openings terms stands
  rw [next, left_of_left next, Parser.read_leaf base openings terms token rest e reads]

theorem termRead_quote (termsRead : TermsRead tokens calls)
    (next : parser.left tokens = token :: rest) (marks : token.kind = .quote)
    (enough : 2 * rest.length ≤ calls) :
    TermRead tokens parser (parser.term? tokens (calls + 1)) := by
  rw [term?_quote next marks]
  apply termRead_opens next fun base openings terms => Parser.read_quote marks
  intro goesOn deeper
  have ahead := left_of_left next (parser.depth + 1)
  cases rest with
  | nil => simp [atEnd] at goesOn
  | cons first others =>
      obtain ⟨result, after, called, forward, within, reads⟩ :=
        termsRead ⟨parser.current + 1, parser.depth + 1⟩ first others ahead (by simp [goesOn])
          enough
      have moves : parser.current < after.current := Nat.lt_of_succ_lt forward
      have inside : ∀ base (openings : List Opening), base + openings.length = parser.depth →
          base + (Opening.quote :: openings).length = parser.depth + 1 := by
        intro base openings stands
        rw [List.length_cons, ← stands, Nat.add_assoc]
      rw [called]
      cases result with
      | error fault =>
          refine ⟨.error fault, after, rfl, moves, within, reads.1, ?_⟩
          intro base openings terms stands
          rw [deeper base openings terms stands]
          exact reads.2 base (.quote :: openings) terms (inside base openings stands)
      | ok body =>
          have depth : after.depth = parser.depth + 1 := reads.1
          refine ⟨_, _, rfl, moves, within, by simp [depth], ?_⟩
          intro base openings terms stands
          rw [deeper base openings terms stands]
          exact reads.2 base (.quote :: openings) terms (inside base openings stands)

theorem termRead_closing {place : Position} {found : List Expr} {after : Descent}
    (moves : parser.current < after.current) (within : after.current ≤ tokens.length)
    (complete : (atEnd (after.left tokens) || atClose (after.left tokens)) = true)
    (opened : ∀ base openings terms, base + openings.length = parser.depth →
      Parser.read base openings terms (parser.left tokens) =
        Parser.read base (.group place terms :: openings) found (after.left tokens)) :
    TermRead tokens parser
      (if atClose (after.left tokens) then
        some (.ok (.block (.chain found.reverse)), ⟨after.current + 1, parser.depth⟩)
      else some (.error (.malformed .unclosedGroup place), ⟨after.current, parser.depth⟩)) := by
  by_cases closes : atClose (after.left tokens) = true
  · rw [if_pos closes]
    obtain ⟨close, behind, last, kind⟩ := exists_of_atClose _ closes
    have passed : left tokens ⟨after.current + 1, parser.depth⟩ = behind := left_of_left last _
    refine ⟨_, _, rfl, Nat.lt_succ_of_lt moves, lt_length_of_left last, rfl, ?_⟩
    intro base openings terms stands
    rw [opened base openings terms stands, last, passed, Parser.read_closing kind]
  · rw [if_neg closes]
    have ends : atEnd (after.left tokens) = true := by simpa [closes] using complete
    refine ⟨_, _, rfl, moves, within, ⟨_, _, rfl⟩, ?_⟩
    intro base openings terms stands
    rw [opened base openings terms stands, Parser.read_atEnd ends, Parser.finish, stands]
    rfl

theorem termRead_group (chainsRead : ChainsRead tokens calls)
    (next : parser.left tokens = token :: rest) (opens : token.kind = .leftParen)
    (enough : 2 * rest.length + 1 ≤ calls) :
    TermRead tokens parser (parser.term? tokens (calls + 1)) := by
  rw [term?_group next opens]
  apply termRead_opens next fun base openings terms => Parser.read_group opens
  intro goesOn deeper
  have ahead := left_of_left next (parser.depth + 1)
  obtain ⟨result, after, called, forward, within, reads⟩ :=
    chainsRead ⟨parser.current + 1, parser.depth + 1⟩ [] (lt_length_of_left next)
      (by rw [ahead]; exact enough)
  have inside : ∀ base terms (openings : List Opening), base + openings.length = parser.depth →
      base + (Opening.group token.position terms :: openings).length = parser.depth + 1 := by
    intro base terms openings stands
    rw [List.length_cons, ← stands, Nat.add_assoc]
  rw [called]
  cases result with
  | error fault =>
      refine ⟨.error fault, after, rfl, forward, within, reads.1, ?_⟩
      intro base openings terms stands
      rw [deeper base openings terms stands]
      exact reads.2 base (.group token.position terms :: openings)
        (inside base terms openings stands) rfl
  | ok found =>
      have depth : after.depth = parser.depth + 1 := reads.1
      simp only [andThen, depth, Nat.add_sub_cancel]
      apply termRead_closing forward within reads.2.1
      intro base openings terms stands
      rw [deeper base openings terms stands]
      exact reads.2.2 base (.group token.position terms :: openings)
        (inside base terms openings stands) rfl

theorem termsRead_succ (termsRead : TermsRead tokens calls)
    (chainsRead : ChainsRead tokens calls) : TermsRead tokens (calls + 1) := by
  intro parser token rest next goesOn enough
  cases leaf : token.leaf? with
  | some e => exact termRead_leaf next leaf
  | none =>
      rcases kind_of_leaf?_eq_none token leaf with marks | opens | closes | ends
      · exact termRead_quote termsRead next marks (by omega)
      · exact termRead_group chainsRead next opens (by omega)
      · simp [atClose, closes] at goesOn
      · simp [atEnd, ends] at goesOn

theorem allRead (tokens : List Token) (calls : Nat) :
    TermsRead tokens calls ∧ ChainsRead tokens calls := by
  induction calls with
  | zero =>
      constructor
      · intro parser token rest next goesOn enough
        omega
      · intro parser terms inside enough
        omega
  | succ calls ih => exact ⟨termsRead_succ ih.1 ih.2, chainsRead_succ ih.1 ih.2⟩

theorem parse?_eq (parser : Descent) (inside : parser.current ≤ tokens.length)
    (enough : 2 * tokens.length + 1 ≤ calls) :
    ∃ result after, parser.parse? tokens calls = some (result, after) ∧
      parser.current ≤ after.current ∧ after.current ≤ tokens.length ∧
      (∀ fault, result = .error fault → Malforms fault) ∧
      Parser.parse ⟨parser.left tokens, parser.depth⟩ =
        (result, ⟨after.left tokens, after.depth⟩) := by
  rw [parse?, isAtEnd_eq, placeAhead_eq, Parser.parse]
  by_cases ends : atEnd (parser.left tokens) = true
  · rw [if_pos ends, if_pos ends]
    exact ⟨_, _, rfl, Nat.le_refl _, inside, by rintro _ ⟨⟩; exact ⟨_, _, rfl⟩, rfl⟩
  · rw [if_neg ends, if_neg ends]
    have size := @length_left tokens parser
    obtain ⟨result, after, called, forward, within, reads⟩ :=
      (allRead tokens calls).2 parser [] inside (by omega)
    rw [called]
    cases result with
    | error fault =>
        refine ⟨_, _, rfl, forward, within, by rintro _ ⟨⟩; exact reads.1, ?_⟩
        exact reads.2 parser.depth [] rfl rfl
    | ok found =>
        have same := reads.2.2 parser.depth [] rfl rfl
        have depth : after.depth = parser.depth := reads.1
        simp only [andThen, isAtEnd_eq, placeAhead_eq]
        rw [same]
        by_cases done : atEnd (after.left tokens) = true
        · rw [if_pos done]
          refine ⟨_, _, rfl, forward, within, by rintro _ ⟨⟩, ?_⟩
          rw [Parser.read_atEnd done, depth]
          rfl
        · rw [if_neg done]
          have closes : atClose (after.left tokens) = true := by simpa [done] using reads.2.1
          obtain ⟨close, behind, next, kind⟩ := exists_of_atClose _ closes
          refine ⟨_, _, rfl, forward, within, by rintro _ ⟨⟩; exact ⟨_, _, rfl⟩, ?_⟩
          rw [next]
          simp [Parser.read, kind, depth, nextPlace]

theorem answers?_eq (times : Nat) (parser : Descent) (inside : parser.current ≤ tokens.length)
    (enough : 2 * tokens.length + 1 ≤ calls) :
    ∃ after, parser.answers? tokens calls times =
        some (Parser.answers times ⟨parser.left tokens, parser.depth⟩, after) ∧
      after.current ≤ tokens.length ∧
      ∀ fault, .error fault ∈ Parser.answers times ⟨parser.left tokens, parser.depth⟩ →
        Malforms fault := by
  induction times generalizing parser with
  | zero => exact ⟨parser, rfl, inside, fun fault member => absurd member List.not_mem_nil⟩
  | succ times ih =>
      obtain ⟨result, middle, answered, _, within, malforms, same⟩ :=
        parse?_eq parser inside enough
      obtain ⟨after, later, bounded, others⟩ := ih middle within
      refine ⟨after, ?_, bounded, ?_⟩
      · rw [answers?, answered, Parser.answers, same]
        simp [later]
      · intro fault member
        rw [Parser.answers, same] at member
        rcases List.mem_cons.mp member with first | behind
        · exact malforms fault first.symm
        · exact others fault behind

end Descent

/-! The end token says no more than that no token is left. -/

theorem Parser.read_append_end (last : Token) (ends : last.kind = .endOfInput) (base : Nat)
    (openings : List Opening) (terms : List Expr) (front : List Token)
    (ready : quoteWaits openings = true → atEnd front = false) :
    (read base openings terms (front ++ [last])).1 = (read base openings terms front).1 := by
  induction front generalizing openings terms with
  | nil =>
      simp only [List.nil_append, read, ends]
      cases openings with
      | nil => rfl
      | cons opening outer =>
          cases opening with
          | quote => exact absurd (ready rfl) (by simp [atEnd])
          | group place before => rfl
  | cons token rest ih =>
      have sameEnd : atEnd (rest ++ [last]) = atEnd rest := by
        cases rest <;> simp [atEnd, ends]
      have sameClose : atClose (rest ++ [last]) = atClose rest := by
        cases rest <;> simp [atClose, ends]
      have closed : ∀ term openings terms,
          (read base (closeQuotes term openings).2 terms (rest ++ [last])).1 =
            (read base (closeQuotes term openings).2 terms rest).1 := by
        intro term openings terms
        apply ih
        simp [quoteWaits_closeQuotes]
      rw [List.cons_append]
      cases leaf : token.leaf? with
      | some e =>
          rw [read_leaf _ _ _ _ _ e leaf, read_leaf _ _ _ _ _ e leaf]
          exact closed e openings _
      | none =>
          rcases kind_of_leaf?_eq_none token leaf with marks | opens | closes | stops
          · rw [read_quote marks, read_quote marks, sameEnd, sameClose]
            by_cases stops : (atEnd rest || atClose rest) = true
            · rw [if_pos stops, if_pos stops]
            · have more : atEnd rest = false ∧ atClose rest = false := by simpa using stops
              rw [if_neg stops, if_neg stops]
              split
              · rfl
              · exact ih (.quote :: openings) terms fun _ => more.1
          · rw [read_group opens, read_group opens, sameClose]
            split
            · rfl
            · split
              · rfl
              · apply ih (.group token.position terms :: openings) []
                simp [quoteWaits]
          · simp only [read, closes]
            split
            · exact closed _ _ _
            · rfl
          · simp only [read, stops]
            cases openings with
            | nil => rfl
            | cons opening outer => cases opening <;> rfl

theorem Parser.parse_append_end (front : List Token) (last : Token)
    (ends : last.kind = .endOfInput) (nonempty : front ≠ []) :
    (parse ⟨front ++ [last], 0⟩).1 = (parse ⟨front, 0⟩).1 := by
  cases front with
  | nil => exact absurd rfl nonempty
  | cons token rest =>
      by_cases done : token.kind = .endOfInput
      · simp [parse, atEnd, nextPlace, done]
      · have same := read_append_end last ends 0 [] [] (token :: rest) (by simp [quoteWaits])
        simpa [parse, atEnd, done] using same

/-- On any tokens, and however often it is asked, a parser by descent looks at no token outside of
them, ends, never passes their number (its index only grows), comes to no term that would start with
a closing parenthesis or with the end, and answers as the parser with openings does, where each
error is a malformed text. Without the end token the first answer is the same, but for the place of
the error where there is no other token. -/
theorem parse_any_tokens (tokens : List Token) (calls times : Nat)
    (enough : 2 * tokens.length + 1 ≤ calls) :
    (∃ answers after, Descent.answers? tokens calls times {} = some (answers, after) ∧
      after.current ≤ tokens.length ∧ answers = Parser.answers times ⟨tokens, 0⟩ ∧
      ∀ fault, .error fault ∈ answers → ∃ cause place, fault = .malformed cause place) ∧
    ∀ front last, tokens = front ++ [last] → last.kind = .endOfInput →
      (front ≠ [] → (Parser.parse ⟨front, 0⟩).1 = (Parser.parse ⟨tokens, 0⟩).1) ∧
      (front = [] →
        (Parser.parse ⟨tokens, 0⟩).1 = .error (.malformed .noExpression last.position) ∧
        (Parser.parse ⟨front, 0⟩).1 = .error (.malformed .noExpression default)) := by
  constructor
  · obtain ⟨after, answered, within, malforms⟩ :=
      Descent.answers?_eq times {} (Nat.zero_le tokens.length) enough
    exact ⟨_, after, answered, within, rfl, malforms⟩
  · rintro front last rfl ends
    constructor
    · intro nonempty
      exact (Parser.parse_append_end front last ends nonempty).symm
    · rintro rfl
      exact ⟨by simp [Parser.parse, atEnd, nextPlace, ends], rfl⟩

theorem parse_tokens_stray :
    (∃ answers after,
      Descent.answers? [⟨.quote, "'", ⟨0, 1⟩⟩, ⟨.rightParen, ")", ⟨1, 1⟩⟩,
        ⟨.endOfInput, "", ⟨2, 1⟩⟩] 7 2 {} = some (answers, after) ∧ after.current ≤ 3 ∧
      answers = [.error (.malformed .nothingQuoted ⟨0, 1⟩),
        .error (.malformed .strayClose ⟨1, 1⟩)] ∧
      ∀ fault, .error fault ∈ answers → ∃ cause place, fault = .malformed cause place) ∧
    (Parser.parse ⟨[⟨.quote, "'", ⟨0, 1⟩⟩, ⟨.rightParen, ")", ⟨1, 1⟩⟩], 0⟩).1 =
      (Parser.parse ⟨[⟨.quote, "'", ⟨0, 1⟩⟩, ⟨.rightParen, ")", ⟨1, 1⟩⟩,
        ⟨.endOfInput, "", ⟨2, 1⟩⟩], 0⟩).1 := by
  have all := parse_any_tokens [⟨.quote, "'", ⟨0, 1⟩⟩, ⟨.rightParen, ")", ⟨1, 1⟩⟩,
    ⟨.endOfInput, "", ⟨2, 1⟩⟩] 7 2 (by decide)
  exact ⟨all.1, (all.2 [⟨.quote, "'", ⟨0, 1⟩⟩, ⟨.rightParen, ")", ⟨1, 1⟩⟩]
    ⟨.endOfInput, "", ⟨2, 1⟩⟩ rfl rfl).1 (by simp)⟩

end ChainScript
