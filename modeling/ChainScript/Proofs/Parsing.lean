import ChainScript.Proofs.Grammar
import ChainScript.Proofs.TextLayout

/-!
The parser accepts exactly the programs of the grammar. Its successful runs are a machine without
lookahead and without errors (`Reads`); a derivation says how to drive the machine, and the
machine's openings hold what is known of a derivation so far.
-/

namespace ChainScript

/-- A successful run from these openings and terms over the tokens that are left. -/
inductive Reads (base : Nat) : List Opening → List Expr → List Token → Expr → Prop where
  | finish (terms : List Expr) (rest : List Token) (nonempty : terms ≠ []) (ends : atEnd rest) :
      Reads base [] terms rest (.chain terms.reverse)
  | leaf {openings terms token rest e program} (reads : Token.leaf? token = some e)
      (next : Reads base (closeQuotes e openings).2 ((closeQuotes e openings).1 :: terms) rest
        program) :
      Reads base openings terms (token :: rest) program
  | quote {openings terms rest program} {mark : Token} (marks : mark.kind = .quote)
      (fits : base + openings.length + 1 ≤ nestingLimit)
      (next : Reads base (.quote :: openings) terms rest program) :
      Reads base openings terms (mark :: rest) program
  | opening {openings terms rest program} {token : Token} (opens : token.kind = .leftParen)
      (fits : base + openings.length + 1 ≤ nestingLimit)
      (next : Reads base (.group token.position terms :: openings) [] rest program) :
      Reads base openings terms (token :: rest) program
  | closing {place before outer terms rest program} {token : Token}
      (closes : token.kind = .rightParen) (nonempty : terms ≠ [])
      (next : Reads base (closeQuotes (.block (.chain terms.reverse)) outer).2
        ((closeQuotes (.block (.chain terms.reverse)) outer).1 :: before) rest program) :
      Reads base (.group place before :: outer) terms (token :: rest) program

/-- What the lookahead has made sure of where no term of a chain has been read yet. -/
def Ready : List Opening → List Expr → List Token → Prop
  | [], [], tokens => atEnd tokens = false
  | .group _ _ :: _, [], tokens => atClose tokens = false
  | _, _, _ => True

theorem ready_of_term (openings : List Opening) (term : Expr) (terms : List Expr)
    (tokens : List Token) : Ready openings (term :: terms) tokens := by
  cases openings with
  | nil => trivial
  | cons opening outer => cases opening <;> trivial

namespace Parser

theorem finish_outcome (base : Nat) (openings : List Opening) (terms : List Expr)
    (rest : List Token) :
    (openings = [] ∧ (finish base terms rest openings).1 = .ok (.chain terms.reverse)) ∨
      ∃ cause place, (finish base terms rest openings).1 = .error (.malformed cause place) := by
  cases openings with
  | nil => exact .inl ⟨rfl, rfl⟩
  | cons opening outer => cases opening <;> exact .inr ⟨_, _, rfl⟩

theorem read_leaf (base : Nat) (openings : List Opening) (terms : List Expr) (token : Token)
    (rest : List Token) (e : Expr) (reads : token.leaf? = some e) :
    read base openings terms (token :: rest) =
      read base (closeQuotes e openings).2 ((closeQuotes e openings).1 :: terms) rest := by
  rcases Grammar.leaf_cases token e reads with
    ⟨s, kind, rfl⟩ | ⟨n, kind, rfl⟩ | ⟨kind, rfl⟩ | ⟨name, kind, rfl⟩ <;> simp only [read, kind]

/-- Whether a result is that of a run of the machine, or a malformed text. -/
def Settled (base : Nat) (openings : List Opening) (terms : List Expr) (tokens : List Token)
    (result : Except Fault Expr) : Prop :=
  (∃ program, result = .ok program ∧ Reads base openings terms tokens program) ∨
    ∃ cause place, result = .error (.malformed cause place)

theorem Settled.step {base : Nat} {openings openings' : List Opening} {terms terms' : List Expr}
    {tokens rest : List Token} {result : Except Fault Expr}
    (settled : Settled base openings' terms' rest result)
    (step : ∀ program, Reads base openings' terms' rest program →
      Reads base openings terms tokens program) : Settled base openings terms tokens result := by
  rcases settled with ⟨program, ok, run⟩ | failed
  · exact .inl ⟨program, ok, step program run⟩
  · exact .inr failed

theorem settled_finish (base : Nat) (openings : List Opening) (terms : List Expr)
    (rest : List Token) (ready : Ready openings terms rest) (ends : atEnd rest) :
    Settled base openings terms rest (finish base terms rest openings).1 := by
  rcases finish_outcome base openings terms rest with ⟨rfl, ok⟩ | failed
  · cases terms with
    | nil => exact absurd ready (by simp [Ready, ends])
    | cons term terms => exact .inl ⟨_, ok, .finish _ _ (List.cons_ne_nil _ _) ends⟩
  · exact .inr failed

-- Every step either fails with a malformed text or is a step of the machine.
theorem read_outcome (base : Nat) (openings : List Opening) (terms : List Expr)
    (tokens : List Token) (ready : Ready openings terms tokens) :
    Settled base openings terms tokens (read base openings terms tokens).1 := by
  induction tokens generalizing openings terms with
  | nil => exact settled_finish base openings terms [] ready rfl
  | cons token rest ih =>
      cases leaf : token.leaf? with
      | some e =>
          rw [read_leaf base openings terms token rest e leaf]
          exact (ih _ _ (ready_of_term _ _ _ _)).step fun program run => .leaf leaf run
      | none =>
          cases kind : token.kind with
          | string text => simp [Token.leaf?, kind] at leaf
          | number n => simp [Token.leaf?, kind] at leaf
          | identifier => simp [Token.leaf?, kind] at leaf
          | option name => simp [Token.leaf?, kind] at leaf
          | endOfInput =>
              simp only [read, kind]
              exact settled_finish base openings terms _ ready (by simp [atEnd, kind])
          | quote =>
              simp only [read, kind]
              split
              · exact .inr ⟨_, _, rfl⟩
              · split
                · exact .inr ⟨_, _, rfl⟩
                · apply (ih (.quote :: openings) terms (by simp [Ready])).step
                  intro program run
                  exact .quote kind (by omega) run
          | leftParen =>
              simp only [read, kind]
              split
              · exact .inr ⟨_, _, rfl⟩
              · next opened =>
                  split
                  · exact .inr ⟨_, _, rfl⟩
                  · apply (ih (.group token.position terms :: openings) []
                      (by simpa [Ready] using opened)).step
                    intro program run
                    exact .opening kind (by omega) run
          | rightParen =>
              simp only [read, kind]
              split
              · cases terms with
                | nil => exact absurd ready (by simp [Ready, atClose, kind])
                | cons term terms =>
                    apply (ih _ _ (ready_of_term _ _ _ _)).step
                    intro program run
                    exact .closing kind (List.cons_ne_nil _ _) run
              · exact .inr ⟨_, _, rfl⟩

theorem leaf_goes_on (token : Token) (rest : List Token) (e : Expr)
    (reads : token.leaf? = some e) :
    atEnd (token :: rest) = false ∧ atClose (token :: rest) = false := by
  have kinds := Grammar.leaf_open token e reads
  simp [atEnd, atClose, kinds]

theorem goes_on_behind_quote (base : Nat) (openings : List Opening) (terms : List Expr)
    (tokens : List Token) (program : Expr)
    (run : Reads base (.quote :: openings) terms tokens program) :
    atEnd tokens = false ∧ atClose tokens = false := by
  cases run with
  | leaf reads next => exact leaf_goes_on _ _ _ reads
  | quote marks fits next => simp [atEnd, atClose, marks]
  | opening opens fits next => simp [atEnd, atClose, opens]

theorem goes_on_in_group (base : Nat) (place : Position) (before : List Expr)
    (outer : List Opening) (tokens : List Token) (program : Expr)
    (run : Reads base (.group place before :: outer) [] tokens program) :
    atClose tokens = false := by
  cases run with
  | leaf reads next => exact (leaf_goes_on _ _ _ reads).2
  | quote marks fits next => simp [atClose, marks]
  | opening opens fits next => simp [atClose, opens]
  | closing closes nonempty next => exact absurd rfl nonempty

theorem read_of_reads (base : Nat) (openings : List Opening) (terms : List Expr)
    (tokens : List Token) (program : Expr) (run : Reads base openings terms tokens program) :
    (read base openings terms tokens).1 = .ok program := by
  induction run with
  | finish terms rest nonempty ends =>
      cases rest with
      | nil => rfl
      | cons token rest =>
          have kind : token.kind = .endOfInput := by simpa [atEnd] using ends
          simp [read, kind, finish]
  | leaf reads next ih =>
      rw [read_leaf _ _ _ _ _ _ reads]
      exact ih
  | quote marks fits next ih =>
      have goesOn := goes_on_behind_quote _ _ _ _ _ next
      simp only [read, marks, goesOn, Bool.or_false, Bool.false_eq_true, if_false,
        if_neg (Nat.not_lt.mpr fits)]
      exact ih
  | opening opens fits next ih =>
      have goesOn := goes_on_in_group _ _ _ _ _ _ next
      simp only [read, opens, goesOn, Bool.false_eq_true, if_false,
        if_neg (Nat.not_lt.mpr fits)]
      exact ih
  | closing closes nonempty next ih =>
      simp only [read, closes]
      exact ih

end Parser

/-! A derivation drives the machine over its yield. -/

namespace Grammar

variable {base : Nat} {program : Expr}

mutual

theorem Term.reads (term : Term) (openings : List Opening) (terms : List Expr)
    (rest : List Token) (fits : base + openings.length + term.nesting ≤ nestingLimit)
    (next : Reads base (closeQuotes term.tree openings).2
      ((closeQuotes term.tree openings).1 :: terms) rest program) :
    Reads base openings terms (term.yield ++ rest) program := by
  cases term with
  | leaf token e reads => exact .leaf reads next
  | quoted mark marks body =>
      simp only [Term.nesting] at fits
      exact .quote marks (by omega)
        (body.reads (.quote :: openings) terms rest (by simp only [List.length_cons]; omega) next)
  | group opening opens body closing closes =>
      simp only [Term.nesting] at fits
      -- The group is one level deeper, and its terms start anew.
      have closed : Reads base (.group opening.position terms :: openings)
          (body.trees.reverse ++ []) (closing :: rest) program := by
        apply Reads.closing closes
        · simpa using body.trees_ne_nil
        · simpa [Term.tree] using next
      have inner := body.reads (.group opening.position terms :: openings) []
        (closing :: rest) (fun _ => rfl) (by simp only [List.length_cons]; omega) closed
      simpa [Term.yield] using Reads.opening opens (by omega) inner

/-- Inside a chain no quote waits for a term, so that openings stay as they are. -/
theorem Chain.reads (chain : Chain) (openings : List Opening) (terms : List Expr)
    (rest : List Token) (settled : ∀ term, closeQuotes term openings = (term, openings))
    (fits : base + openings.length + chain.nesting ≤ nestingLimit)
    (next : Reads base openings (chain.trees.reverse ++ terms) rest program) :
    Reads base openings terms (chain.yield ++ rest) program := by
  cases chain with
  | last term => exact term.reads openings terms rest fits (by rw [settled]; exact next)
  | more term others =>
      simp only [Chain.nesting] at fits
      have behind := others.reads openings (term.tree :: terms) rest settled (by omega)
        (by simpa [Chain.trees] using next)
      have inner := term.reads openings terms (others.yield ++ rest) (by omega)
        (by rw [settled]; exact behind)
      simpa [Chain.yield] using inner

end

-- Back from a run to a derivation: what has been read so far is kept as derivations.

/-- An opening of the machine, with its token and the terms in front of it, nearest first. -/
inductive Pending where
  | quote (mark : Token) (marks : mark.kind = .quote)
  | group (token : Token) (opens : token.kind = .leftParen) (before : List Term)

def Pending.opening : Pending → Opening
  | .quote _ _ => .quote
  | .group token _ before => .group token.position (before.map Term.tree)

def yields (terms : List Term) : List Token := terms.reverse.flatMap Term.yield

def consumed : List Pending → List Term → List Token
  | [], terms => yields terms
  | .quote mark _ :: outer, terms => consumed outer terms ++ [mark]
  | .group token _ before :: outer, terms => consumed outer before ++ token :: yields terms

def Fits (base : Nat) : List Pending → List Term → Prop
  | [], terms => ∀ term ∈ terms, base + term.nesting ≤ nestingLimit
  | .quote _ _ :: outer, terms => Fits base outer terms
  | .group _ _ before :: outer, terms =>
      Fits base outer before ∧
        ∀ term ∈ terms, base + (outer.length + 1) + term.nesting ≤ nestingLimit

def settle (term : Term) : List Pending → Term × List Pending
  | .quote mark marks :: outer => settle (.quoted mark marks term) outer
  | pending => (term, pending)

theorem yields_cons (term : Term) (terms : List Term) :
    yields (term :: terms) = yields terms ++ term.yield := by
  simp [yields]

theorem closeQuotes_settle (term : Term) (pending : List Pending) :
    closeQuotes term.tree (pending.map Pending.opening) =
      ((settle term pending).1.tree, (settle term pending).2.map Pending.opening) := by
  induction pending generalizing term with
  | nil => rfl
  | cons first outer ih =>
      cases first with
      | quote mark marks => exact ih (.quoted mark marks term)
      | group token opens before => rfl

theorem consumed_settle (term : Term) (pending : List Pending) (terms : List Term) :
    consumed (settle term pending).2 ((settle term pending).1 :: terms) =
      consumed pending terms ++ term.yield := by
  induction pending generalizing term with
  | nil => exact yields_cons term terms
  | cons first outer ih =>
      cases first with
      | quote mark marks =>
          simp only [settle, consumed, ih]
          simp [Term.yield]
      | group token opens before => simp [settle, consumed, yields_cons]

theorem length_settle_le (term : Term) (pending : List Pending) :
    (settle term pending).2.length ≤ pending.length := by
  induction pending generalizing term with
  | nil => exact Nat.le_refl _
  | cons first outer ih =>
      cases first with
      | quote mark marks => exact Nat.le_succ_of_le (ih _)
      | group token opens before => exact Nat.le_refl _

theorem fits_settle (term : Term) (pending : List Pending) (terms : List Term)
    (fits : Fits base pending terms)
    (deepest : base + pending.length + term.nesting ≤ nestingLimit) :
    Fits base (settle term pending).2 ((settle term pending).1 :: terms) := by
  induction pending generalizing term with
  | nil =>
      intro other member
      rcases List.mem_cons.mp member with rfl | old
      · exact deepest
      · exact fits other old
  | cons first outer ih =>
      simp only [List.length_cons] at deepest
      cases first with
      | quote mark marks =>
          exact ih (.quoted mark marks term) fits (by simp only [Term.nesting]; omega)
      | group token opens before =>
          constructor
          · exact fits.1
          · intro other member
            rcases List.mem_cons.mp member with rfl | old
            · exact deepest
            · exact fits.2 other old

theorem Chain.exists_of_terms (terms : List Term) (nonempty : terms ≠ []) :
    ∃ chain : Chain, chain.yield = terms.flatMap Term.yield ∧
      chain.trees = terms.map Term.tree ∧
      ∀ bound, (∀ term ∈ terms, term.nesting ≤ bound) → chain.nesting ≤ bound := by
  induction terms with
  | nil => exact absurd rfl nonempty
  | cons term rest ih =>
      cases rest with
      | nil => exact ⟨.last term, by simp [Chain.yield], rfl, fun bound all => all term (by simp)⟩
      | cons next others =>
          obtain ⟨chain, yields, trees, nests⟩ := ih (List.cons_ne_nil _ _)
          refine ⟨.more term chain, by simp [Chain.yield, yields], by simp [Chain.trees, trees], ?_⟩
          intro bound all
          exact Nat.max_le.mpr ⟨all term (by simp),
            nests bound fun other member => all other (List.mem_cons_of_mem term member)⟩

theorem Chain.exists_of_read (done : List Term) (nonempty : done ≠ []) :
    ∃ chain : Chain, chain.yield = yields done ∧
      chain.trees = (done.map Term.tree).reverse ∧
      ∀ bound, (∀ term ∈ done, term.nesting ≤ bound) → chain.nesting ≤ bound := by
  obtain ⟨chain, yield, trees, nests⟩ :=
    Chain.exists_of_terms done.reverse (by simpa using nonempty)
  refine ⟨chain, yield, by rw [trees, List.map_reverse], fun bound all => nests bound ?_⟩
  intro term member
  exact all term (List.mem_reverse.mp member)

/-- Whether tokens start with the derivation of a program, up to the end token if there is one. -/
def Derives (base : Nat) (program : Expr) (tokens : List Token) : Prop :=
  ∃ chain rest, tokens = Chain.yield chain ++ rest ∧ atEnd rest ∧
    base + chain.nesting ≤ nestingLimit ∧ program = .chain chain.trees

theorem derives_settled (term : Term) (pending : List Pending) (done : List Term)
    (rest : List Token) (fits : Fits base pending done)
    (deepest : base + pending.length + term.nesting ≤ nestingLimit)
    (next : ∀ outer read,
      (closeQuotes term.tree (pending.map Pending.opening)).2 = outer.map Pending.opening →
      (closeQuotes term.tree (pending.map Pending.opening)).1 :: done.map Term.tree =
        read.map Term.tree →
      base + outer.length ≤ nestingLimit → Fits base outer read →
      Derives base program (consumed outer read ++ rest)) :
    Derives base program (consumed pending done ++ (term.yield ++ rest)) := by
  have closed := closeQuotes_settle term pending
  have shorter := length_settle_le term pending
  have derived := next (settle term pending).2 ((settle term pending).1 :: done)
    (congrArg Prod.snd closed) (congrArg (· :: done.map Term.tree) (congrArg Prod.fst closed))
    (by omega) (fits_settle _ _ _ fits deepest)
  rw [consumed_settle, List.append_assoc] at derived
  exact derived

-- Read tokens and those left are always the same tokens; at the end none are left.
theorem derives_of_reads (openings : List Opening) (terms : List Expr) (tokens : List Token)
    (run : Reads base openings terms tokens program) (pending : List Pending) (done : List Term)
    (opened : openings = pending.map Pending.opening) (read : terms = done.map Term.tree)
    (within : base + pending.length ≤ nestingLimit) (fits : Fits base pending done) :
    Derives base program (consumed pending done ++ tokens) := by
  induction run generalizing pending done with
  | finish terms rest nonempty ends =>
      subst read
      obtain rfl := List.map_eq_nil_iff.mp opened.symm
      obtain ⟨chain, yield, trees, nests⟩ := Chain.exists_of_read done (by simpa using nonempty)
      have shallow := nests (nestingLimit - base) fun term member => by
        have bound := fits term member
        omega
      exact ⟨chain, rest, by rw [yield]; rfl, ends, by omega, by rw [trees]⟩
  | @leaf openings terms token rest e program reads next ih =>
      subst opened read
      exact derives_settled (.leaf token e reads) pending done rest fits within ih
  | @quote openings terms rest program mark marks deeper next ih =>
      subst opened
      simp only [List.length_map] at deeper
      have derived := ih (.quote mark marks :: pending) done rfl read
        (by simp only [List.length_cons]; omega) fits
      simpa [consumed] using derived
  | @opening openings terms rest program token opens deeper next ih =>
      subst opened read
      simp only [List.length_map] at deeper
      have derived := ih (.group token opens done :: pending) [] rfl rfl
        (by simp only [List.length_cons]; omega) ⟨fits, by simp⟩
      simpa [consumed, yields] using derived
  | @closing place before outer terms rest program token closes nonempty next ih =>
      subst read
      obtain ⟨first, outside, rfl, opener, outers⟩ := List.map_eq_cons_iff.mp opened.symm
      cases first with
      | quote mark marks => cases opener
      | group start opens front =>
          cases opener
          subst outers
          obtain ⟨inner, yield, trees, nests⟩ := Chain.exists_of_read done (by simpa using nonempty)
          have shallow := nests (nestingLimit - (base + (outside.length + 1)))
            fun term member => by
              have bound := fits.2 term member
              omega
          simp only [List.length_cons] at within
          -- What was open is a derivation now, and goes to the quotes in front of it.
          have group : Expr.block (.chain (done.map Term.tree).reverse) =
              (Term.group start opens inner token closes).tree := by simp [Term.tree, trees]
          rw [group] at ih
          have derived := derives_settled (.group start opens inner token closes) outside front
            rest fits.1 (by simp only [Term.nesting]; omega) ih
          simpa [consumed, Term.yield, yield] using derived

end Grammar

namespace Parser

theorem parse_outcome (found : List Token) : Settled 0 [] [] found (parse ⟨found, 0⟩).1 := by
  unfold parse
  split
  · exact .inr ⟨_, _, rfl⟩
  · next more => exact read_outcome 0 [] [] found (by simpa [Ready] using more)

theorem derived_of_parse (found : List Token) (program : Expr) (once : EndsOnce found)
    (parsed : (parse ⟨found, 0⟩).1 = .ok program) :
    ∃ derivation : Grammar.Program, derivation.yield = found ∧
      derivation.nesting ≤ nestingLimit ∧ derivation.tree = program := by
  rcases parse_outcome found with ⟨other, ok, run⟩ | ⟨cause, place, failed⟩
  · obtain rfl := Except.ok.inj (ok.symm.trans parsed)
    obtain ⟨chain, rest, parts, ends, shallow, rfl⟩ :=
      Grammar.derives_of_reads [] [] found run [] [] rfl rfl (by simp [nestingLimit])
        (by simp [Grammar.Fits])
    obtain ⟨last, rfl, kind⟩ := once.last_of_atEnd _ chain.yield rest parts chain.yield_open ends
    exact ⟨⟨chain, last, kind⟩, parts.symm, by simpa [Grammar.Program.nesting] using shallow, rfl⟩
  · exact absurd (failed.symm.trans parsed) (by simp)

theorem parse_of_derived (derivation : Grammar.Program)
    (shallow : derivation.nesting ≤ nestingLimit) :
    (parse ⟨derivation.yield, 0⟩).1 = .ok derivation.tree := by
  obtain ⟨chain, last, ends⟩ := derivation
  obtain ⟨token, rest, head, _, open'⟩ := chain.yield_head
  have more : atEnd (chain.yield ++ [last]) = false := by simp [head, atEnd, open']
  have stop : Reads 0 [] (chain.trees.reverse ++ []) [last] (.chain chain.trees) := by
    have finish : Reads 0 [] chain.trees.reverse [last] (.chain chain.trees.reverse.reverse) :=
      .finish _ _ (by simpa using chain.trees_ne_nil) (by simp [atEnd, ends])
    simpa using finish
  have run := chain.reads [] [] [last] (fun _ => rfl)
    (by simpa [Grammar.Program.nesting] using shallow) stop
  rw [Grammar.Program.yield, parse, if_neg (by simp [more])]
  exact read_of_reads 0 [] [] _ _ run

end Parser

theorem layout_of_parse (source : String) (e : Expr) (parsed : parse source = .ok e) :
    ∃ layout : Layout, layout.text = source := by
  unfold parse at parsed
  split at parsed
  · next found clean =>
      obtain ⟨layout, text, _⟩ := layout_of_tokens source found clean
      exact ⟨layout, text⟩
  · cases parsed

/-- What the text of a layout is read as is derived from its tokens, but for the last one. -/
theorem Layout.chain_of_parse (layout : Layout) (e : Expr) (parsed : parse layout.text = .ok e) :
    ∃ chain : Grammar.Chain, chain.yield = tokensBehind [] layout.placed ∧
      chain.nesting ≤ nestingLimit ∧ Expr.chain chain.trees = e := by
  have clean := tokens_of_layout layout
  simp only [parse, clean] at parsed
  obtain ⟨⟨chain, last, ends⟩, yield, shallow, tree⟩ :=
    Parser.derived_of_parse _ e (endsOnce_of_tokens _ _ clean) parsed
  exact ⟨chain, List.append_inj_left' yield rfl, shallow, tree⟩

/-- Of a text without errors the parser reads the tree of the one derivation there is, if there
is one and it is not nested too deep. It fails in no way but by a malformed text. -/
theorem parse_ok_iff_derived (source : String) (found : List Token)
    (clean : tokens source = .ok found) :
    (∀ program, (Parser.parse ⟨found, 0⟩).1 = .ok program ↔
      ∃ derivation : Grammar.Program, derivation.yield = found ∧
        derivation.nesting ≤ nestingLimit ∧ derivation.tree = program) ∧
      (∀ left right : Grammar.Program, left.yield = found → right.yield = found → left = right) ∧
      ((∃ program, (Parser.parse ⟨found, 0⟩).1 = .ok program) ∨
        ∃ cause place, (Parser.parse ⟨found, 0⟩).1 = .error (.malformed cause place)) := by
  have once := endsOnce_of_tokens source found clean
  refine ⟨fun program => ⟨Parser.derived_of_parse found program once, ?_⟩, ?_, ?_⟩
  · rintro ⟨derivation, rfl, shallow, rfl⟩
    exact Parser.parse_of_derived derivation shallow
  · rintro left right rfl same
    exact left.eq_of_yield right same.symm
  · rcases Parser.parse_outcome found with ⟨program, ok, _⟩ | failed
    · exact .inl ⟨program, ok⟩
    · exact .inr failed

theorem parse_quoted_group :
    tokens "'(a)" = .ok [⟨.quote, "'", ⟨0, 1⟩⟩, ⟨.leftParen, "(", ⟨1, 1⟩⟩,
      ⟨.identifier, "a", ⟨2, 1⟩⟩, ⟨.rightParen, ")", ⟨3, 1⟩⟩, ⟨.endOfInput, "", ⟨4, 1⟩⟩] ∧
    (Parser.parse ⟨[⟨.quote, "'", ⟨0, 1⟩⟩, ⟨.leftParen, "(", ⟨1, 1⟩⟩,
      ⟨.identifier, "a", ⟨2, 1⟩⟩, ⟨.rightParen, ")", ⟨3, 1⟩⟩,
      ⟨.endOfInput, "", ⟨4, 1⟩⟩], 0⟩).1 =
      .ok (.chain [.deferred (.block (.chain [.identifier "a" ⟨2, 1⟩]))]) := by
  have scanned : tokens "'(a)" = .ok [⟨.quote, "'", ⟨0, 1⟩⟩, ⟨.leftParen, "(", ⟨1, 1⟩⟩,
      ⟨.identifier, "a", ⟨2, 1⟩⟩, ⟨.rightParen, ")", ⟨3, 1⟩⟩, ⟨.endOfInput, "", ⟨4, 1⟩⟩] := by
    cbv
  refine ⟨scanned, ((parse_ok_iff_derived _ _ scanned).1 _).mpr ?_⟩
  exact ⟨⟨.last (.quoted _ rfl (.group _ rfl (.last (.leaf _ _ rfl)) _ rfl)), _, rfl⟩,
    rfl, by decide, rfl⟩

end ChainScript
