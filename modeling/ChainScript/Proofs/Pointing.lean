import ChainScript.Proofs.Coverage

/-!
Places of an expression point at its text. The words of an expression that is read stand in the
text where they say, in the order in which the expression has them, and the place of a part of it
is that of the first word in the part.
-/

namespace ChainScript

namespace Expr

mutual

/-- The words of an expression as they are written, with their places, from left to right. -/
def words : Expr → List (String × Position)
  | .identifier name place => [(name, place)]
  | .option name place => [("--" ++ name, place)]
  | .deferred body => body.words
  | .chain terms => wordsAll terms
  | .block body => body.words
  | .text _ | .number _ | .stub _ => []
termination_by structural e => e

def wordsAll : List Expr → List (String × Position)
  | [] => []
  | term :: rest => term.words ++ wordsAll rest
termination_by structural terms => terms

end

/-- Whether an expression is the whole of another one or occurs inside it. -/
inductive IsPart (part : Expr) : Expr → Prop where
  | whole : IsPart part part
  | deferred {body : Expr} (inside : IsPart part body) : IsPart part (.deferred body)
  | block {body : Expr} (inside : IsPart part body) : IsPart part (.block body)
  | chain {terms : List Expr} {term : Expr} (inside : IsPart part term) (member : term ∈ terms) :
      IsPart part (.chain terms)

def HasWordAt (e : Expr) (place : Position) : Prop :=
  ∃ name, (identifier name place).IsPart e ∨ (option name place).IsPart e

/-! The words of an expression and of its parts. -/

theorem words_sublist_of_mem (terms : List Expr) (term : Expr) (member : term ∈ terms) :
    term.words.Sublist (wordsAll terms) := by
  induction terms with
  | nil => cases member
  | cons first rest ih =>
      rcases List.mem_cons.mp member with rfl | later
      · exact List.sublist_append_left _ _
      · exact (ih later).trans (List.sublist_append_right _ _)

theorem words_sublist (part e : Expr) (inside : part.IsPart e) : part.words.Sublist e.words := by
  induction inside with
  | whole => exact .refl _
  | deferred inside ih => exact ih
  | block inside ih => exact ih
  | chain inside member ih => exact ih.trans (words_sublist_of_mem _ _ member)

mutual

theorem hasWordAt_of_mem (e : Expr) (word : String × Position) (member : word ∈ e.words) :
    e.HasWordAt word.2 := by
  cases e with
  | text s => cases member
  | number n => cases member
  | stub value => cases member
  | identifier name place =>
      obtain rfl := List.mem_singleton.mp member
      exact ⟨name, .inl .whole⟩
  | option name place =>
      obtain rfl := List.mem_singleton.mp member
      exact ⟨name, .inr .whole⟩
  | deferred body =>
      obtain ⟨name, inside⟩ := hasWordAt_of_mem body word member
      exact ⟨name, inside.imp .deferred .deferred⟩
  | block body =>
      obtain ⟨name, inside⟩ := hasWordAt_of_mem body word member
      exact ⟨name, inside.imp .block .block⟩
  | chain terms =>
      obtain ⟨term, among, name, inside⟩ := hasWordAt_of_mem_all terms word member
      exact ⟨name, inside.imp (.chain · among) (.chain · among)⟩
termination_by structural e

theorem hasWordAt_of_mem_all (terms : List Expr) (word : String × Position)
    (member : word ∈ wordsAll terms) : ∃ term ∈ terms, term.HasWordAt word.2 := by
  cases terms with
  | nil => cases member
  | cons term rest =>
      rcases List.mem_append.mp member with first | later
      · exact ⟨term, List.mem_cons_self, hasWordAt_of_mem term word first⟩
      · obtain ⟨other, among, has⟩ := hasWordAt_of_mem_all rest word later
        exact ⟨other, List.mem_cons_of_mem term among, has⟩
termination_by structural terms

end

theorem hasWordAt_iff (e : Expr) (place : Position) :
    e.HasWordAt place ↔ place ∈ e.words.map Prod.snd := by
  constructor
  · rintro ⟨name, word | option⟩
    · exact List.mem_map_of_mem ((words_sublist _ e word).subset List.mem_cons_self)
    · exact List.mem_map_of_mem ((words_sublist _ e option).subset List.mem_cons_self)
  · intro member
    obtain ⟨word, among, rfl⟩ := List.mem_map.mp member
    exact hasWordAt_of_mem e word among

mutual

theorem position?_eq_head (e : Expr) : e.position? = (e.words.map Prod.snd).head? := by
  cases e with
  | text s => rfl
  | number n => rfl
  | stub value => rfl
  | identifier name place => rfl
  | option name place => rfl
  | deferred body => exact position?_eq_head body
  | block body => exact position?_eq_head body
  | chain terms => exact firstPosition?_eq_head terms
termination_by structural e

theorem firstPosition?_eq_head (terms : List Expr) :
    firstPosition? terms = ((wordsAll terms).map Prod.snd).head? := by
  cases terms with
  | nil => rfl
  | cons term rest =>
      rw [firstPosition?, position?_eq_head term, firstPosition?_eq_head rest, wordsAll,
        List.map_append, List.head?_append]
      cases (term.words.map Prod.snd).head? <;> rfl
termination_by structural terms

end

end Expr

/-! Words and the tokens that they come from. -/

/-- The text of a token, where that of an option is told from its name. -/
def Token.written (token : Token) : String :=
  match token.kind with
  | .option name => "--" ++ name
  | _ => token.lexeme

namespace Grammar

mutual

theorem Term.words_sublist (term : Term) :
    term.tree.words.Sublist (term.yield.map fun token => (token.written, token.position)) := by
  cases term with
  | leaf token e reads =>
      rcases leaf_cases token e reads with
        ⟨s, _, rfl⟩ | ⟨n, _, rfl⟩ | ⟨kind, rfl⟩ | ⟨name, kind, rfl⟩
      · exact List.nil_sublist _
      · exact List.nil_sublist _
      · simp [Term.tree, Term.yield, Expr.words, Token.written, kind]
      · simp [Term.tree, Term.yield, Expr.words, Token.written, kind]
  | quoted mark marks body =>
      apply List.Sublist.cons
      exact body.words_sublist
  | group opening opens body closing closes =>
      rw [Term.yield, List.map_append, List.map_cons]
      apply List.Sublist.trans body.words_sublist
      apply List.Sublist.trans (List.sublist_cons_self _ _)
      exact List.sublist_append_left _ _

theorem Chain.words_sublist (chain : Chain) :
    (Expr.wordsAll chain.trees).Sublist
      (chain.yield.map fun token => (token.written, token.position)) := by
  cases chain with
  | last term =>
      rw [Chain.trees, Expr.wordsAll, Expr.wordsAll, List.append_nil]
      exact term.words_sublist
  | more term rest =>
      rw [Chain.trees, Expr.wordsAll, Chain.yield, List.map_append]
      exact term.words_sublist.append rest.words_sublist

end

end Grammar

theorem written_tokensBehind (before : List Char) (placed : List Placed) (token : Token)
    (member : token ∈ tokensBehind before placed) : token.written = token.lexeme := by
  obtain ⟨from', _, kind, lexeme⟩ := mem_tokensBehind before placed token member
  rw [Token.written, kind, lexeme]
  cases from'.lexeme with
  | option name bare =>
      have dashes : "--" = String.ofList ['-', '-'] := rfl
      simp only [Lexeme.kind, Lexeme.text]
      rw [dashes, ← String.ofList_append]
      rfl
  | _ => rfl

/-- The words of an expression that is read stand in the text where their places say, and lie
there in the order in which the expression has them. -/
theorem words_of_parse (source : String) (e : Expr) (parsed : parse source = .ok e) :
    e.words.Pairwise (fun left right => left.2.offset < right.2.offset) ∧
      ∀ word ∈ e.words, ∃ before behind, source = before ++ word.1 ++ behind ∧
        word.2 = ⟨before.utf8ByteSize, 1 + before.toList.count '\n'⟩ := by
  obtain ⟨layout, rfl⟩ := layout_of_parse source e parsed
  obtain ⟨chain, yield, _, rfl⟩ := layout.chain_of_parse e parsed
  have inside := chain.words_sublist
  rw [yield] at inside
  constructor
  · apply List.Pairwise.sublist inside
    exact List.pairwise_map.mpr (pairwise_tokensBehind [] layout.placed)
  · intro word member
    obtain ⟨token, among, rfl⟩ := List.mem_map.mp (inside.subset member)
    obtain ⟨before, behind, stands⟩ := stands_tokensBehind [] layout.placed layout.last
      layout.apart layout.lastBlank token among
    refine ⟨before, behind, ?_, ?_⟩
    · rw [written_tokensBehind [] layout.placed token among]
      exact stands.split
    · rw [← stands.offset, ← stands.line]

theorem first_le_of_pairwise (words : List (String × Position)) (first place : Position)
    (apart : words.Pairwise fun left right => left.2.offset < right.2.offset)
    (head : (words.map Prod.snd).head? = some first) (member : place ∈ words.map Prod.snd) :
    place = first ∨ first.offset < place.offset := by
  cases words with
  | nil => cases head
  | cons word rest =>
      obtain rfl : word.2 = first := Option.some.inj head
      rcases List.mem_cons.mp member with same | later
      · exact .inl same
      · obtain ⟨other, among, rfl⟩ := List.mem_map.mp later
        exact .inr (List.rel_of_pairwise_cons apart among)

/-- The places of an expression that is read point at its text. From left to right the offsets of
its words increase, and at each of them the text goes on with the word as it is written, on the
line that the place names. So the place of a part is the least one of a word in the part, and a
part without words has no place. -/
theorem parse_points (source : String) (e : Expr) (parsed : parse source = .ok e) :
    e.words.Pairwise (fun left right => left.2.offset < right.2.offset) ∧
      (∀ word ∈ e.words, ∃ before behind, source = before ++ word.1 ++ behind ∧
        word.2 = ⟨before.utf8ByteSize, 1 + before.toList.count '\n'⟩) ∧
      ∀ part : Expr, part.IsPart e →
        (part.position? = none ↔ ∀ place, ¬ part.HasWordAt place) ∧
          ∀ first, part.position? = some first → part.HasWordAt first ∧
            ∀ place, part.HasWordAt place → place = first ∨ first.offset < place.offset := by
  obtain ⟨apart, stand⟩ := words_of_parse source e parsed
  refine ⟨apart, stand, ?_⟩
  intro part inside
  have partApart := apart.sublist (Expr.words_sublist part e inside)
  simp only [Expr.position?_eq_head, Expr.hasWordAt_iff]
  constructor
  · rw [List.head?_eq_none_iff, List.eq_nil_iff_forall_not_mem]
  · intro first head
    constructor
    · exact List.mem_of_head? head
    · intro place member
      exact first_le_of_pairwise part.words first place partApart head member

theorem parse_points_quoted :
    parse "\"\né\" '(a --é)" =
      .ok (.chain [.text "\né", .deferred (.block (.chain
        [.identifier "a" ⟨8, 2⟩, .option "é" ⟨10, 2⟩]))]) ∧
    (∃ before behind, "\"\né\" '(a --é)" = before ++ "--é" ++ behind ∧
      (⟨10, 2⟩ : Position) = ⟨before.utf8ByteSize, 1 + before.toList.count '\n'⟩) ∧
    (Expr.text "\né").position? = none := by
  have parsed : parse "\"\né\" '(a --é)" =
      .ok (.chain [.text "\né", .deferred (.block (.chain
        [.identifier "a" ⟨8, 2⟩, .option "é" ⟨10, 2⟩]))]) := by
    cbv
  obtain ⟨_, stand, parts⟩ := parse_points _ _ parsed
  have word := stand ("--é", ⟨10, 2⟩) (by simp [Expr.words, Expr.wordsAll])
  have text := parts (.text "\né") (.chain .whole (by simp))
  refine ⟨parsed, word, text.1.mpr ?_⟩
  intro place has
  rw [Expr.hasWordAt_iff] at has
  cases has

end ChainScript
