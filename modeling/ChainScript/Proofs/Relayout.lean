import ChainScript.Proofs.Hygiene
import ChainScript.Proofs.Places
import ChainScript.Proofs.RoundTrip

/-!
Layout does not matter. Two texts that are read as the same expression but for places are
evaluated to the same end but for places. Places flow into values, for quoted words are compared
with them; but as no two words of a text share a place, the comparisons come out the same.
-/

namespace ChainScript

namespace Value

mutual

def unplaced : Value → Value
  | .empty => .empty
  | .placeholder => .placeholder
  | .bool b => .bool b
  | .int n => .int n
  | .float x => .float x
  | .text s => .text s
  | .list items => .list (unplacedAll items)
  | .deferred body captured => .deferred body.unplaced (unplacedIn captured)
  | .host object => .host object
termination_by structural value => value

def unplacedAll : List Value → List Value
  | [] => []
  | item :: rest => item.unplaced :: unplacedAll rest
termination_by structural items => items

def unplacedIn : List (String × Value) → List (String × Value)
  | [] => []
  | (name, value) :: rest => (name, value.unplaced) :: unplacedIn rest
termination_by structural bindings => bindings

end

end Value

def Frame.unplaced (frame : Frame) : Frame :=
  { frame with bindings := Value.unplacedIn frame.bindings }

def Environment.unplaced (env : Environment) : Environment :=
  ⟨env.top.unplaced, env.below.map Frame.unplaced⟩

def World.unplaced (world : World) : World := { world with env := world.env.unplaced }

def Fault.unplaced : Fault → Fault
  | .malformed cause _ => .malformed cause default
  | .unresolved name _ => .unresolved name default
  | .arity method expected actual _ => .arity method expected actual default
  | .missingOptionValue name _ => .missingOptionValue name default
  | .duplicateOption name _ => .duplicateOption name default
  | .unusedOptions method names _ => .unusedOptions method names default
  | .danglingOptions names _ => .danglingOptions names default
  | .unconsumed leftover _ => .unconsumed leftover default
  | .inMethod method cause _ => .inMethod method cause default
  | .complaint cause => .complaint cause
  | .canceled => .canceled

inductive SameButPlaces :
    EStateM.Result Halt World Value → EStateM.Result Halt World Value → Prop where
  | ok (v w : Value) (after other : World) (values : v.unplaced = w.unplaced)
      (shown : v.shown = w.shown) (worlds : after.unplaced = other.unplaced) :
      SameButPlaces (.ok v after) (.ok w other)
  | fault (f g : Fault) (after other : World) (faults : f.unplaced = g.unplaced)
      (worlds : after.unplaced = other.unplaced) :
      SameButPlaces (.error (.fault f) after) (.error (.fault g) other)

namespace Expr

mutual

def Stubless : Expr → Prop
  | .deferred body => body.Stubless
  | .chain terms => StublessAll terms
  | .block body => body.Stubless
  | .stub _ => False
  | .text _ | .number _ | .identifier _ _ | .option _ _ => True
termination_by structural e => e

def StublessAll : List Expr → Prop
  | [] => True
  | term :: rest => term.Stubless ∧ StublessAll rest
termination_by structural terms => terms

end

mutual

theorem length_places_unplaced (e : Expr) : e.unplaced.places.length = e.places.length := by
  cases e with
  | deferred body => exact body.length_places_unplaced
  | block body => exact body.length_places_unplaced
  | chain terms => exact length_placesAll_unplacedAll terms
  | _ => rfl

theorem length_placesAll_unplacedAll (terms : List Expr) :
    (placesAll (unplacedAll terms)).length = (placesAll terms).length := by
  cases terms with
  | nil => rfl
  | cons term rest =>
      simp only [unplacedAll, placesAll, List.length_append, term.length_places_unplaced,
        length_placesAll_unplacedAll rest]

end

mutual

/-- Expressions that are the same but for places are alike, if their places in turn are. -/
theorem alike_of_unplaced {likeness : Likeness} (all : ∀ name, likeness.named name)
    (e other : Expr) (written : e.Stubless)
    (same : e.unplaced = other.unplaced)
    (places : ∀ p q, (p, q) ∈ e.places.zip other.places → likeness.place p q) :
    e.Alike likeness other := by
  cases e with
  | text s =>
      cases other <;> cases same
      exact .text s
  | number n =>
      cases other <;> cases same
      exact .number n
  | identifier name p =>
      cases other with
      | identifier name' q =>
          cases same
          exact .identifier name p q (places p q List.mem_cons_self) (all name)
      | _ => cases same
  | option name p =>
      cases other with
      | option name' q =>
          cases same
          exact .option name p q (places p q List.mem_cons_self)
      | _ => cases same
  | deferred body =>
      cases other with
      | deferred body' =>
          exact .deferred _ _
            (alike_of_unplaced all body body' written (Expr.deferred.inj same) places)
      | _ => cases same
  | block body =>
      cases other with
      | block body' =>
          exact .block _ _
            (alike_of_unplaced all body body' written (Expr.block.inj same) places)
      | _ => cases same
  | chain terms =>
      cases other with
      | chain others =>
          exact .chain _ _
            (all_alike_of_unplaced all terms others written (Expr.chain.inj same) places)
      | _ => cases same
  | stub value => exact absurd written id

theorem all_alike_of_unplaced {likeness : Likeness} (all : ∀ name, likeness.named name)
    (terms others : List Expr) (written : StublessAll terms)
    (same : unplacedAll terms = unplacedAll others)
    (places : ∀ p q, (p, q) ∈ (placesAll terms).zip (placesAll others) → likeness.place p q) :
    List.Forall₂ (Expr.Alike likeness) terms others := by
  cases terms with
  | nil =>
      cases others with
      | nil => exact .nil
      | cons other rest => cases same
  | cons term rest =>
      cases others with
      | nil => cases same
      | cons other others =>
          obtain ⟨first, later⟩ := List.cons.inj same
          have lengths : term.places.length = other.places.length := by
            rw [← term.length_places_unplaced, first, other.length_places_unplaced]
          simp only [placesAll, List.zip_append lengths, List.mem_append] at places
          exact .cons
            (alike_of_unplaced all term other written.1 first fun p q pair =>
              places p q (.inl pair))
            (all_alike_of_unplaced all rest others written.2 later fun p q pair =>
              places p q (.inr pair))

end

end Expr

/-! Two layouts of one expression. -/

-- In a zip of two lists without repetitions either side of a pair tells which pair it is.
theorem zip_unique {α : Type} (left right : List α) (distinct : left.Nodup)
    (distinct' : right.Nodup) (p q p' q' : α) (pair : (p, q) ∈ left.zip right)
    (pair' : (p', q') ∈ left.zip right) : p = p' ↔ q = q' := by
  obtain ⟨i, bound, here⟩ := List.mem_iff_getElem.mp pair
  obtain ⟨j, bound', there⟩ := List.mem_iff_getElem.mp pair'
  rw [List.getElem_zip, Prod.mk.injEq] at here there
  rw [← here.1, ← here.2, ← there.1, ← there.2, distinct.getElem_inj_iff,
    distinct'.getElem_inj_iff]

/-- Likeness where each place of one layout stands for the place of the same word in another. -/
def Likeness.relaid (left right : List Position) (distinct : (default :: left).Nodup)
    (distinct' : (default :: right).Nodup) : Likeness where
  place p q := (p, q) ∈ (default :: left).zip (default :: right)
  limit := Eq
  named _ := True
  placeDefault := List.mem_cons_self
  placeUnique := zip_unique _ _ distinct distinct'
  whole := True

section

variable {likeness : Likeness}

mutual

theorem Expr.unplaced_of_alike (e other : Expr) (alike : e.Alike likeness other) :
    e.unplaced = other.unplaced := by
  cases alike with
  | deferred body other bodies => simp only [Expr.unplaced, body.unplaced_of_alike other bodies]
  | block body other bodies => simp only [Expr.unplaced, body.unplaced_of_alike other bodies]
  | chain terms others alike =>
      simp only [Expr.unplaced, Expr.unplacedAll_of_alike terms others alike]
  | _ => rfl

theorem Expr.unplacedAll_of_alike (terms others : List Expr)
    (alike : List.Forall₂ (Expr.Alike likeness) terms others) :
    Expr.unplacedAll terms = Expr.unplacedAll others := by
  cases alike with
  | nil => rfl
  | cons first rest =>
      simp only [Expr.unplacedAll, Expr.unplaced_of_alike _ _ first,
        Expr.unplacedAll_of_alike _ _ rest]

end

mutual

theorem Value.unplaced_of_alike (whole : likeness.whole) (v w : Value)
    (alike : v.Alike likeness w) : v.unplaced = w.unplaced := by
  cases alike with
  | list items others alike =>
      simp only [Value.unplaced, Value.unplacedAll_of_alike whole items others alike]
  | deferred body other scope outer bodies agree captured =>
      simp only [Value.unplaced, body.unplaced_of_alike other bodies,
        Value.unplacedIn_of_alike whole scope outer (captured whole)]
  | _ => rfl

theorem Value.unplacedAll_of_alike (whole : likeness.whole) (items others : List Value)
    (alike : List.Forall₂ (Value.Alike likeness) items others) :
    Value.unplacedAll items = Value.unplacedAll others := by
  cases alike with
  | nil => rfl
  | cons first rest =>
      simp only [Value.unplacedAll, Value.unplaced_of_alike whole _ _ first,
        Value.unplacedAll_of_alike whole _ _ rest]

theorem Value.unplacedIn_of_alike (whole : likeness.whole) (scope outer : Bindings)
    (alike : BindingsAlike likeness scope outer) :
    Value.unplacedIn scope = Value.unplacedIn outer := by
  cases alike with
  | nil => rfl
  | cons first rest =>
      cases first with
      | mk name v w values =>
          simp only [Value.unplacedIn, Value.unplaced_of_alike whole v w values,
            Value.unplacedIn_of_alike whole _ _ rest]

end

theorem World.unplaced_of_alike (whole : likeness.whole) (left right : World)
    (alike : left.Alike likeness right) : left.unplaced = right.unplaced := by
  have frame (left right : Frame) (alike : left.Alike likeness right) :
      left.unplaced = right.unplaced := by
    simp only [Frame.unplaced, alike.methods, alike.converters,
      Value.unplacedIn_of_alike whole _ _ alike.bindings]
  have below := map_eq_of_forall₂ Frame.unplaced frame _ _ alike.env.below
  simp only [World.unplaced, Environment.unplaced, frame _ _ alike.env.top, below, alike.counters]

theorem Fault.unplaced_of_alike (limits : ∀ m n, likeness.limit m n → m = n) (f g : Fault)
    (alike : f.Alike likeness g) : f.unplaced = g.unplaced := by
  have causes (cause other : Complaint) (alike : cause.Alike likeness other) : cause = other := by
    cases alike with
    | same cause => rfl
    | tooDeep limit other same => rw [limits limit other same]
  cases alike with
  | inMethod method cause other p q alike places =>
      simp only [Fault.unplaced, causes cause other alike]
  | complaint cause other alike => simp only [Fault.unplaced, causes cause other alike]
  | _ => rfl

theorem sameButPlaces_of_alike (limits : ∀ m n, likeness.limit m n → m = n)
    (whole : likeness.whole) (left right : EStateM.Result Halt World Value)
    (ends : EndsAlike likeness (Value.Alike likeness) left right) : SameButPlaces left right := by
  cases ends with
  | ok v w world other values worlds =>
      exact .ok v w world other (Value.unplaced_of_alike whole v w values)
        (v.shown_alike w values) (World.unplaced_of_alike whole world other worlds)
  | fault f g world other faults worlds =>
      exact .fault f g world other (Fault.unplaced_of_alike limits f g faults)
        (World.unplaced_of_alike whole world other worlds)

-- The variables of the prelude quote nothing, so no place stands in the first world.
theorem prelude_alike : World.Alike likeness { env := Prelude.environment }
    { env := Prelude.environment } := by
  apply World.alike_self _ preludeOnly_environment
  intro frame member
  obtain rfl := List.mem_singleton.mp (Prelude.frames_environment ▸ member)
  rw [Prelude.bindings_environment]
  exact .cons (.mk _ _ _ .placeholder) (.cons (.mk _ _ _ (.bool false))
    (.cons (.mk _ _ _ (.bool true)) .nil))

end

namespace Grammar

mutual

theorem Term.stubless_tree (term : Term) : term.tree.Stubless := by
  cases term with
  | leaf token e reads =>
      rcases leaf_cases token e reads with
        ⟨s, _, rfl⟩ | ⟨n, _, rfl⟩ | ⟨_, rfl⟩ | ⟨name, _, rfl⟩ <;> trivial
  | quoted mark marks body => exact body.stubless_tree
  | group opening opens body closing closes => exact body.stubless_trees

theorem Chain.stubless_trees (chain : Chain) : Expr.StublessAll chain.trees := by
  cases chain with
  | last term => exact ⟨term.stubless_tree, trivial⟩
  | more term rest => exact ⟨term.stubless_tree, rest.stubless_trees⟩

end

end Grammar

theorem stubless_of_parse (source : String) (e : Expr) (parsed : parse source = .ok e) :
    e.Stubless := by
  obtain ⟨layout, rfl⟩ := layout_of_parse source e parsed
  obtain ⟨chain, _, _, rfl⟩ := layout.chain_of_parse e parsed
  exact chain.stubless_trees

theorem distinct_of_parse (source : String) (e : Expr) (parsed : parse source = .ok e) :
    (default :: e.places).Nodup := by
  obtain ⟨apart, lines⟩ := places_of_parse source e parsed
  apply List.nodup_cons.mpr
  constructor
  · intro member
    have line := lines default member
    cases line
  · apply apart.imp
    rintro p q before rfl
    exact Nat.lt_irrefl _ before

theorem evaluate_unplaced (source other : String) (e e' : Expr) (limit : Nat)
    (parsed : parse source = .ok e) (parsed' : parse other = .ok e')
    (same : e.unplaced = e'.unplaced) :
    SameButPlaces
      (Evaluator.evaluateSource { maxDepth := limit } source { env := Prelude.environment })
      (Evaluator.evaluateSource { maxDepth := limit } other { env := Prelude.environment }) := by
  let likeness := Likeness.relaid e.places e'.places (distinct_of_parse source e parsed)
    (distinct_of_parse other e' parsed')
  have alike : e.Alike likeness e' := by
    apply Expr.alike_of_unplaced (fun _ => trivial) e e' (stubless_of_parse source e parsed) same
    intro p q pair
    exact List.mem_cons_of_mem _ pair
  have evaluators : Evaluator.Alike likeness e.names { maxDepth := limit }
      { maxDepth := limit } := by
    constructor
    · exact fun _ _ => .none
    · rfl
    · exact fun _ _ _ => .none
    · rfl
    · rfl
    · exact fun _ => .nil
  have ends := evaluate_alike _ _ e e' alike evaluators _ _ prelude_alike
  have runs (source : String) (e : Expr) (parsed : parse source = .ok e) :
      Evaluator.evaluateSource { maxDepth := limit } source =
        Evaluator.evaluate { maxDepth := limit } e := by
    simp only [Evaluator.evaluateSource, parsed]
  rw [runs source e parsed, runs other e' parsed']
  exact sameButPlaces_of_alike (fun _ _ => id) trivial _ _ ends

/-- Two texts that are read as the same expression but for places are evaluated over the prelude
to the same end but for places. Such texts are a text and the canonical text of its expression,
and two texts that differ in their blanks. It rests on each word having a place of its own. -/
theorem evaluate_relaid :
    (∀ source e, parse source = .ok e →
      e.places.Pairwise fun p q => p.offset < q.offset) ∧
    (∀ source other e e' limit, parse source = .ok e → parse other = .ok e' →
      e.unplaced = e'.unplaced → SameButPlaces
        (Evaluator.evaluateSource { maxDepth := limit } source { env := Prelude.environment })
        (Evaluator.evaluateSource { maxDepth := limit } other { env := Prelude.environment })) ∧
    (∀ source e limit, parse source = .ok e → e.finite = true → SameButPlaces
      (Evaluator.evaluateSource { maxDepth := limit } source { env := Prelude.environment })
      (Evaluator.evaluateSource { maxDepth := limit } e.print { env := Prelude.environment })) ∧
    (∀ (layout other : Layout) e limit, parse layout.text = .ok e →
      layout.placed.map Placed.lexeme = other.placed.map Placed.lexeme → SameButPlaces
        (Evaluator.evaluateSource { maxDepth := limit } layout.text { env := Prelude.environment })
        (Evaluator.evaluateSource { maxDepth := limit } other.text
          { env := Prelude.environment })) := by
  refine ⟨?_, ?_, ?_, ?_⟩
  · intro source e parsed
    exact (places_of_parse source e parsed).1
  · intro source other e e' limit parsed parsed' same
    exact evaluate_unplaced source other e e' limit parsed parsed' same
  · intro source e limit parsed finite
    have canonical := isCanonical_of_parse source e parsed finite
    obtain ⟨again, printed, same⟩ := parse_of_isCanonical e canonical
    exact evaluate_unplaced source e.print e again limit parsed printed same.symm
  · intro layout other e limit parsed same
    obtain ⟨e', parsed', unplaced⟩ := parse_relaid layout other same e parsed
    exact evaluate_unplaced layout.text other.text e e' limit parsed parsed' unplaced.symm

theorem evaluate_relaid_equal :
    parse "== 'a 'a" = .ok (.chain [.identifier "==" ⟨0, 1⟩,
      .deferred (.identifier "a" ⟨4, 1⟩), .deferred (.identifier "a" ⟨7, 1⟩)]) ∧
    SameButPlaces
      (Evaluator.evaluateSource {} "== 'a 'a" { env := Prelude.environment })
      (Evaluator.evaluateSource {} " ==\n'a 'a" { env := Prelude.environment }) ∧
    SameButPlaces
      (Evaluator.evaluateSource {} " ==\n'a 'a" { env := Prelude.environment })
      (Evaluator.evaluateSource {} "== 'a 'a" { env := Prelude.environment }) ∧
    SameButPlaces
      (Evaluator.evaluateSource {} "\"\"" { env := Prelude.environment })
      (Evaluator.evaluateSource {} " \"\"\n" { env := Prelude.environment }) := by
  have parsed : parse "== 'a 'a" = .ok (.chain [.identifier "==" ⟨0, 1⟩,
      .deferred (.identifier "a" ⟨4, 1⟩), .deferred (.identifier "a" ⟨7, 1⟩)]) := by
    cbv
  have parsed' : parse " ==\n'a 'a" = .ok (.chain [.identifier "==" ⟨1, 1⟩,
      .deferred (.identifier "a" ⟨5, 2⟩), .deferred (.identifier "a" ⟨8, 2⟩)]) := by
    cbv
  have print : Expr.print (.chain [.identifier "==" ⟨1, 1⟩,
      .deferred (.identifier "a" ⟨5, 2⟩), .deferred (.identifier "a" ⟨8, 2⟩)]) = "== 'a 'a" := by
    cbv
  have text : parse "\"\"" = .ok (.chain [.text ""]) := by
    cbv
  refine ⟨parsed, ?_, ?_, ?_⟩
  · exact evaluate_relaid.2.1 _ _ _ _ 256 parsed parsed' rfl
  · have canonical := evaluate_relaid.2.2.1 _ _ 256 parsed' rfl
    rw [print] at canonical
    exact canonical
  · exact evaluate_relaid.2.2.2 ⟨[⟨[], by simp, .string []⟩], .singleton _, [], by simp⟩
      ⟨[⟨[' '], by simp [isBlank], .string []⟩], .singleton _, ['\n'], by simp [isBlank]⟩ _ 256 text
      rfl

end ChainScript
