import ChainScript.Proofs.Deliveries
import ChainScript.Proofs.Grouping
import ChainScript.Proofs.Nesting

/-!
Options in other places. An option that stands right in front of a literal takes just that literal,
so the two can be moved together among the arguments of a call, past other options too. A method
sees its options by their names and never in the order in which they were written.
-/

namespace ChainScript

/-! Options in another order. -/

theorem lookup_perm {given other : Bindings} (moved : given.Perm other)
    (distinct : (given.map Prod.fst).Nodup) (name : String) :
    other.lookup name = given.lookup name := by
  induction moved with
  | nil => rfl
  | cons binding _ ih =>
      obtain ⟨key, value⟩ := binding
      have later := ih (List.nodup_cons.mp distinct).2
      simp only [List.lookup_cons, later]
  | swap first second rest =>
      obtain ⟨key, value⟩ := first
      obtain ⟨key', value'⟩ := second
      have apart : key ≠ key' := by
        rintro rfl
        simp at distinct
      simp only [List.lookup_cons]
      cases here : name == key with
      | false => rfl
      | true =>
          have other : (name == key') = false := by
            rw [beq_eq_false_iff_ne, beq_iff_eq.mp here]
            exact apart
          simp only [other]
  | trans sooner _ ih ih' =>
      exact (ih' ((sooner.map Prod.fst).nodup_iff.mp distinct)).trans (ih distinct)

/-- The end of a routine with other options given, of which the same were asked for. -/
def Options.regive (given : Bindings) :
    EStateM.Result Halt World (Except Fault Value × Options) →
      EStateM.Result Halt World (Except Fault Value × Options)
  | .ok done after => .ok (done.1, ⟨given, done.2.asked⟩) after
  | .error halt after => .error halt after

theorem regive_bind {α : Type} (other : Bindings) (run : Run α)
    (next next' : α → Run (Except Fault Value × Options)) (world : World)
    (later : ∀ a after, next' a after = Options.regive other (next a after)) :
    (run >>= next') world = Options.regive other ((run >>= next) world) := by
  simp only [Bind.bind, EStateM.bind]
  cases run world with
  | ok a after => exact later a after
  | error halt after => rfl

theorem regive_inFrame (other : Bindings) (run run' : Run (Except Fault Value × Options))
    (inside : ∀ world, run' world = Options.regive other (run world)) (world : World) :
    Run.inFrame run' world = Options.regive other (Run.inFrame run world) := by
  simp only [Run.inFrame, inside]
  cases run { world with env := world.env.push } with
  | ok done after =>
      simp only [Options.regive, Bind.bind, EStateM.bind]
      cases Run.pop after <;> rfl
  | error halt after =>
      simp only [Options.regive, Bind.bind, EStateM.bind]
      cases Run.pop after <;> rfl

-- By induction on the routine. A routine can look options up and count them, and do nothing else
-- with them.
/-- What a routine does with its options depends on their names and values only. -/
theorem perform_regive (onward : Onward) (evaluator : Evaluator) {given other : Bindings}
    (lookups : ∀ name, other.lookup name = given.lookup name)
    (sizes : other.length = given.length) (routine : Routine) (asked : List String)
    (world : World) :
    perform onward evaluator routine ⟨other, asked⟩ world =
      Options.regive other (perform onward evaluator routine ⟨given, asked⟩ world) := by
  induction routine generalizing asked world with
  | finish result => rfl
  | panic text => rfl
  | option name next ih =>
      simp only [perform, Options.get?, lookups]
      exact ih _ _ _
  | optionCount next ih =>
      simp only [perform, Options.size, sizes]
      exact ih _ _ _
  | caller next ih => exact ih _ _ _
  | register converter next ih | push next ih | pop next ih =>
      exact regive_bind _ _ _ _ _ fun _ after => ih asked after
  | define name arity takesRest body next _ ih =>
      exact regive_bind _ _ _ _ _ fun result after => ih result asked after
  | inFrame inner next inside ih =>
      have framed := regive_inFrame other _ _ (inside asked) world
      simp only [perform, Bind.bind, EStateM.bind, framed]
      cases ended : Run.inFrame (perform onward evaluator inner ⟨given, asked⟩) world with
      | error halt after => rfl
      | ok done after =>
          obtain ⟨_, within⟩ := inFrame_ok ended
          have same := perform_given _ _ _ _ _ _ _ within
          obtain ⟨result, options⟩ := done
          obtain rfl : options.given = given := same
          exact ih result options.asked after
  | _ =>
      next ih => exact regive_bind _ _ _ _ _ fun answer after => ih answer asked after

theorem unused_perm {given other : Bindings} (moved : given.Perm other) (asked : List String) :
    Options.unused ⟨given, asked⟩ = Options.unused ⟨other, asked⟩ :=
  sortedNames_perm ((moved.map Prod.fst).filter _)

/-! Walks with options in another order. -/

/-- The same walk, but for the order of its options and for the place of the last one. -/
structure Walk.Reordered (walk other : Walk) : Prop where
  values : walk.values = other.values
  options : walk.options.Perm other.options
  distinct : (walk.options.map Prod.fst).Nodup

inductive EndsReordered :
    EStateM.Result Halt World Walk → EStateM.Result Halt World Walk → Prop where
  | ok (walk other : Walk) (world : World) (reordered : walk.Reordered other) :
      EndsReordered (.ok walk world) (.ok other world)
  | error (halt : Halt) (world : World) : EndsReordered (.error halt world) (.error halt world)

/-- Two runs that go on from such walks are related if they are so wherever both come to. -/
theorem EndsReordered.bind {α : Type}
    {related : EStateM.Result Halt World α → EStateM.Result Halt World α → Prop}
    {run run' : Run Walk} (next next' : Walk → Run α) {world : World}
    (first : EndsReordered (run world) (run' world))
    (halted : ∀ halt after, related (.error halt after) (.error halt after))
    (later : ∀ walk other after, walk.Reordered other →
      related (next walk after) (next' other after)) :
    related ((run >>= next) world) ((run' >>= next') world) := by
  simp only [Bind.bind, EStateM.bind]
  generalize run world = left at first ⊢
  generalize run' world = right at first ⊢
  cases first with
  | ok walk other after reordered => exact later walk other after reordered
  | error halt after => exact halted halt after

section

variable {walk other : Walk} (reordered : walk.Reordered other)

include reordered

theorem Walk.Reordered.add (value : Value) : (walk.add value).Reordered (other.add value) :=
  ⟨congrArg (value :: ·) reordered.values, reordered.options, reordered.distinct⟩

theorem Walk.Reordered.lookup (name : String) :
    other.options.lookup name = walk.options.lookup name :=
  lookup_perm reordered.options reordered.distinct name

theorem takeOption_reordered (name : String) (place : Position) (world : World) :
    EndsReordered (Run.ofExcept (walk.takeOption name place) world)
      (Run.ofExcept (other.takeOption name place) world) := by
  simp only [Walk.takeOption, ← reordered.values, reordered.lookup name]
  cases walk.values with
  | nil => exact .error _ world
  | cons value rest =>
      cases fresh : walk.options.lookup name with
      | some old => exact .error _ world
      | none =>
          refine .ok _ _ world ⟨rfl, reordered.options.cons _, ?_⟩
          exact List.nodup_cons.mpr ⟨(lookup_eq_none_iff _ name).mp fresh, reordered.distinct⟩

variable (onward : Onward) (evaluator : Evaluator) (world : World)

theorem invoke_reordered (method : Method) (place : Position) :
    EndsReordered (invoke onward evaluator method place walk world)
      (invoke onward evaluator method place other world) := by
  have values := reordered.values
  by_cases few : walk.values.length < method.arity
  · rw [invoke_few _ _ _ _ _ few, invoke_few _ _ _ _ _ (values ▸ few), values]
    exact .error _ world
  · have enough := Nat.not_lt.mp few
    have params : other.params method = walk.params method := by
      rw [Walk.params, Walk.params, values]
    have rest : other.rest method = walk.rest method := by
      rw [Walk.rest, Walk.rest, values]
    have performed := perform_regive onward evaluator reordered.lookup
      reordered.options.length_eq.symm (method.body (walk.params method) (walk.rest method)) []
      world
    rw [invoke_enough _ _ _ _ _ enough, invoke_enough _ _ _ _ _ (values ▸ enough), params, rest]
    simp only [Bind.bind, EStateM.bind, performed]
    cases ended : perform onward evaluator (method.body (walk.params method) (walk.rest method))
        ⟨walk.options, []⟩ world with
    | error halt after => exact .error halt after
    | ok done after =>
        have given := perform_given _ _ _ _ _ _ _ ended
        obtain ⟨result, options⟩ := done
        obtain ⟨given', asked⟩ := options
        obtain rfl : given' = walk.options := given
        cases result with
        | error fault => exact .error _ after
        | ok value =>
            simp only [Options.regive, settle, unused_perm reordered.options asked]
            cases Options.unused ⟨other.options, asked⟩ with
            | nil =>
                refine .ok _ _ after ⟨?_, .refl _, .nil⟩
                rw [Walk.behindCall, Walk.behindCall, values]
            | cons name names => exact .error _ after

theorem resolve_reordered (name : String) (place : Position) :
    EndsReordered (resolve onward evaluator name place walk world)
      (resolve onward evaluator name place other world) := by
  cases called : evaluator.called? world.env name with
  | some method =>
      rw [resolve_called _ _ _ _ _ _ method called, resolve_called _ _ _ _ _ _ method called]
      exact invoke_reordered reordered onward evaluator world method place
  | none =>
      cases seen : evaluator.seen? world.env name with
      | some value =>
          rw [resolve_seen _ _ _ _ _ _ value seen, resolve_seen _ _ _ _ _ _ value seen]
          exact .ok _ _ world (reordered.add value)
      | none =>
          rw [resolve_unknown _ _ _ _ _ _ seen called, resolve_unknown _ _ _ _ _ _ seen called]
          exact .error _ world

theorem walkTerm_reordered (term : Expr) :
    EndsReordered (walkTerm onward evaluator term walk world)
      (walkTerm onward evaluator term other world) := by
  have adds (plain : term.IsPlain) :
      EndsReordered (walkTerm onward evaluator term walk world)
        (walkTerm onward evaluator term other world) := by
    rw [walkTerm_plain _ _ _ _ plain, walkTerm_plain _ _ _ _ plain]
    simp only [Bind.bind, EStateM.bind]
    cases evaluateTerm onward evaluator term world with
    | ok value after => exact .ok _ _ after (reordered.add value)
    | error halt after => exact .error halt after
  cases term with
  | identifier name place => exact resolve_reordered reordered onward evaluator world name place
  | option name place => exact takeOption_reordered reordered name place world
  | _ => exact adds trivial

-- By induction on the terms, the last one first: behind a step that succeeds the walks are again
-- the same but for their options.
theorem walkTerms_reordered (terms : List Expr) :
    EndsReordered (walkTerms onward evaluator walk terms world)
      (walkTerms onward evaluator other terms world) := by
  induction terms with
  | nil => exact .ok walk other world reordered
  | cons term rest ih =>
      rw [walkTerms_cons, walkTerms_cons]
      apply ih.bind
      · exact .error
      · exact fun walk other after still => walkTerm_reordered still onward evaluator after term

end

/-! Arguments and pairs. -/

/-- What can be moved among the arguments of a call: a term that stands for itself, or an option
right in front of a literal. -/
inductive Part where
  | plain (term : Expr) (stands : term.IsPlain)
  | pair (name : String) (place : Position) (literal : Expr) (value : Value)
      (known : literal.literal? = some value)

namespace Part

def terms : Part → List Expr
  | plain term _ => [term]
  | pair name place literal _ _ => [.option name place, literal]

def plain? : Part → Option Expr
  | plain term _ => some term
  | pair _ _ _ _ _ => none

def binding? : Part → Option (String × Value)
  | plain _ _ => none
  | pair name _ _ value _ => some (name, value)

def plains (parts : List Part) : List Expr := parts.filterMap plain?

def bindings (parts : List Part) : Bindings := parts.filterMap binding?

def chain (parts : List Part) : List Expr := parts.flatMap terms

def optionPlace (behind : Position) : List Part → Position
  | [] => behind
  | plain _ _ :: rest => optionPlace behind rest
  | pair _ place _ _ _ :: _ => place

end Part

/-- Evaluates terms that stand for themselves, the last one first. -/
def evaluateEach (onward : Onward) (evaluator : Evaluator) : List Expr → Run (List Value)
  | [] => pure []
  | term :: rest => do
      let values ← evaluateEach onward evaluator rest
      let value ← evaluateTerm onward evaluator term
      pure (value :: values)

section

variable (onward : Onward) (evaluator : Evaluator)

theorem walkTerm_literal (literal : Expr) (value : Value)
    (known : literal.literal? = some value) (walk : Walk) :
    walkTerm onward evaluator literal walk = pure (walk.add value) := by
  cases literal with
  | text s =>
      cases known
      rfl
  | number n => cases n <;> cases known <;> rfl
  | _ => cases known

theorem walkTerms_pair (name : String) (place : Position) (literal : Expr) (value : Value)
    (known : literal.literal? = some value) (walk : Walk)
    (fresh : walk.options.lookup name = none) :
    walkTerms onward evaluator walk [.option name place, literal] =
      pure ⟨walk.values, (name, value) :: walk.options, place⟩ := by
  have first : walkTerms onward evaluator walk [literal] = pure (walk.add value) := by
    rw [walkTerms_cons]
    exact walkTerm_literal onward evaluator literal value known walk
  rw [walkTerms_cons, first, pure_bind]
  simp only [walkTerm, Walk.takeOption, Walk.add, fresh]
  rfl

-- By induction on the parts, the last one first: a plain term adds to the values only, and a pair
-- to the options only.
theorem walkTerms_parts (parts : List Part) (walk : Walk)
    (distinct : ((Part.bindings parts).map Prod.fst).Nodup)
    (free : ∀ name ∈ (Part.bindings parts).map Prod.fst, walk.options.lookup name = none) :
    walkTerms onward evaluator walk (Part.chain parts) =
      evaluateEach onward evaluator (Part.plains parts) >>= fun values =>
        pure ⟨values ++ walk.values, Part.bindings parts ++ walk.options,
          Part.optionPlace walk.optionPlace parts⟩ := by
  induction parts with
  | nil => rfl
  | cons part rest ih =>
      cases part with
      | plain term stands =>
          have chain : Part.chain (.plain term stands :: rest) = term :: Part.chain rest := rfl
          have plains : Part.plains (.plain term stands :: rest) = term :: Part.plains rest := rfl
          have bindings : Part.bindings (.plain term stands :: rest) = Part.bindings rest := rfl
          rw [bindings] at distinct free
          rw [chain, plains, bindings, walkTerms_cons, ih distinct free, evaluateEach]
          simp only [bind_assoc, pure_bind, walkTerm_plain _ _ _ _ stands]
          rfl
      | pair name place literal value known =>
          have chain : Part.chain (.pair name place literal value known :: rest) =
              [.option name place, literal] ++ Part.chain rest := rfl
          have plains : Part.plains (.pair name place literal value known :: rest) =
              Part.plains rest := rfl
          have bindings : Part.bindings (.pair name place literal value known :: rest) =
              (name, value) :: Part.bindings rest := rfl
          rw [bindings, List.map_cons] at distinct free
          obtain ⟨new, distinct⟩ := List.nodup_cons.mp distinct
          have later := ih distinct fun key member => free key (List.mem_cons_of_mem _ member)
          have fresh : (Part.bindings rest ++ walk.options).lookup name = none := by
            have unused := (lookup_eq_none_iff _ name).mp (free name List.mem_cons_self)
            rw [lookup_eq_none_iff, List.map_append, List.mem_append]
            exact fun found => found.elim new unused
          rw [chain, plains, bindings, walkTerms_append, later]
          simp only [bind_assoc, pure_bind]
          apply bind_congr
          intro values
          exact walkTerms_pair onward evaluator name place literal value known _ fresh

end

/-! The chain. -/

/-- Whether two runs end alike, but for the place that is named if options are left in the end. -/
inductive SameButLastOption {α : Type} :
    EStateM.Result Halt World α → EStateM.Result Halt World α → Prop where
  | same (result : EStateM.Result Halt World α) : SameButLastOption result result
  | dangling (names : List String) (p q : Position) (after : World) :
      SameButLastOption (.error (.fault (.danglingOptions names p)) after)
        (.error (.fault (.danglingOptions names q)) after)

theorem SameButLastOption.of_ok {α : Type} {left right : EStateM.Result Halt World α}
    (same : SameButLastOption left right) (a : α) (after : World) (ended : left = .ok a after) :
    right = .ok a after := by
  cases same with
  | same => exact ended
  | dangling => cases ended

theorem result_reordered {walk other : Walk} (reordered : walk.Reordered other)
    (place : Position) (world : World) :
    SameButLastOption (Run.ofExcept (walk.result place) world)
      (Run.ofExcept (other.result place) world) := by
  obtain ⟨values, options, last⟩ := walk
  obtain ⟨values', options', last'⟩ := other
  obtain ⟨same, moved, _⟩ := reordered
  obtain rfl : values = values' := same
  cases options with
  | nil =>
      obtain rfl : options' = [] := List.nil_perm.mp moved
      rcases values with _ | ⟨value, _ | ⟨second, rest⟩⟩ <;> exact .same _
  | cons first rest =>
      obtain ⟨first', rest', rfl⟩ : ∃ first' rest', options' = first' :: rest' := by
        apply List.exists_cons_of_ne_nil
        rintro rfl
        exact absurd (List.perm_nil.mp moved) (List.cons_ne_nil _ _)
      simp only [Walk.result, sortedNames_perm (moved.map Prod.fst)]
      exact .dangling _ _ _ world

theorem chainPlace_front (before : List Expr) (name : String) (place : Position)
    (rest rest' : List Expr) :
    Expr.chainPlace (before ++ [.identifier name place] ++ rest) =
      Expr.chainPlace (before ++ [.identifier name place] ++ rest') := by
  have head : Expr.firstPosition? [.identifier name place] = some place := rfl
  simp only [Expr.chainPlace, firstPosition?_append, head]
  cases Expr.firstPosition? before <;> rfl

section

variable (evaluator : Evaluator) {parts parts' : List Part} (behind : List Expr) (world : World)
  (moved : parts.Perm parts') (order : Part.plains parts = Part.plains parts')
  (distinct : ((Part.bindings parts).map Prod.fst).Nodup)
  (free : ∀ walk after, evaluator.walkChain behind world = .ok walk after →
    ∀ name ∈ (Part.bindings parts).map Prod.fst, walk.options.lookup name = none)

include moved order distinct free

theorem walkTerms_rearranged (place : Position) :
    EndsReordered
      (walkTerms evaluator.onward evaluator (.start place) (Part.chain parts ++ behind) world)
      (walkTerms evaluator.onward evaluator (.start place) (Part.chain parts' ++ behind)
        world) := by
  rw [walkTerms_append, walkTerms_append]
  simp only [Bind.bind, EStateM.bind]
  cases reached : walkTerms evaluator.onward evaluator (.start place) behind world with
  | error halt after => exact .error halt after
  | ok walk after =>
      -- What is pending does not depend on where the chain begins.
      have ends := walkTerms_over evaluator.onward evaluator behind
        (Walk.Over.start place (Expr.chainPlace behind)) world (.inl rfl)
      obtain ⟨alone, reached', above⟩ := ends.exists_of_ok walk after reached
      have walked : evaluator.walkBehind behind behind world = .ok alone after := reached'
      have pending : (walk.options.map Prod.fst).Nodup :=
        above.options ▸ Evaluator.options_distinct walked
      have unused := free alone after reached'
      rw [above.options] at unused
      have names := (moved.filterMap Part.binding?).map Prod.fst
      have unused' : ∀ key ∈ (Part.bindings parts').map Prod.fst,
          walk.options.lookup key = none :=
        fun key member => unused key (names.mem_iff.mpr member)
      have left := walkTerms_parts evaluator.onward evaluator parts walk distinct unused
      have right := walkTerms_parts evaluator.onward evaluator parts' walk
        (names.nodup_iff.mp distinct) unused'
      simp only [left, right, ← order, Bind.bind, EStateM.bind]
      cases evaluateEach evaluator.onward evaluator (Part.plains parts) after with
      | error halt last => exact .error halt last
      | ok values last =>
          refine .ok _ _ last ⟨rfl, (moved.filterMap Part.binding?).append_right _, ?_⟩
          simp only [List.map_append]
          refine List.nodup_append.mpr ⟨distinct, pending, ?_⟩
          rintro key new _ old rfl
          exact (lookup_eq_none_iff _ _).mp (unused key new) old

end

/-- It does not matter where the options behind a word stand, nor in which order, as long as each
one stands right in front of the literal that it takes. No two of them may have one name, and none
may have the name of an option that is pending behind them. If the other terms keep their order, the
chain ends with the same value or the same fault, and in the same world. Only if options are left in
the end another place may be named. -/
theorem evaluate_rearranged (evaluator : Evaluator) (before behind : List Expr) (name : String)
    (place : Position) (parts parts' : List Part) (world : World) (moved : parts.Perm parts')
    (order : Part.plains parts = Part.plains parts')
    (distinct : ((Part.bindings parts).map Prod.fst).Nodup)
    (free : ∀ walk after, evaluator.walkChain behind world = .ok walk after →
      ∀ name ∈ (Part.bindings parts).map Prod.fst, walk.options.lookup name = none) :
    SameButLastOption
      (evaluator.evaluate
        (.chain (before ++ [.identifier name place] ++ (Part.chain parts ++ behind))) world)
      (evaluator.evaluate
        (.chain (before ++ [.identifier name place] ++ (Part.chain parts' ++ behind))) world) := by
  have start := chainPlace_front before name place (Part.chain parts ++ behind)
    (Part.chain parts' ++ behind)
  have ends := walkTerms_rearranged evaluator behind world moved order distinct free
    (Expr.chainPlace (before ++ [.identifier name place] ++ (Part.chain parts' ++ behind)))
  rw [evaluator.evaluate_chain, evaluator.evaluate_chain, Evaluator.walkChain, Evaluator.walkChain,
    start, walkTerms_append, walkTerms_append _ _ _ _ (Part.chain parts' ++ behind), bind_assoc,
    bind_assoc]
  apply ends.bind
  · exact fun halt after => .same _
  · intro walk other after reordered
    have front := walkTerms_reordered reordered evaluator.onward evaluator after
      (before ++ [.identifier name place])
    apply front.bind
    · exact fun halt after => .same _
    · exact fun walk other last still => result_reordered still _ last

/-- `join --sep "-" "a" "b"` is `join "a" --sep "-" "b"`. -/
theorem evaluate_rearranged_join :
    Evaluator.evaluate {} (.chain [.identifier "join" ⟨0, 1⟩, .text "a", .option "sep" ⟨5, 1⟩,
      .text "-", .text "b"]) .initial = .ok (.text "a-b") .initial := by
  have a : Expr.IsPlain (.text "a") := trivial
  have b : Expr.IsPlain (.text "b") := trivial
  have sep : Expr.literal? (.text "-") = some (.text "-") := rfl
  have same := evaluate_rearranged {} [] [] "join" ⟨0, 1⟩
    [.pair "sep" ⟨5, 1⟩ _ _ sep, .plain _ a, .plain _ b]
    [.plain _ a, .pair "sep" ⟨5, 1⟩ _ _ sep, .plain _ b] .initial (.swap _ _ _) rfl
    (List.nodup_singleton "sep")
    (by
      rintro walk after reached name _
      cases reached
      rfl)
  exact same.of_ok _ _ evaluate_join

end ChainScript
