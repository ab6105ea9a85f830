import ChainScript.Proofs.Faults
import ChainScript.Proofs.Growth
import ChainScript.Proofs.Hygiene
import Mathlib.Data.List.Nodup

/-!
Forcing undoes quoting. A quoted term that a method forces is evaluated as the term itself would
be, one level deeper, and its faults come out as they are. So a lazy choice is the branch that it
takes.
-/

namespace ChainScript

/-- What one more level of depth makes of an end: the same value in the same world or the same
fault, but for the number in a complaint about too much depth. -/
inductive Deepened (limit : Nat) :
    EStateM.Result Halt World Value → EStateM.Result Halt World Value → Prop where
  | ok (value : Value) (after : World) : Deepened limit (.ok value after) (.ok value after)
  | fault (cause : Fault) (after : World) :
      Deepened limit (.error (.fault cause) after) (.error (.fault cause) after)
  | tooDeep (method : String) (place : Position) (after : World) :
      Deepened limit (.error (.fault (.inMethod method (.tooDeep limit) place)) after)
        (.error (.fault (.inMethod method (.tooDeep (limit + 1)) place)) after)

/-- Whether the words that choose what to evaluate mean what they do in the prelude. -/
structure ControlWords (evaluator : Evaluator) (env : Environment) : Prop where
  called : ∀ name ∈ ["run", "if", "and", "or"], (evaluator.called? env name).isSome
  holds : evaluator.seen? env "true" = some (.bool true)
  fails : evaluator.seen? env "false" = some (.bool false)

/-- The evaluator that lets deferred values nest one level further. -/
def Evaluator.deeper (evaluator : Evaluator) : Evaluator :=
  { evaluator with maxDepth := evaluator.maxDepth + 1 }

def Evaluator.inward (evaluator : Evaluator) : Evaluator :=
  { evaluator with depth := evaluator.depth + 1 }

theorem Deepened.ok_of_ok {limit : Nat} {left right : EStateM.Result Halt World Value}
    (ends : Deepened limit left right) {value : Value} {after : World}
    (ended : right = .ok value after) : left = .ok value after := by
  subst ended
  cases ends
  rfl

/-! One level deeper. -/

/-- Likeness of a run to the same run with one more level of depth. -/
def Likeness.deepened (limit : Nat) : Likeness :=
  samePlaces (fun low high => low = limit ∧ high = limit + 1) True

section

variable {likeness : Likeness}

mutual

theorem Value.eq_of_alike (fixed : ∀ p q, likeness.place p q → p = q) (whole : likeness.whole)
    (v w : Value) (alike : v.Alike likeness w) : v = w := by
  cases alike with
  | list items others alike => rw [Value.all_eq_of_alike fixed whole items others alike]
  | deferred body other scope outer bodies agree captured =>
      rw [body.eq_of_alike fixed other bodies,
        Bindings.eq_of_alike fixed whole scope outer (captured whole)]
  | _ => rfl

theorem Value.all_eq_of_alike (fixed : ∀ p q, likeness.place p q → p = q)
    (whole : likeness.whole) (items others : List Value)
    (alike : List.Forall₂ (Value.Alike likeness) items others) : items = others := by
  cases alike with
  | nil => rfl
  | cons first rest =>
      rw [Value.eq_of_alike fixed whole _ _ first, Value.all_eq_of_alike fixed whole _ _ rest]

theorem Bindings.eq_of_alike (fixed : ∀ p q, likeness.place p q → p = q)
    (whole : likeness.whole) (scope outer : Bindings)
    (alike : BindingsAlike likeness scope outer) : scope = outer := by
  cases alike with
  | nil => rfl
  | cons first rest =>
      cases first with
      | mk name v w values =>
          rw [Value.eq_of_alike fixed whole v w values, Bindings.eq_of_alike fixed whole _ _ rest]

end

theorem World.eq_of_alike (fixed : ∀ p q, likeness.place p q → p = q) (whole : likeness.whole)
    (left right : World) (alike : left.Alike likeness right) : left = right := by
  have frame (left right : Frame) (alike : left.Alike likeness right) : left = right := by
    have bindings := Bindings.eq_of_alike fixed whole _ _ alike.bindings
    cases left
    cases right
    rw [Frame.mk.injEq]
    exact ⟨alike.methods, bindings, alike.converters⟩
  have below : left.env.below = right.env.below := by
    have same := map_eq_of_forall₂ id frame _ _ alike.env.below
    rwa [List.map_id, List.map_id] at same
  obtain ⟨⟨top, frames⟩, counters⟩ := left
  obtain ⟨⟨top', frames'⟩, counters'⟩ := right
  rw [World.mk.injEq, Environment.mk.injEq]
  exact ⟨⟨frame _ _ alike.env.top, below⟩, alike.counters⟩

-- Only a complaint about depth tells the two runs apart, and by then it has its call.
theorem deepened_of_alike (limit : Nat) (left right : EStateM.Result Halt World Value)
    (ends : EndsAlike (.deepened limit) (Value.Alike (.deepened limit)) left right)
    (attributed : ∀ halt after, left = .error halt after → halt.Attributed) :
    Deepened limit left right := by
  have fixed : ∀ p q, (Likeness.deepened limit).place p q → p = q := fun _ _ => id
  cases ends with
  | ok v w world other values worlds =>
      rw [Value.eq_of_alike fixed trivial v w values,
        World.eq_of_alike fixed trivial world other worlds]
      exact .ok w other
  | fault f g world other faults worlds =>
      rw [World.eq_of_alike fixed trivial world other worlds]
      cases faults with
      | complaint cause other causes => exact absurd (attributed _ _ rfl) id
      | inMethod method cause other p q causes places =>
          rw [fixed p q places]
          cases causes with
          | same cause => exact .fault _ _
          | tooDeep low high limits =>
              rw [limits.1, limits.2]
              exact .tooDeep method q _
      | canceled => exact .fault _ _
      | _ =>
          next places =>
            rw [fixed _ _ places]
            exact .fault _ _

end

theorem evaluate_deepened (evaluator : Evaluator) (e : Expr) (world : World)
    (prelude : PreludeOnly world.env) :
    Deepened evaluator.maxDepth (evaluator.evaluate e world)
      (evaluator.deeper.inward.evaluate e world) := by
  have places : ∀ p, (Likeness.deepened evaluator.maxDepth).place p p := fun _ => rfl
  have all : ∀ name, (Likeness.deepened evaluator.maxDepth).named name := fun _ => trivial
  have evaluators :
      evaluator.Alike (.deepened evaluator.maxDepth) e.names evaluator.deeper.inward := by
    have scope := BindingsAlike.refl places all evaluator.scope
    constructor
    · exact fun name _ => BindingsAlike.lookup _ _ scope name
    · rfl
    · exact fun _ name _ => BindingsAlike.lookup _ _ scope name
    · simp only [Evaluator.deeper, Evaluator.inward]
      omega
    · exact ⟨rfl, rfl⟩
    · exact fun _ => scope
  apply deepened_of_alike
  · exact evaluate_alike _ _ e e (e.alike_refl places all) evaluators world world
      (world.alike_refl places all prelude)
  · rw [Evaluator.evaluate_eq_evaluateTerm]
    exact evaluateTerm_attributed _ _ e world

/-! Quoted terms. -/

namespace Evaluator

variable (evaluator : Evaluator)

theorem runDeferred_onward (runner : Evaluator) (depth : runner.depth = evaluator.depth)
    (limit : runner.maxDepth = evaluator.maxDepth) (deferred : Deferred) :
    runDeferred evaluator.onward runner deferred = runner.evaluateDeferred deferred := by
  unfold evaluateDeferred runDeferred
  by_cases deep : runner.maxDepth ≤ runner.depth
  · rw [if_pos deep, if_pos deep]
  · rw [if_neg deep, if_neg deep]
    have within : (runner.inside deferred).evaluate deferred.body =
        evaluateWithin (evaluateUpTo (callbackLimit - 1)) (runner.maxDepth - (runner.depth + 1))
          (runner.inside deferred) deferred.body := rfl
    obtain ⟨levels, further⟩ : ∃ levels, evaluator.maxDepth - evaluator.depth = levels + 1 :=
      ⟨evaluator.maxDepth - evaluator.depth - 1, by omega⟩
    have here : runner.maxDepth - (runner.depth + 1) = levels := by omega
    simp only [onward, further, within, here]

theorem evaluateDeferred_deep (deep : evaluator.maxDepth ≤ evaluator.depth)
    (deferred : Deferred) :
    evaluator.evaluateDeferred deferred =
      Run.fault (.complaint (.tooDeep evaluator.maxDepth)) :=
  if_pos deep

theorem evaluateDeferred_eq (room : evaluator.depth < evaluator.maxDepth) (deferred : Deferred) :
    evaluator.evaluateDeferred deferred = (evaluator.inside deferred).evaluate deferred.body :=
  if_neg (Nat.not_le.mpr room)

/-- A quoted term is forced one level further in, with the transients of the place where it
stands. -/
theorem runDeferred_quoted (t : Expr) (plain : evaluator.extended = false)
    (room : evaluator.depth < evaluator.maxDepth) :
    runDeferred evaluator.onward evaluator ⟨t, evaluator.scope⟩ = evaluator.inward.evaluate t := by
  have inside : evaluator.inside ⟨t, evaluator.scope⟩ = evaluator.inward := by
    simp [Evaluator.inside, inward, plain]
  rw [evaluator.runDeferred_onward evaluator rfl rfl, evaluator.evaluateDeferred_eq room, inside]

end Evaluator

/-! Methods that force. -/

section

variable (onward : Onward) (evaluator : Evaluator) (t : Expr) (scope : Bindings)

theorem perform_answer (result : Except Fault Value) (options : Options) :
    perform onward evaluator (.andThen .answer result) options = pure (result, options) := by
  cases result <;> rfl

theorem perform_force :
    perform onward evaluator (.force (.deferred t scope) .answer) ⟨[], []⟩ =
      (runDeferred onward evaluator ⟨t, scope⟩).attempt >>= fun result =>
        pure (result, ⟨[], []⟩) := by
  have forced : perform onward evaluator (.force (.deferred t scope) .answer) ⟨[], []⟩ =
      (runDeferred onward evaluator ⟨t, scope⟩).attempt >>= fun result =>
        perform onward evaluator (.andThen .answer result) ⟨[], []⟩ := rfl
  simp only [forced, perform_answer]

def asBool (value : Value) : Run Value :=
  Run.ask (·.expect .bool value) >>= fun result => Run.ofExcept (result.map .bool)

theorem perform_forceBool :
    perform onward evaluator (Prelude.forceBool (.deferred t scope)) ⟨[], []⟩ =
      (runDeferred onward evaluator ⟨t, scope⟩ >>= asBool).attempt >>= fun result =>
        pure (result, ⟨[], []⟩) := by
  have forced : perform onward evaluator (Prelude.forceBool (.deferred t scope)) ⟨[], []⟩ =
      (runDeferred onward evaluator ⟨t, scope⟩).attempt >>= fun result =>
        perform onward evaluator (.andThen (fun forced => .expect .bool forced fun holds =>
          .answer (.bool holds)) result) ⟨[], []⟩ := rfl
  rw [forced]
  funext world
  simp only [Bind.bind, EStateM.bind, Run.attempt]
  cases runDeferred onward evaluator ⟨t, scope⟩ world with
  | error halt after => cases halt <;> rfl
  | ok value after =>
      have asked : asBool value after = Run.ofExcept ((after.env.expect .bool value).map .bool)
          after := rfl
      have performed : perform onward evaluator (.andThen (fun forced => .expect .bool forced
          fun holds => .answer (.bool holds)) (.ok value)) ⟨[], []⟩ after =
            perform onward evaluator (.andThen (fun holds => .answer (.bool holds))
              (after.env.expect .bool value)) ⟨[], []⟩ after := rfl
      simp only [asked, performed]
      cases after.env.expect .bool value <;> rfl

end

theorem bind_asBool (run : Run Value) (world : World)
    (decides : ∀ value after, run world = .ok value after → ∃ b, value = .bool b) :
    (run >>= asBool) world = run world := by
  simp only [Bind.bind, EStateM.bind]
  cases ended : run world with
  | error halt after => rfl
  | ok value after =>
      obtain ⟨b, rfl⟩ := decides value after ended
      rfl

/-! Words for control flow. -/

theorem Prelude.run_known : (⟨"run", 1, false, runBody⟩ : Method) ∈ methods := by
  simp [methods, bindingMethods]

theorem Prelude.if_known : (⟨"if", 3, false, ifBody⟩ : Method) ∈ methods := by
  simp [methods, bindingMethods]

theorem Prelude.and_known : (⟨"and", 2, false, andBody⟩ : Method) ∈ methods := by
  simp [methods, logicMethods]

theorem Prelude.or_known : (⟨"or", 2, false, orBody⟩ : Method) ∈ methods := by
  simp [methods, logicMethods]

theorem Prelude.method_of_name (left right : Method) (known : left ∈ Prelude.methods)
    (known' : right ∈ Prelude.methods) (same : left.name = right.name) : left = right := by
  have distinct : (Prelude.methods.map Method.name).Nodup := by decide
  exact List.inj_on_of_nodup_map distinct known known' same

namespace Evaluator

variable (evaluator : Evaluator)

theorem called?_name (env : Environment) (name : String) (method : Method)
    (called : evaluator.called? env name = some method) : method.name = name := by
  obtain ⟨frame, _, here⟩ :=
    List.exists_of_findSome?_eq_some (evaluator.method?_of_called? env name method called)
  simpa using List.find?_some here

theorem called?_known (world : World) (prelude : PreludeOnly world.env) (method : Method)
    (known : method ∈ Prelude.methods)
    (called : (evaluator.called? world.env method.name).isSome) :
    evaluator.called? world.env method.name = some method := by
  obtain ⟨other, called⟩ := Option.isSome_iff_exists.mp called
  rw [called, Prelude.method_of_name other method
    (mem_of_called? method.name other prelude.methods called) known
    (evaluator.called?_name world.env method.name other called)]

theorem walk_choice (world : World) (name : String) (b : Bool) (place q : Position)
    (terms : List Expr) (seen : evaluator.seen? world.env name = some (.bool b)) :
    walkTerms evaluator.onward evaluator (.start place)
        (.identifier name q :: terms.map .deferred) world =
      .ok ⟨.bool b :: terms.map fun t => .deferred t evaluator.scope, [], place⟩ world := by
  have quoted : walkTerms evaluator.onward evaluator (.start place) (terms.map .deferred) world =
      .ok ⟨terms.map fun t => .deferred t evaluator.scope, [], place⟩ world := by
    induction terms with
    | nil => rfl
    | cons t rest ih =>
        rw [List.map_cons, walkTerms_cons]
        simp only [Bind.bind, EStateM.bind, ih]
        rfl
  rw [walkTerms_cons]
  simp only [Bind.bind, EStateM.bind, quoted, walkTerm]
  exact resolve_seen _ _ _ _ _ _ _ seen

theorem runDeferred_asBool (plain : evaluator.extended = false)
    (room : evaluator.depth < evaluator.maxDepth) (t : Expr) (world : World)
    (decides : ∀ value after, evaluator.inward.evaluate t world = .ok value after →
      ∃ b, value = .bool b) :
    (runDeferred evaluator.onward evaluator ⟨t, evaluator.scope⟩ >>= asBool) world =
      evaluator.inward.evaluate t world := by
  rw [evaluator.runDeferred_quoted t plain room]
  exact bind_asBool _ world decides

section

variable {evaluator} {world : World} (prelude : PreludeOnly world.env)
  (words : ControlWords evaluator world.env)

include prelude words

theorem called?_word (method : Method) (known : method ∈ Prelude.methods)
    (word : method.name ∈ ["run", "if", "and", "or"]) :
    evaluator.called? world.env method.name = some method :=
  evaluator.called?_known world prelude method known (words.called method.name word)

theorem evaluate_word (method : Method) (known : method ∈ Prelude.methods)
    (word : method.name ∈ ["run", "if", "and", "or"]) (place : Position) (args : List Expr)
    (values : List Value) (run : Run Value) (inner : Evaluator) (t : Expr)
    (walked : walkTerms evaluator.onward evaluator (.start place) args world =
      .ok ⟨values, [], place⟩ world)
    (arity : values.length = method.arity)
    (answers : perform evaluator.onward evaluator (method.body values []) ⟨[], []⟩ =
      run.attempt >>= fun result => pure (result, ⟨[], []⟩))
    (same : run world = inner.evaluate t world) :
    evaluator.evaluate (.chain (.identifier method.name place :: args)) world =
      inner.evaluate t world := by
  have called := called?_word prelude words method known word
  rw [evaluator.evaluate_call method.name place args values method run world walked called arity
    (congrFun answers world), ← same]
  -- The call would rename complaints, but none comes out of an evaluation.
  apply attempt_passOn
  rw [same, evaluate_eq_evaluateTerm]
  exact evaluateTerm_attributed _ _ t world

theorem evaluate_run (plain : evaluator.extended = false)
    (room : evaluator.depth < evaluator.maxDepth) (t : Expr) (place : Position) :
    evaluator.evaluate (.chain [.identifier "run" place, .deferred t]) world =
      evaluator.inward.evaluate t world := by
  have forced := congrFun (evaluator.runDeferred_quoted t plain room) world
  exact evaluate_word prelude words _ Prelude.run_known (by decide) place _ _ _ _ t rfl rfl
    (perform_force _ _ _ _) forced

theorem evaluate_if (plain : evaluator.extended = false)
    (room : evaluator.depth < evaluator.maxDepth) (name : String) (holds : Bool)
    (seen : evaluator.seen? world.env name = some (.bool holds)) (yes no : Expr)
    (place q : Position) :
    evaluator.evaluate (.chain [.identifier "if" place, .identifier name q, .deferred yes,
        .deferred no]) world =
      evaluator.inward.evaluate (if holds then yes else no) world := by
  have forced (t : Expr) := congrFun (evaluator.runDeferred_quoted t plain room) world
  have walked := evaluator.walk_choice world name holds place q [yes, no] seen
  cases holds with
  | true =>
      exact evaluate_word prelude words _ Prelude.if_known (by decide) place _ _ _ _ yes walked rfl
        (perform_force _ _ _ _) (forced yes)
  | false =>
      exact evaluate_word prelude words _ Prelude.if_known (by decide) place _ _ _ _ no walked rfl
        (perform_force _ _ _ _) (forced no)

section

variable (plain : evaluator.extended = false) (room : evaluator.depth < evaluator.maxDepth)
  (t : Expr) (place q : Position)
  (decides : ∀ value after, evaluator.inward.evaluate t world = .ok value after →
    ∃ b, value = .bool b)

include plain room decides

theorem evaluate_and_true :
    evaluator.evaluate (.chain [.identifier "and" place, .identifier "true" q, .deferred t])
      world = evaluator.inward.evaluate t world := by
  have walked := evaluator.walk_choice world "true" true place q [t] words.holds
  exact evaluate_word prelude words _ Prelude.and_known (by decide) place _ _ _ _ t walked rfl
    (perform_forceBool _ _ _ _) (evaluator.runDeferred_asBool plain room t world decides)

theorem evaluate_or_false :
    evaluator.evaluate (.chain [.identifier "or" place, .identifier "false" q, .deferred t])
      world = evaluator.inward.evaluate t world := by
  have walked := evaluator.walk_choice world "false" false place q [t] words.fails
  exact evaluate_word prelude words _ Prelude.or_known (by decide) place _ _ _ _ t walked rfl
    (perform_forceBool _ _ _ _) (evaluator.runDeferred_asBool plain room t world decides)

end

theorem evaluate_and_false (t : Expr) (place q : Position) :
    evaluator.evaluate (.chain [.identifier "and" place, .identifier "false" q, .deferred t])
      world = .ok (.bool false) world :=
  evaluator.evaluate_call "and" place _ _ ⟨"and", 2, false, Prelude.andBody⟩ (pure (.bool false))
    world (evaluator.walk_choice world "false" false place q [t] words.fails)
    (called?_word prelude words _ Prelude.and_known (by decide)) rfl rfl

theorem evaluate_or_true (t : Expr) (place q : Position) :
    evaluator.evaluate (.chain [.identifier "or" place, .identifier "true" q, .deferred t])
      world = .ok (.bool true) world :=
  evaluator.evaluate_call "or" place _ _ ⟨"or", 2, false, Prelude.orBody⟩ (pure (.bool true))
    world (evaluator.walk_choice world "true" true place q [t] words.holds)
    (called?_word prelude words _ Prelude.or_known (by decide)) rfl rfl

end

end Evaluator

/-- A quoted term that is run, or that a lazy word chooses, is evaluated as the term itself is, but
for the one level that it takes. A lazy word that is decided already evaluates nothing. -/
theorem evaluate_forced :
    (∀ (evaluator : Evaluator) (t u : Expr) (world : World) (p q : Position),
      evaluator.extended = false → evaluator.depth ≤ evaluator.maxDepth →
      PreludeOnly world.env → ControlWords evaluator world.env →
      Deepened evaluator.maxDepth (evaluator.evaluate t world)
        (evaluator.deeper.evaluate (.chain [.identifier "run" p, .deferred t]) world) ∧
      Deepened evaluator.maxDepth (evaluator.evaluate t world)
        (evaluator.deeper.evaluate (.chain [.identifier "if" p, .identifier "true" q,
          .deferred t, .deferred u]) world) ∧
      Deepened evaluator.maxDepth (evaluator.evaluate t world)
        (evaluator.deeper.evaluate (.chain [.identifier "if" p, .identifier "false" q,
          .deferred u, .deferred t]) world) ∧
      ((∀ value after, evaluator.evaluate t world = .ok value after → ∃ b, value = .bool b) →
        Deepened evaluator.maxDepth (evaluator.evaluate t world)
          (evaluator.deeper.evaluate (.chain [.identifier "and" p, .identifier "true" q,
            .deferred t]) world) ∧
        Deepened evaluator.maxDepth (evaluator.evaluate t world)
          (evaluator.deeper.evaluate (.chain [.identifier "or" p, .identifier "false" q,
            .deferred t]) world))) ∧
    (∀ (evaluator : Evaluator) (t : Expr) (world : World) (p q : Position),
      PreludeOnly world.env → ControlWords evaluator world.env →
      evaluator.evaluate (.chain [.identifier "and" p, .identifier "false" q, .deferred t])
        world = .ok (.bool false) world ∧
      evaluator.evaluate (.chain [.identifier "or" p, .identifier "true" q, .deferred t])
        world = .ok (.bool true) world) := by
  constructor
  · intro evaluator t u world p q plain room prelude words
    have words' : ControlWords evaluator.deeper world.env :=
      ⟨words.called, words.holds, words.fails⟩
    have deeper : evaluator.deeper.depth < evaluator.deeper.maxDepth := Nat.lt_succ_of_le room
    have ends := evaluate_deepened evaluator t world prelude
    refine ⟨?_, ?_, ?_, ?_⟩
    · rw [Evaluator.evaluate_run prelude words' plain deeper t p]
      exact ends
    · rw [Evaluator.evaluate_if prelude words' plain deeper "true" true words.holds t u p q]
      exact ends
    · rw [Evaluator.evaluate_if prelude words' plain deeper "false" false words.fails u t p q]
      exact ends
    · intro decides
      have decided : ∀ value after, evaluator.deeper.inward.evaluate t world = .ok value after →
          ∃ b, value = .bool b :=
        fun value after ended => decides value after (ends.ok_of_ok ended)
      constructor
      · rw [Evaluator.evaluate_and_true prelude words' plain deeper t p q decided]
        exact ends
      · rw [Evaluator.evaluate_or_false prelude words' plain deeper t p q decided]
        exact ends
  · intro evaluator t world p q prelude words
    constructor
    · exact Evaluator.evaluate_and_false prelude words t p q
    · exact Evaluator.evaluate_or_true prelude words t p q

theorem controlWords_environment : ControlWords {} Prelude.environment := by
  constructor
  · intro name word
    have words : name = "run" ∨ name = "if" ∨ name = "and" ∨ name = "or" := by simpa using word
    rcases words with rfl | rfl | rfl | rfl <;> rfl
  · rfl
  · rfl

theorem evaluate_forced_constant :
    PreludeOnly Prelude.environment ∧ ControlWords {} Prelude.environment ∧
    Deepened 256
      (Evaluator.evaluate {} (.identifier "true" ⟨5, 1⟩) { env := Prelude.environment })
      (Evaluator.evaluate { maxDepth := 257 } (.chain [.identifier "and" ⟨0, 1⟩,
        .identifier "true" ⟨4, 1⟩, .deferred (.identifier "true" ⟨5, 1⟩)])
        { env := Prelude.environment }) ∧
    Evaluator.evaluate {} (.chain [.identifier "or" ⟨0, 1⟩, .identifier "true" ⟨3, 1⟩,
        .deferred (.chain [])]) { env := Prelude.environment } =
      .ok (.bool true) { env := Prelude.environment } := by
  have constant : Evaluator.evaluate {} (.identifier "true" ⟨5, 1⟩)
      { env := Prelude.environment } = .ok (.bool true) { env := Prelude.environment } :=
    Evaluator.evaluate_variable {} "true" _ _ _ rfl rfl
  refine ⟨preludeOnly_environment, controlWords_environment, ?_, ?_⟩
  · have forced := evaluate_forced.1 {} (.identifier "true" ⟨5, 1⟩) (.chain [])
      { env := Prelude.environment } ⟨0, 1⟩ ⟨4, 1⟩ rfl (by decide) preludeOnly_environment
      controlWords_environment
    refine (forced.2.2.2 ?_).1
    intro value after ended
    rw [constant] at ended
    cases ended
    exact ⟨true, rfl⟩
  · exact (evaluate_forced.2 {} (.chain []) { env := Prelude.environment } ⟨0, 1⟩ ⟨3, 1⟩
      preludeOnly_environment controlWords_environment).2

end ChainScript
