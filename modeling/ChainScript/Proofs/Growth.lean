import ChainScript.Proofs.RunInvariant

/-!
Scripts only ever add variables to the top frame. Over the methods of the prelude an evaluation
ends with a value or a fault, and in both cases it has taken nothing away and changed nothing that
was there; if it has not called `set`, it has changed nothing at all.
-/

namespace ChainScript

/-- Whether an environment is another one, perhaps with more variables in its top frame. -/
structure Environment.Extends (after before : Environment) : Prop where
  below : after.below = before.below
  methods : after.top.methods = before.top.methods
  converters : after.top.converters = before.top.converters
  kept : ∀ name value, before.top.value? name = some value → after.top.value? name = some value

/-- What an evaluation does to a world: the environment grows, and stands still if it is quiet. -/
structure World.Grows (quiet : Prop) (before after : World) : Prop where
  env : after.env.Extends before.env
  counters : after.counters = before.counters
  still : quiet → after = before

inductive Grown {α : Type} (quiet : Prop) (before : World) :
    EStateM.Result Halt World α → Prop where
  | ok (a : α) (after : World) (grows : before.Grows quiet after) : Grown quiet before (.ok a after)
  | fault (cause : Fault) (after : World) (grows : before.Grows quiet after) :
      Grown quiet before (.error (.fault cause) after)

def PreludeMethods (env : Environment) : Prop :=
  ∀ frame ∈ env.frames, ∀ method ∈ frame.methods, method ∈ Prelude.methods

def Quiet (calls : List Call) : Prop := ∀ call ∈ calls, call.method.name ≠ "set"

section

variable {quiet : Prop}

namespace Environment

theorem Extends.refl (env : Environment) : env.Extends env :=
  ⟨rfl, rfl, rfl, fun _ _ found => found⟩

theorem Extends.trans {first second third : Environment} (later : third.Extends second)
    (sooner : second.Extends first) : third.Extends first := by
  constructor
  · exact later.below.trans sooner.below
  · exact later.methods.trans sooner.methods
  · exact later.converters.trans sooner.converters
  · intro name value found
    exact later.kept name value (sooner.kept name value found)

theorem Extends.depth {after before : Environment} (extends' : after.Extends before) :
    after.depth = before.depth := by
  simp only [Environment.depth, Environment.frames, List.length_cons, extends'.below]

theorem Extends.prelude {after before : Environment} (extends' : after.Extends before)
    (prelude : PreludeMethods before) : PreludeMethods after := by
  intro frame member method found
  rcases List.mem_cons.mp member with rfl | below
  · rw [extends'.methods] at found
    exact prelude before.top List.mem_cons_self method found
  · rw [extends'.below] at below
    exact prelude frame (List.mem_cons_of_mem _ below) method found

theorem extends_declare (env after : Environment) (name : String) (value : Value)
    (declared : env.declare name value = .ok after) : after.Extends env := by
  unfold declare at declared
  split at declared
  · cases declared
  · next fresh =>
      cases declared
      refine ⟨rfl, rfl, rfl, ?_⟩
      intro other old found
      have different : other ≠ name := by
        rintro rfl
        rw [fresh] at found
        cases found
      simpa [Frame.value?, List.lookup_cons, beq_eq_false_iff_ne.mpr different] using found

end Environment

namespace World.Grows

theorem refl (world : World) : world.Grows quiet world :=
  ⟨.refl _, rfl, fun _ => rfl⟩

theorem trans {first second third : World} (sooner : first.Grows quiet second)
    (later : second.Grows quiet third) : first.Grows quiet third :=
  ⟨later.env.trans sooner.env, later.counters.trans sooner.counters,
    fun still => (later.still still).trans (sooner.still still)⟩

end World.Grows

end

/-! Runs. -/

theorem Grown.raise {quiet : Prop} {α : Type} {world : World} (cause : Fault) :
    Grown quiet world ((Run.fault cause : Run α) world) :=
  .fault cause world (.refl world)

theorem Grown.mono {quiet less : Prop} {α : Type} {world : World}
    {result : EStateM.Result Halt World α} (grown : Grown quiet world result)
    (implies : less → quiet) : Grown less world result := by
  cases grown with
  | ok a after grows => exact .ok a after ⟨grows.env, grows.counters, grows.still ∘ implies⟩
  | fault cause after grows =>
      exact .fault cause after ⟨grows.env, grows.counters, grows.still ∘ implies⟩

theorem Grown.worldAfter {quiet : Prop} {α : Type} {world : World}
    {result : EStateM.Result Halt World α} (grown : Grown quiet world result) :
    world.Grows quiet (worldAfter result) := by
  cases grown with
  | ok a after grows => exact grows
  | fault cause after grows => exact grows

/-! Evaluation. -/

theorem PreludeMethods.of_method? {env : Environment} (prelude : PreludeMethods env)
    (name : String) (method : Method) (found : env.method? name = some method) :
    method ∈ Prelude.methods := by
  obtain ⟨frame, member, here⟩ := List.exists_of_findSome?_eq_some found
  exact prelude frame member method (List.mem_of_find?_eq_some here)

theorem mem_of_called? {evaluator : Evaluator} {world : World} (name : String) (method : Method)
    (prelude : PreludeMethods world.env)
    (called : evaluator.called? world.env name = some method) : method ∈ Prelude.methods :=
  prelude.of_method? name method (evaluator.method?_of_called? world.env name method called)

/-- Over the prelude a run grows the world and does not stop. It is quiet as long as only words
other than `set` are called. -/
def growing (quiet : Prop) : RunInvariant Journal.calls where
  toSetting := .everywhere (fun world => PreludeMethods world.env) fun method =>
    method ∈ Prelude.methods ∧ (quiet → method.name ≠ "set")
  admits call := quiet → call.method.name ≠ "set"
  comes _ before _ after course := before.Grows quiet after ∧ course ≠ .stops
  refl := ⟨.refl _, Course.noConfusion⟩
  trans sooner later := ⟨sooner.1.trans later.1, later.2⟩
  reached comes := comes
  called := ⟨.refl _, Course.noConfusion⟩
  callable_called _ name call prelude found admitted :=
    ⟨prelude.of_method? name call.method found, admitted call (List.mem_singleton_self call)⟩
  complains _ := ⟨.refl _, Course.noConfusion⟩
  catches comes := ⟨comes.1, Course.noConfusion⟩
  enters _ comes := comes
  answers := ⟨.refl _, Course.noConfusion⟩
  attributes _ comes := ⟨comes.1, Course.noConfusion⟩
  objects _ _ := ⟨.refl _, Course.noConfusion⟩
  unconsumed _ _ _ _ _ := ⟨.refl _, Course.noConfusion⟩

section

variable {quiet : Prop}

theorem declares_growing (loud : ¬ quiet) : (growing quiet).Declares := by
  intro levels world name value env prelude _ declared
  have grows := Environment.extends_declare _ _ name value declared
  exact ⟨grows.prelude prelude, ⟨grows, rfl, fun still => absurd still loud⟩, Course.noConfusion⟩

-- Where the run is quiet, `set` is not callable.
theorem methodsAnswer_growing {onward : Onward} {inner : OnwardLog Call} {evaluator : Evaluator}
    (bodies : (growing quiet).BodiesEnd onward inner evaluator) :
    (growing quiet).MethodsAnswer onward inner evaluator := by
  apply RunInvariant.methodsAnswer_of_prelude bodies
  · exact fun method callable => callable.1
  · exact fun method callable set => declares_growing fun still => callable.2 still set

theorem grown_of_holds {α : Type} {good : α → Prop} {levels : Nat} {world : World}
    {calls : List Call} {result : EStateM.Result Halt World α}
    (holds : (growing quiet).HoldsRun levels good world calls result)
    (admitted : quiet → Quiet calls) : Grown quiet world result := by
  obtain ⟨⟨grows, goes⟩, -⟩ := holds fun call member still => admitted still call member
  cases result with
  | ok a after => exact .ok a after grows
  | error halt after =>
      cases halt with
      | fault cause => exact .fault cause after grows
      | panic text => exact absurd rfl goes
      | exhausted => exact absurd rfl goes

end

theorem evaluate_grown (evaluator : Evaluator) (e : Expr) (world : World)
    (prelude : PreludeMethods world.env) :
    Grown (Quiet (evaluator.calls e world)) world (evaluator.evaluate e world) := by
  have holds := (growing (Quiet (evaluator.calls e world))).evaluate_holds
    (fun _ _ _ => methodsAnswer_growing) evaluator (quoting_true evaluator.scope) e trivial world
    prelude
  exact grown_of_holds holds id

/-! Scripts one after the other. -/

theorem below_declare (name : String) (value : Value) (world : World) :
    (worldAfter (Run.change (·.declare name value) world)).env.below = world.env.below := by
  simp only [Run.change, Environment.declare]
  cases world.env.top.value? name <;> rfl

theorem below_define (method : Method) (world : World) :
    (worldAfter (Run.change (·.define method) world)).env.below = world.env.below := by
  simp only [Run.change, Environment.define]
  cases world.env.top.method? method.name <;> rfl

/-- The world after scripts that are run in turn. A script that fails does not stop the others. -/
def runScripts : List (Evaluator × Expr) → World → World
  | [], world => world
  | (evaluator, e) :: rest, world => runScripts rest (worldAfter (evaluator.evaluate e world))

theorem runScripts_extends (scripts : List (Evaluator × Expr)) (world : World)
    (prelude : PreludeMethods world.env) : (runScripts scripts world).env.Extends world.env := by
  induction scripts generalizing world with
  | nil => exact .refl _
  | cons script rest ih =>
      obtain ⟨evaluator, e⟩ := script
      have first := (evaluate_grown evaluator e world prelude).worldAfter.env
      exact (ih _ (first.prelude prelude)).trans first

theorem Environment.value?_of_top (env : Environment) (name : String) (value : Value)
    (declared : env.top.value? name = some value) : env.value? name = some value := by
  simp only [Environment.value?, Environment.frames, List.findSome?_cons, declared]

theorem Evaluator.evaluate_variable (evaluator : Evaluator) (name : String) (place : Position)
    (value : Value) (world : World) (free : evaluator.transient? name = none)
    (declared : world.env.value? name = some value) :
    evaluator.evaluate (.identifier name place) world = .ok value world := by
  have seen : evaluator.seen? world.env name = some value := by
    simp [Evaluator.seen?, free, declared]
  rw [evaluate_eq_evaluateTerm]
  simp only [evaluateTerm, Bind.bind, EStateM.bind, resolve_seen _ _ _ _ _ _ value seen]
  rfl

/-- Over the methods of the prelude an evaluation ends with a value or a fault, and either way it
has at most added variables to the top frame. It leaves everything as it was unless it calls `set`.
So a variable of the top frame reads the same after any scripts. -/
theorem evaluate_extends :
    (∀ (evaluator : Evaluator) (e : Expr) (world : World), PreludeMethods world.env →
      ∃ after : World,
        ((∃ value, evaluator.evaluate e world = .ok value after) ∨
          ∃ cause, evaluator.evaluate e world = .error (.fault cause) after) ∧
        after.env.depth = world.env.depth ∧ after.env.Extends world.env ∧
        ((∀ call ∈ evaluator.calls e world, call.method.name ≠ "set") → after = world)) ∧
    (∀ (scripts : List (Evaluator × Expr)) (world : World) (name : String) (value : Value),
      PreludeMethods world.env → world.env.top.value? name = some value →
      ∀ (reader : Evaluator) (place : Position), reader.transient? name = none →
        reader.evaluate (.identifier name place) (runScripts scripts world) =
          .ok value (runScripts scripts world)) := by
  constructor
  · intro evaluator e world prelude
    have grown := evaluate_grown evaluator e world prelude
    generalize evaluator.evaluate e world = result at grown ⊢
    cases grown with
    | ok value after grows =>
        exact ⟨after, .inl ⟨value, rfl⟩, grows.env.depth, grows.env, grows.still⟩
    | fault cause after grows =>
        exact ⟨after, .inr ⟨cause, rfl⟩, grows.env.depth, grows.env, grows.still⟩
  · intro scripts world name value prelude declared reader place free
    have kept := (runScripts_extends scripts world prelude).kept name value declared
    exact reader.evaluate_variable name place value _ free
      (Environment.value?_of_top _ name value kept)

theorem preludeMethods_environment : PreludeMethods Prelude.environment := by
  have top : Prelude.environment.top.methods = Prelude.methods.reverse := rfl
  intro frame member method found
  rw [Prelude.frames_environment, List.mem_singleton] at member
  rw [member, top] at found
  exact List.mem_reverse.mp found

theorem evaluate_extends_constant :
    PreludeMethods Prelude.environment ∧
    Prelude.environment.top.value? "true" = some (.bool true) ∧
    (∃ after : World,
      ((∃ value, Evaluator.evaluate {} (.chain [.identifier "list" ⟨0, 1⟩, .number (.int 1)])
          { env := Prelude.environment } = .ok value after) ∨
        ∃ cause, Evaluator.evaluate {} (.chain [.identifier "list" ⟨0, 1⟩, .number (.int 1)])
          { env := Prelude.environment } = .error (.fault cause) after) ∧
      after = { env := Prelude.environment }) ∧
    Evaluator.evaluate {} (.identifier "true" ⟨0, 1⟩)
        (runScripts [({}, .chain [.identifier "set" ⟨0, 1⟩, .text "true", .number (.int 1)])]
          { env := Prelude.environment }) =
      .ok (.bool true)
        (runScripts [({}, .chain [.identifier "set" ⟨0, 1⟩, .text "true", .number (.int 1)])]
          { env := Prelude.environment }) := by
  have constant : Prelude.environment.top.value? "true" = some (.bool true) := rfl
  have calls : (Evaluator.calls {} (.chain [.identifier "list" ⟨0, 1⟩, .number (.int 1)])
      { env := Prelude.environment }).map (·.method.name) = ["list"] := rfl
  obtain ⟨after, ends, _, _, still⟩ := evaluate_extends.1 {} (.chain [.identifier "list" ⟨0, 1⟩,
    .number (.int 1)]) { env := Prelude.environment } preludeMethods_environment
  refine ⟨preludeMethods_environment, constant, ⟨after, ends, still ?_⟩, ?_⟩
  · intro call member
    have called : call.method.name ∈ ["list"] := by
      rw [← calls]
      exact List.mem_map_of_mem member
    rw [List.mem_singleton.mp called]
    decide
  · exact evaluate_extends.2 _ _ "true" (.bool true) preludeMethods_environment constant {} _ rfl

end ChainScript
