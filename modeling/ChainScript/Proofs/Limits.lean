import ChainScript.Proofs.Forcing

/-!
Runs under two depth limits. The methods of the prelude are candid: a fault in a body that they
evaluate is what they answer. So a run that meets the limit ends by it, and every other run is the
same under a higher limit.
-/

namespace ChainScript

/-! Two runs from one world. -/

def EndsBy (hit : Fault → Prop) {α : Type} (result : EStateM.Result Halt World α) : Prop :=
  ∃ cause after, result = .error (.fault cause) after ∧ hit cause

def AnswersBy (hit : Fault → Prop)
    (result : EStateM.Result Halt World (Except Fault Value × Options)) : Prop :=
  ∃ cause options after, result = .ok (.error cause, options) after ∧ hit cause

/-- Whether two runs end in the same way, unless the first one is lost. -/
def SameUnless {α : Type} (lost : EStateM.Result Halt World α → Prop)
    (left right : EStateM.Result Halt World α) : Prop :=
  lost left ∨ left = right

namespace SameUnless

variable {α β : Type} {hit : Fault → Prop} {world : World}

theorem refl (lost : EStateM.Result Halt World α → Prop) (result : EStateM.Result Halt World α) :
    SameUnless lost result result :=
  .inr rfl

theorem bind (run run' : Run α) (next next' : α → Run β)
    (first : SameUnless (EndsBy hit) (run world) (run' world))
    (later : ∀ a after, run world = .ok a after →
      SameUnless (EndsBy hit) (next a after) (next' a after)) :
    SameUnless (EndsBy hit) ((run >>= next) world) ((run' >>= next') world) := by
  simp only [Bind.bind, EStateM.bind]
  rcases first with ⟨cause, after, ended, reason⟩ | same
  · rw [ended]
    exact .inl ⟨cause, after, rfl, reason⟩
  · rw [← same]
    cases ended : run world with
    | ok a after => exact later a after ended
    | error halt after => exact refl _ _

end SameUnless

section

variable {hit : Fault → Prop} {onward onward' : Onward} {left right : Evaluator} {world : World}

theorem perform_andThen_unless {α : Type} (run run' : Run α) (next : α → Routine)
    (options : Options) (first : SameUnless (EndsBy hit) (run world) (run' world))
    (later : ∀ a after, run world = .ok a after →
      SameUnless (AnswersBy hit) (perform onward left (next a) options after)
        (perform onward' right (next a) options after)) :
    SameUnless (AnswersBy hit)
      ((run.attempt >>= fun result => perform onward left (.andThen next result) options) world)
      ((run'.attempt >>= fun result => perform onward' right (.andThen next result) options)
        world) := by
  simp only [Bind.bind, EStateM.bind, Run.attempt]
  rcases first with ⟨cause, after, ended, reason⟩ | same
  · rw [ended]
    exact .inl ⟨cause, options, after, rfl, reason⟩
  · rw [← same]
    cases ended : run world with
    | ok a after => exact later a after ended
    | error halt after => cases halt <;> exact .refl _ _

/-- Whether the bodies of deferred values are evaluated in the same way, or else are lost. -/
def BodiesUnless (hit : Fault → Prop) (onward onward' : Onward) (left right : Evaluator) : Prop :=
  ∀ bindings deferred world, PreludeMethods world.env →
    SameUnless (EndsBy hit) (runDeferred onward (left.runner bindings) deferred world)
      (runDeferred onward' (right.runner bindings) deferred world)

section

variable {inner : OnwardLog Call} (grow : (growing False).BodiesEnd onward inner left)
  (bodies : BodiesUnless hit onward onward' left right)

include grow

theorem prelude_behind_body (bindings : Option Bindings) (deferred : Deferred) (value : Value)
    (after : World) (prelude : PreludeMethods world.env)
    (ended : runDeferred onward (left.runner bindings) deferred world = .ok value after) :
    PreludeMethods after.env := by
  have quotes : Target.Quotes (fun _ => True) .deferred deferred := Value.quotes_true _
  have holds := grow bindings deferred world (fun scope _ => quoting_true scope) quotes prelude
  simp only [Run.attempt, ended] at holds
  exact ((holds fun _ _ => False.elim).goes _ after rfl rfl).1

theorem prelude_behind_terms (walk walk' : Walk) (terms : List Expr) (after : World)
    (prelude : PreludeMethods world.env)
    (ended : walkTerms onward left walk terms world = .ok walk' after) :
    PreludeMethods after.env := by
  have carries : (growing False).Carries walk :=
    .of_all Value.quotes_true (fun _ => trivial) walk
  have holds := RunInvariant.walkTerms_holds (methodsAnswer_growing grow)
    (quoting_true left.scope) walk carries terms (fun _ _ => trivial) world prelude
  exact ((holds fun _ _ => False.elim).goes walk' after ended rfl).1

include bodies

-- By induction on the routine. Growth tells that the world behind a body has still no methods but
-- those of the prelude.
theorem perform_unless {declares : Prop} (routine : Routine)
    (candid : routine.Candid (fun _ => True) declares) (options : Options)
    (prelude : PreludeMethods world.env) :
    SameUnless (AnswersBy hit) (perform onward left routine options world)
      (perform onward' right routine options world) := by
  induction candid generalizing options world with
  | answer value _ => exact .refl _ _
  | complain cause => exact .refl _ _
  | option name next goes ih =>
      exact ih _ (fun value _ => value.quotes_true) (options.ask name) prelude
  | convert target value _ next goes ih =>
      simp only [perform, Bind.bind, EStateM.bind, Run.ask]
      cases world.env.expect target value with
      | ok a => exact ih a (target.quotes_of_all _ Value.quotes_true a) options prelude
      | error cause => exact .refl _ _
  | declare _ name value _ next goes ih =>
      simp only [perform, Bind.bind, EStateM.bind, Run.change]
      cases declared : world.env.declare name value with
      | ok env =>
          have grows := Environment.extends_declare _ _ name value declared
          exact ih options (grows.prelude prelude)
      | error cause => exact .refl _ _
  | run bindings deferred _ _ next goes ih =>
      rw [perform_run, perform_run]
      apply perform_andThen_unless
      · exact bodies bindings deferred world prelude
      · intro value after ended
        have behind := prelude_behind_body grow bindings deferred value after prelude ended
        exact ih value value.quotes_true options behind

variable (lasts : ∀ cause method place, hit cause → hit (cause.atCall method place))

include lasts

theorem invoke_unless (method : Method) (known : method ∈ Prelude.methods) (place : Position)
    (walk : Walk) (prelude : PreludeMethods world.env) :
    SameUnless (EndsBy hit) (invoke onward left method place walk world)
      (invoke onward' right method place walk world) := by
  rcases Nat.lt_or_ge walk.values.length method.arity with few | enough
  · rw [invoke_few _ _ _ _ _ few, invoke_few _ _ _ _ _ few]
    exact .refl _ _
  · rw [invoke_enough _ _ _ _ _ enough, invoke_enough _ _ _ _ _ enough]
    have candid := Prelude.candid_true method known (walk.params method) (walk.rest method)
    have done := perform_unless grow bodies _ candid ⟨walk.options, []⟩ prelude
    simp only [Bind.bind, EStateM.bind]
    rcases done with ⟨cause, options, after, answered, reason⟩ | same
    · rw [answered]
      exact .inl ⟨_, after, rfl, lasts cause method.name place reason⟩
    · rw [same]
      exact .refl _ _

variable (scope : left.scope = right.scope)

include scope

theorem resolve_unless (name : String) (place : Position) (walk : Walk)
    (prelude : PreludeMethods world.env) :
    SameUnless (EndsBy hit) (resolve onward left name place walk world)
      (resolve onward' right name place walk world) := by
  have seen : right.seen? world.env name = left.seen? world.env name := by
    simp only [Evaluator.seen?, Evaluator.transient?, scope]
  have called : right.called? world.env name = left.called? world.env name := by
    simp only [Evaluator.called?, seen]
  cases found : left.called? world.env name with
  | some method =>
      rw [resolve_called _ _ _ _ _ _ method found,
        resolve_called _ _ _ _ _ _ method (called.trans found)]
      exact invoke_unless grow bodies lasts method
        (mem_of_called? name method prelude found) place walk prelude
  | none =>
      cases value : left.seen? world.env name with
      | some value' =>
          rw [resolve_seen _ _ _ _ _ _ value' value,
            resolve_seen _ _ _ _ _ _ value' (seen.trans value)]
          exact .refl _ _
      | none =>
          rw [resolve_unknown _ _ _ _ _ _ value found,
            resolve_unknown _ _ _ _ _ _ (seen.trans value) (called.trans found)]
          exact .refl _ _

mutual

theorem evaluateTerm_unless (e : Expr) (world : World) (prelude : PreludeMethods world.env) :
    SameUnless (EndsBy hit) (evaluateTerm onward left e world)
      (evaluateTerm onward' right e world) := by
  cases e with
  | text s => exact .refl _ _
  | number n => cases n <;> exact .refl _ _
  | stub value => exact .refl _ _
  | deferred body =>
      simp only [evaluateTerm, scope]
      exact .refl _ _
  | block body => exact evaluateTerm_unless body world prelude
  | identifier name place =>
      apply SameUnless.bind
      · exact resolve_unless grow bodies lasts scope name place _ prelude
      · exact fun _ _ _ => .refl _ _
  | option name place => exact .refl _ _
  | chain terms =>
      apply SameUnless.bind
      · exact walkTerms_unless _ terms world prelude
      · exact fun _ _ _ => .refl _ _

theorem walkTerms_unless (walk : Walk) (terms : List Expr) (world : World)
    (prelude : PreludeMethods world.env) :
    SameUnless (EndsBy hit) (walkTerms onward left walk terms world)
      (walkTerms onward' right walk terms world) := by
  cases terms with
  | nil => exact .refl _ _
  | cons term rest =>
      rw [walkTerms_cons, walkTerms_cons]
      apply SameUnless.bind
      · exact walkTerms_unless walk rest world prelude
      · intro middle after walked
        have known := prelude_behind_terms grow walk middle rest after prelude walked
        have adds : SameUnless (EndsBy hit)
            ((evaluateTerm onward left term >>= fun value => pure (middle.add value)) after)
            ((evaluateTerm onward' right term >>= fun value => pure (middle.add value)) after) :=
          SameUnless.bind _ _ _ _ (evaluateTerm_unless term after known) fun _ _ _ => .refl _ _
        cases term with
        | identifier name place =>
            exact resolve_unless grow bodies lasts scope name place middle known
        | option name place => exact .refl _ _
        | _ => exact adds

end

end

end

/-! Levels. -/

/-- A complaint about a depth limit, with or without the call that it belongs to. -/
def Fault.AtLimit (limit : Nat) : Fault → Prop
  | .complaint cause => cause = .tooDeep limit
  | .inMethod _ cause _ => cause = .tooDeep limit
  | _ => False

theorem Fault.atLimit_atCall (limit : Nat) (cause : Fault) (method : String) (place : Position)
    (reached : cause.AtLimit limit) : (cause.atCall method place).AtLimit limit := by
  cases cause with
  | complaint complaint => exact reached
  | _ => exact reached

def Evaluator.limited (evaluator : Evaluator) (limit : Nat) : Evaluator :=
  { evaluator with maxDepth := limit }

/-- How evaluation goes on where deferred values may nest this many levels further. -/
def onwardWithin (again : Evaluator → Expr → Run Value) : Nat → Onward
  | 0 => ⟨again, fun _ _ => throw .exhausted⟩
  | levels + 1 => ⟨again, evaluateWithin again levels⟩

theorem evaluateWithin_eq (again : Evaluator → Expr → Run Value) (levels : Nat) :
    evaluateWithin again levels = evaluateTerm (onwardWithin again levels) := by
  cases levels <;> rfl

theorem bodiesEnd_growing (again : Evaluator → Expr → Run Value)
    (calls : Evaluator → Expr → World → List Call) (levels : Nat) (evaluator : Evaluator)
    (here : evaluator.maxDepth - evaluator.depth = levels) :
    (growing False).BodiesEnd (onwardWithin again levels)
      ⟨calls, Journal.calls.within again calls (levels - 1)⟩ evaluator := by
  have scope : Quoting (growing False).part evaluator.scope := quoting_true evaluator.scope
  apply RunInvariant.bodiesEnd_of_deeper scope
  intro inside e world further scope part prelude
  obtain ⟨fewer, rfl⟩ : ∃ fewer, levels = fewer + 1 := ⟨levels - 1, by omega⟩
  exact RunInvariant.evaluateWithin_holds again calls (fun _ _ _ => methodsAnswer_growing) fewer
    inside scope (.inl (by omega)) e part world prelude

/-- A fault that a run can have because its limit is no higher than it is. -/
def Fault.Avoidable (limit higher : Nat) (cause : Fault) : Prop :=
  limit < higher ∧ cause.AtLimit limit

section

variable (again again' : Evaluator → Expr → Run Value) {limit levels levels' : Nat}
  {evaluator : Evaluator} {world : World}

theorem runDeferred_unless (deferred : Deferred)
    (here : evaluator.maxDepth - evaluator.depth = levels) (higher : evaluator.maxDepth ≤ limit)
    (room : limit - evaluator.depth ≤ levels')
    (deeper : ∀ fewer fewer', levels = fewer + 1 → levels' = fewer' + 1 →
      SameUnless (EndsBy (Fault.Avoidable evaluator.maxDepth limit))
        (evaluateWithin again fewer (evaluator.inside deferred) deferred.body world)
        (evaluateWithin again' fewer' ((evaluator.inside deferred).limited limit) deferred.body
          world)) :
    SameUnless (EndsBy (Fault.Avoidable evaluator.maxDepth limit))
      (runDeferred (onwardWithin again levels) evaluator deferred world)
      (runDeferred (onwardWithin again' levels') (evaluator.limited limit) deferred world) := by
  have limited : (evaluator.limited limit).maxDepth = limit := rfl
  have depth : (evaluator.limited limit).depth = evaluator.depth := rfl
  unfold runDeferred
  rw [limited, depth]
  by_cases deep : evaluator.maxDepth ≤ evaluator.depth
  · rw [if_pos deep]
    rcases Nat.lt_or_eq_of_le higher with lower | rfl
    · exact .inl ⟨_, world, rfl, lower, rfl⟩
    · rw [if_pos deep]
      exact .refl _ _
  · rw [if_neg deep, if_neg (by omega)]
    obtain ⟨fewer, rfl⟩ : ∃ fewer, levels = fewer + 1 := ⟨levels - 1, by omega⟩
    obtain ⟨fewer', rfl⟩ : ∃ fewer', levels' = fewer' + 1 := ⟨levels' - 1, by omega⟩
    exact deeper fewer fewer' rfl rfl

/-- What stands below the levels that an evaluator needs does not matter, and a higher limit matters
only to runs that meet the lower one. -/
theorem evaluateWithin_unless (e : Expr) (prelude : PreludeMethods world.env)
    (here : evaluator.maxDepth - evaluator.depth = levels) (higher : evaluator.maxDepth ≤ limit)
    (room : limit - evaluator.depth ≤ levels') :
    SameUnless (EndsBy (Fault.Avoidable evaluator.maxDepth limit))
      (evaluateWithin again levels evaluator e world)
      (evaluateWithin again' levels' (evaluator.limited limit) e world) := by
  induction levels using Nat.strongRecOn generalizing evaluator e world levels' with
  | ind levels ih =>
      have bodies : BodiesUnless (Fault.Avoidable evaluator.maxDepth limit)
          (onwardWithin again levels) (onwardWithin again' levels') evaluator
          (evaluator.limited limit) := by
        intro bindings deferred world prelude
        have limited : (evaluator.limited limit).runner bindings =
            (evaluator.runner bindings).limited limit := by
          cases bindings <;> rfl
        have limit' : (evaluator.runner bindings).maxDepth = evaluator.maxDepth := by
          cases bindings <;> rfl
        have depth : (evaluator.runner bindings).depth = evaluator.depth := by
          cases bindings <;> rfl
        rw [limited, ← limit']
        apply runDeferred_unless again again' deferred (by omega) (by omega) (by omega)
        rintro fewer fewer' rfl rfl
        apply ih fewer (Nat.lt_succ_self fewer) deferred.body prelude
        · simp only [Evaluator.inside]
          omega
        · simp only [Evaluator.inside]
          omega
        · simp only [Evaluator.inside]
          omega
      rw [evaluateWithin_eq, evaluateWithin_eq]
      have grow := bodiesEnd_growing again (fun _ _ _ => []) levels evaluator here
      apply evaluateTerm_unless grow bodies _ rfl e world prelude
      intro cause method place avoidable
      exact ⟨avoidable.1, cause.atLimit_atCall _ method place avoidable.2⟩

end

/-- A run that does not end by meeting its depth limit is the same under every higher limit: with
the same value or fault, and in the same world. -/
theorem evaluate_higher_limit (evaluator : Evaluator) (limit : Nat) (e : Expr) (world : World)
    (prelude : PreludeMethods world.env) (higher : evaluator.maxDepth ≤ limit)
    (inside : ∀ method place after, evaluator.evaluate e world ≠
      .error (.fault (.inMethod method (.tooDeep evaluator.maxDepth) place)) after) :
    { evaluator with maxDepth := limit }.evaluate e world = evaluator.evaluate e world := by
  have ends := evaluateWithin_unless (evaluateUpTo (callbackLimit - 1))
    (evaluateUpTo (callbackLimit - 1)) e prelude rfl higher (Nat.le_refl _)
  have attributed := evaluateTerm_attributed evaluator.onward evaluator e world
  rw [← Evaluator.evaluate_eq_evaluateTerm] at attributed
  rcases ends with ⟨cause, after, ended, _, reached⟩ | same
  · -- A complaint would have no call, so it is the fault that is excluded.
    have reason := attributed _ _ ended
    cases cause with
    | complaint complaint => exact absurd reason id
    | inMethod method complaint place =>
        obtain rfl : complaint = .tooDeep evaluator.maxDepth := reached
        exact absurd ended (inside method place after)
    | _ => exact absurd reached id
  · exact same.symm

theorem controlWords_bare (evaluator : Evaluator) (bare : evaluator.scope = []) :
    ControlWords evaluator Prelude.environment := by
  obtain ⟨scope, extended, depth, maxDepth⟩ := evaluator
  obtain rfl : scope = [] := bare
  exact ⟨controlWords_environment.called, rfl, rfl⟩

theorem evaluate_higher_limit_run :
    PreludeMethods Prelude.environment ∧ 1 ≤ 256 ∧
    (∀ method place after, Evaluator.evaluate { maxDepth := 1 }
        (.chain [.identifier "run" ⟨0, 1⟩, .deferred (.identifier "true" ⟨5, 1⟩)])
        { env := Prelude.environment } ≠
      .error (.fault (.inMethod method (.tooDeep 1) place)) after) ∧
    Evaluator.evaluate { maxDepth := 256 }
        (.chain [.identifier "run" ⟨0, 1⟩, .deferred (.identifier "true" ⟨5, 1⟩)])
        { env := Prelude.environment } =
      Evaluator.evaluate { maxDepth := 1 }
        (.chain [.identifier "run" ⟨0, 1⟩, .deferred (.identifier "true" ⟨5, 1⟩)])
        { env := Prelude.environment } := by
  have runs : Evaluator.evaluate { maxDepth := 1 }
      (.chain [.identifier "run" ⟨0, 1⟩, .deferred (.identifier "true" ⟨5, 1⟩)])
      { env := Prelude.environment } =
        Evaluator.evaluate { depth := 1, maxDepth := 1 } (.identifier "true" ⟨5, 1⟩)
          { env := Prelude.environment } :=
    Evaluator.evaluate_run preludeOnly_environment (controlWords_bare _ rfl) rfl (by decide) _ _
  have ends := runs.trans (Evaluator.evaluate_variable _ "true" _ (.bool true) _ rfl rfl)
  have inside (method : String) (place : Position) (after : World) :
      Evaluator.evaluate { maxDepth := 1 }
        (.chain [.identifier "run" ⟨0, 1⟩, .deferred (.identifier "true" ⟨5, 1⟩)])
        { env := Prelude.environment } ≠
      .error (.fault (.inMethod method (.tooDeep 1) place)) after := by
    rw [ends]
    exact fun same => nomatch same
  exact ⟨preludeMethods_environment, by decide, inside,
    evaluate_higher_limit { maxDepth := 1 } 256 _ _ preludeMethods_environment (by decide) inside⟩

end ChainScript
