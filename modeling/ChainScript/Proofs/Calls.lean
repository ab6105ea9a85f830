import ChainScript.Evaluation.Chain

/-!
What an evaluation calls. The equations take evaluation apart: a chain into its terms, a bare word
into what it stands for, a call into its routine and what becomes of the answer.
-/

namespace ChainScript

variable {α β : Type}

/-! Chains, one term after the other. -/

def Expr.chainPlace (terms : List Expr) : Position := (firstPosition? terms).getD default

def walkTerm (onward : Onward) (evaluator : Evaluator) (term : Expr) (walk : Walk) : Run Walk :=
  match term with
  | .identifier name place => resolve onward evaluator name place walk
  | .option name place => Run.ofExcept (walk.takeOption name place)
  | _ => do
      let value ← evaluateTerm onward evaluator term
      pure (walk.add value)

/-- Whether a term is neither a bare word nor an option, so that it stands for itself. -/
def Expr.IsPlain : Expr → Prop
  | .identifier _ _ | .option _ _ => False
  | .text _ | .number _ | .deferred _ | .chain _ | .block _ | .stub _ => True

theorem walkTerm_plain (onward : Onward) (evaluator : Evaluator) (term : Expr) (walk : Walk)
    (plain : term.IsPlain) :
    walkTerm onward evaluator term walk =
      evaluateTerm onward evaluator term >>= fun value => pure (walk.add value) := by
  cases term with
  | identifier name place => exact absurd plain id
  | option name place => exact absurd plain id
  | _ => rfl

theorem walkTerms_cons (onward : Onward) (evaluator : Evaluator) (behind : Walk) (term : Expr)
    (rest : List Expr) :
    walkTerms onward evaluator behind (term :: rest) =
      walkTerms onward evaluator behind rest >>= walkTerm onward evaluator term := by
  cases term <;> rfl

theorem walkTerms_append (onward : Onward) (evaluator : Evaluator) (walk : Walk)
    (terms behind : List Expr) :
    walkTerms onward evaluator walk (terms ++ behind) =
      walkTerms onward evaluator walk behind >>= fun walk =>
        walkTerms onward evaluator walk terms := by
  induction terms with
  | nil => exact (bind_pure _).symm
  | cons term rest ih =>
      simp only [List.cons_append, walkTerms_cons, ih, bind_assoc]

section

variable (onward : Onward) (evaluator : Evaluator) {γ : Type} (value : γ → Value)

theorem walkTerms_map (args : List γ) (term : γ → Expr) (walk : Walk)
    (constant : ∀ arg walk,
      walkTerm onward evaluator (term arg) walk = pure (walk.add (value arg))) :
    walkTerms onward evaluator walk (args.map term) =
      pure { walk with values := args.map value ++ walk.values } := by
  induction args with
  | nil => rfl
  | cons arg rest ih =>
      rw [List.map_cons, walkTerms_cons, ih, pure_bind, constant]
      rfl

theorem evaluateTerm_args (name : String) (place : Position) (args : List γ) (term : γ → Expr)
    (constant : ∀ arg walk,
      walkTerm onward evaluator (term arg) walk = pure (walk.add (value arg))) :
    evaluateTerm onward evaluator (.chain (.identifier name place :: args.map term)) =
      resolve onward evaluator name place ⟨args.map value, [], place⟩ >>=
        fun walk => Run.ofExcept (walk.result place) := by
  have walked : evaluateTerm onward evaluator (.chain (.identifier name place :: args.map term)) =
      walkTerms onward evaluator (.start place) (.identifier name place :: args.map term) >>=
        fun walk => Run.ofExcept (walk.result place) := rfl
  rw [walked, walkTerms_cons, walkTerms_map _ _ _ _ _ _ constant, pure_bind]
  simp only [Walk.start, List.append_nil, walkTerm]

end

/-! Bare words. -/

/-- The value that a bare word stands for, as a transient or else as a variable. -/
def Evaluator.seen? (evaluator : Evaluator) (env : Environment) (name : String) : Option Value :=
  evaluator.transient? name <|> env.value? name

def Evaluator.called? (evaluator : Evaluator) (env : Environment) (name : String) :
    Option Method :=
  match evaluator.seen? env name with
  | some _ => none
  | none => env.method? name

theorem Evaluator.method?_of_called? (evaluator : Evaluator) (env : Environment) (name : String)
    (method : Method) (called : evaluator.called? env name = some method) :
    env.method? name = some method := by
  unfold Evaluator.called? at called
  split at called
  · cases called
  · exact called

section

variable (onward : Onward) (evaluator : Evaluator) (name : String) (place : Position)
  (walk : Walk) (world : World)

theorem resolve_seen (value : Value) (seen : evaluator.seen? world.env name = some value) :
    resolve onward evaluator name place walk world = .ok (walk.add value) world := by
  unfold Evaluator.seen? at seen
  unfold resolve
  cases transient : evaluator.transient? name with
  | some found =>
      rw [transient] at seen
      cases seen
      rfl
  | none =>
      rw [transient] at seen
      have found : world.env.value? name = some value := seen
      simp [Run.ask, Bind.bind, EStateM.bind, found]
      rfl

theorem resolve_called (method : Method)
    (called : evaluator.called? world.env name = some method) :
    resolve onward evaluator name place walk world =
      invoke onward evaluator method place walk world := by
  have callable := evaluator.method?_of_called? world.env name method called
  unfold Evaluator.called? Evaluator.seen? at called
  unfold resolve
  cases transient : evaluator.transient? name with
  | some found => simp [transient] at called
  | none =>
      cases found : world.env.value? name with
      | some value => simp [transient, found] at called
      | none => simp [Run.ask, Bind.bind, EStateM.bind, found, callable]

theorem resolve_unknown (seen : evaluator.seen? world.env name = none)
    (called : evaluator.called? world.env name = none) :
    resolve onward evaluator name place walk world =
      .error (.fault (.unresolved name place)) world := by
  have callable : world.env.method? name = none := by
    simpa [Evaluator.called?, seen] using called
  obtain ⟨transient, found⟩ : evaluator.transient? name = none ∧ world.env.value? name = none := by
    simpa [Evaluator.seen?] using seen
  simp [resolve, transient, Run.ask, Bind.bind, EStateM.bind, found, callable]
  rfl

theorem resolve_cases :
    (∃ method, evaluator.called? world.env name = some method ∧
      resolve onward evaluator name place walk world =
        invoke onward evaluator method place walk world) ∨
    (∃ value, evaluator.called? world.env name = none ∧
      resolve onward evaluator name place walk world = .ok (walk.add value) world) ∨
    (evaluator.called? world.env name = none ∧
      resolve onward evaluator name place walk world =
        .error (.fault (.unresolved name place)) world) := by
  cases called : evaluator.called? world.env name with
  | some method => exact .inl ⟨method, rfl, resolve_called _ _ _ _ _ _ method called⟩
  | none =>
      cases seen : evaluator.seen? world.env name with
      | some value => exact .inr (.inl ⟨value, rfl, resolve_seen _ _ _ _ _ _ value seen⟩)
      | none => exact .inr (.inr ⟨rfl, resolve_unknown _ _ _ _ _ _ seen called⟩)

end

/-! Calls. -/

namespace Walk

def params (walk : Walk) (method : Method) : List Value := walk.values.take method.arity

def rest (walk : Walk) (method : Method) : List Value :=
  if method.takesRest then walk.values.drop method.arity else []

/-- The walk behind a call: what the method gave back, and the values that it left. -/
def behindCall (walk : Walk) (method : Method) (value : Value) : Walk where
  values := value :: if method.takesRest then [] else walk.values.drop method.arity
  options := []
  optionPlace := walk.optionPlace

end Walk

theorem Walk.single_of_result (walk : Walk) (place : Position) (value : Value)
    (reduced : walk.result place = .ok value) : walk.options = [] ∧ walk.values = [value] := by
  unfold Walk.result at reduced
  split at reduced
  · next options values =>
      cases reduced
      exact ⟨options, values⟩
  · cases reduced
  · cases reduced

theorem Walk.result_unconsumed (walk : Walk) (place : Position) (options : walk.options = [])
    (several : walk.values.length ≠ 1) :
    walk.result place = .error (.unconsumed walk.values.length place) := by
  unfold Walk.result
  split
  · next value _ values => exact absurd (congrArg List.length values) several
  · rfl
  · next empty _ => exact absurd options empty

def settle (method : Method) (place : Position) (walk : Walk) :
    Except Fault Value × Options → Run Walk
  | (.error fault, _) => Run.fault (fault.atCall method.name place)
  | (.ok value, options) =>
      match options.unused with
      | [] => pure (walk.behindCall method value)
      | names => Run.fault (.unusedOptions method.name names place)

theorem invoke_few (onward : Onward) (evaluator : Evaluator) (method : Method) (place : Position)
    (walk : Walk) (few : walk.values.length < method.arity) :
    invoke onward evaluator method place walk =
      Run.fault (.arity method.name method.arity walk.values.length place) := by
  rw [invoke, if_pos few]

theorem invoke_enough (onward : Onward) (evaluator : Evaluator) (method : Method)
    (place : Position) (walk : Walk) (enough : method.arity ≤ walk.values.length) :
    invoke onward evaluator method place walk =
      perform onward evaluator (method.body (walk.params method) (walk.rest method))
        ⟨walk.options, []⟩ >>= settle method place walk := by
  rw [invoke, if_neg (Nat.not_lt.mpr enough)]
  apply bind_congr
  rintro ⟨result, options⟩
  cases result <;> rfl

theorem Run.bind_eq_at {α β : Type} (run other : Run α) (next : α → Run β) (world : World)
    (same : run world = other world) : (run >>= next) world = (other >>= next) world := by
  simp only [Bind.bind, EStateM.bind, same]

def passOn (method : String) (place : Position) : Except Fault Value → Run Value
  | .ok value => pure value
  | .error fault => Run.fault (fault.atCall method place)

theorem settle_answer (method : Method) (place : Position) (walk : Walk)
    (result : Except Fault Value) :
    settle method place walk (result, ⟨[], []⟩) =
      passOn method.name place result >>= fun value => pure (walk.behindCall method value) := by
  have unused : Options.unused ⟨[], []⟩ = [] := by simp [Options.unused, sortedNames]
  cases result with
  | error fault => rfl
  | ok value =>
      simp only [settle, unused]
      rfl

/-! Runs and what lies behind them. -/

def worldAfter : EStateM.Result Halt World α → World
  | .ok _ after => after
  | .error _ after => after

theorem worldAfter_attempt (run : Run α) (world : World) :
    worldAfter (run.attempt world) = worldAfter (run world) := by
  simp only [Run.attempt]
  cases run world with
  | ok a after => rfl
  | error halt after => cases halt <;> rfl

/-- What is listed behind a run. Nothing lies behind a run that was halted. -/
def behindRun (run : Run α) (next : α → World → List β) (world : World) : List β :=
  match run world with
  | .ok a after => next a after
  | .error _ _ => []

theorem behindRun_nil (run : Run α) (next : α → World → List β) (world : World)
    (silent : ∀ a after, next a after = []) : behindRun run next world = [] := by
  unfold behindRun
  cases run world with
  | ok a after => exact silent a after
  | error halt after => rfl

/-- The methods that the words of a chain call themselves, those of the last word first. What is
called inside of a group or a body is not among them. -/
def directCalls (onward : Onward) (evaluator : Evaluator) (walk : Walk) :
    List Expr → World → List Method
  | [], _ => []
  | term :: rest, world =>
      directCalls onward evaluator walk rest world ++
        behindRun (walkTerms onward evaluator walk rest) (fun _ after =>
          match term with
          | .identifier name _ => (evaluator.called? after.env name).toList
          | _ => []) world

def Evaluator.runner (evaluator : Evaluator) : Option Bindings → Evaluator
  | some bindings => evaluator.extend bindings
  | none => evaluator

theorem perform_run (onward : Onward) (evaluator : Evaluator) (bindings : Option Bindings)
    (deferred : Deferred) (next : Except Fault Value → Routine) (options : Options) :
    perform onward evaluator (.run bindings deferred next) options =
      (runDeferred onward (evaluator.runner bindings) deferred).attempt >>= fun result =>
        perform onward evaluator (next result) options := by
  cases bindings <;> rfl

theorem runner_levels (evaluator : Evaluator) (bindings : Option Bindings) :
    (evaluator.runner bindings).maxDepth - (evaluator.runner bindings).depth =
      evaluator.maxDepth - evaluator.depth := by
  cases bindings <;> rfl

/-! Evaluators. -/

namespace Evaluator

/-- How an evaluator goes on outside of the expression at hand. -/
def onward (evaluator : Evaluator) : Onward where
  again := evaluateUpTo (callbackLimit - 1)
  deeper :=
    match evaluator.maxDepth - evaluator.depth with
    | 0 => fun _ _ => throw .exhausted
    | levels + 1 => evaluateWithin (evaluateUpTo (callbackLimit - 1)) levels

theorem evaluate_eq_evaluateTerm (evaluator : Evaluator) (e : Expr) :
    evaluator.evaluate e = evaluateTerm evaluator.onward evaluator e := by
  have within : evaluator.evaluate e = evaluateWithin (evaluateUpTo (callbackLimit - 1))
      (evaluator.maxDepth - evaluator.depth) evaluator e := rfl
  rw [within]
  simp only [onward]
  cases evaluator.maxDepth - evaluator.depth <;> rfl

def walkChain (evaluator : Evaluator) (terms : List Expr) : Run Walk :=
  walkTerms evaluator.onward evaluator (.start (Expr.chainPlace terms)) terms

/-- The methods that the words of a chain call themselves when it is evaluated. -/
def directCalls (evaluator : Evaluator) (terms : List Expr) (world : World) : List Method :=
  ChainScript.directCalls evaluator.onward evaluator (.start (Expr.chainPlace terms)) terms world

theorem evaluate_chain (evaluator : Evaluator) (terms : List Expr) :
    evaluator.evaluate (.chain terms) =
      evaluator.walkChain terms >>= fun walk =>
        Run.ofExcept (walk.result (Expr.chainPlace terms)) := by
  rw [evaluate_eq_evaluateTerm]
  rfl

theorem evaluate_chain_ok (evaluator : Evaluator) (terms : List Expr) (value : Value)
    (world after : World) (succeeds : evaluator.evaluate (.chain terms) world = .ok value after) :
    ∃ walk, evaluator.walkChain terms world = .ok walk after ∧ walk.options = [] ∧
      walk.values = [value] := by
  rw [evaluate_chain] at succeeds
  simp only [Bind.bind, EStateM.bind] at succeeds
  cases walked : evaluator.walkChain terms world with
  | error halt later => simp [walked] at succeeds
  | ok walk later =>
      simp only [walked] at succeeds
      cases reduced : walk.result (Expr.chainPlace terms) with
      | error fault =>
          rw [reduced] at succeeds
          cases succeeds
      | ok found =>
          rw [reduced] at succeeds
          cases succeeds
          exact ⟨walk, rfl, walk.single_of_result _ _ reduced⟩

theorem evaluate_call (evaluator : Evaluator) (name : String) (place : Position)
    (args : List Expr) (values : List Value) (method : Method) (run : Run Value) (world : World)
    (walked : walkTerms evaluator.onward evaluator (.start place) args world =
      .ok ⟨values, [], place⟩ world)
    (called : evaluator.called? world.env name = some method)
    (arity : values.length = method.arity)
    (answers : perform evaluator.onward evaluator (method.body values []) ⟨[], []⟩ world =
      (run.attempt >>= fun result => pure (result, ⟨[], []⟩)) world) :
    evaluator.evaluate (.chain (.identifier name place :: args)) world =
      (run.attempt >>= passOn method.name place) world := by
  have params : Walk.params ⟨values, [], place⟩ method = values := by
    simp [Walk.params, ← arity]
  have rest : Walk.rest ⟨values, [], place⟩ method = [] := by
    simp [Walk.rest, ← arity]
  have behind (value : Value) :
      Walk.behindCall ⟨values, [], place⟩ method value = ⟨[value], [], place⟩ := by
    simp [Walk.behindCall, ← arity]
  have invoked : invoke evaluator.onward evaluator method place ⟨values, [], place⟩ world =
      (run.attempt >>= passOn method.name place >>= fun value =>
        pure ⟨[value], [], place⟩) world := by
    rw [invoke_enough _ _ _ _ _ (Nat.le_of_eq arity.symm), params, rest,
      Run.bind_eq_at _ _ _ world answers]
    simp only [bind_assoc, pure_bind, settle_answer, behind]
  have head : evaluator.walkChain (.identifier name place :: args) world =
      invoke evaluator.onward evaluator method place ⟨values, [], place⟩ world := by
    have start : evaluator.walkChain (.identifier name place :: args) =
        walkTerms evaluator.onward evaluator (.start place) (.identifier name place :: args) := rfl
    rw [start, walkTerms_cons]
    simp only [Bind.bind, EStateM.bind, walked, walkTerm]
    exact resolve_called _ _ _ _ _ _ method called
  have value : evaluator.evaluate (.chain (.identifier name place :: args)) world =
      (invoke evaluator.onward evaluator method place ⟨values, [], place⟩ >>= fun walk =>
        Run.ofExcept (walk.result (Expr.chainPlace (.identifier name place :: args)))) world := by
    rw [evaluate_chain]
    exact Run.bind_eq_at _ _ _ world head
  rw [value, Run.bind_eq_at _ _ _ world invoked]
  simp only [bind_assoc, pure_bind, Walk.result, Run.ofExcept, bind_pure]

end Evaluator

end ChainScript
