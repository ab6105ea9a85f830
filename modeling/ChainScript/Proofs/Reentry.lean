import ChainScript.Proofs.Deliveries
import ChainScript.Proofs.Limits
import ChainScript.Proofs.Tame

/-!
Calls with values. A host or a method calls by a name and a list of values, and that goes the way of
a chain. The method is handed just those values, from the left, as they are. What it does not take
is counted against the call, but only once the method has answered.

A method calls by evaluating an expression. A host could also write one that looks a method up in
the environment and invokes it, with no call of the kind that is told of here; no routine does so.
-/

namespace ChainScript

/-! The same call from any depth. -/

namespace Evaluator

/-- A call with values, from where methods may call back this often in each other. -/
def reenter (evaluator : Evaluator) (callbacks : Nat) (name : String) (args : List Value) :
    Run Value :=
  evaluateUpTo (callbacks + 1) evaluator (.call name args)

def reentryEvents (evaluator : Evaluator) (callbacks : Nat) (name : String)
    (args : List Value) (world : World) : List Event :=
  Journal.events.upTo (callbacks + 1) evaluator (.call name args) world

def onwardOf (evaluator : Evaluator) (callbacks : Nat) : Onward :=
  onwardWithin (evaluateUpTo callbacks) (evaluator.maxDepth - evaluator.depth)

def eventsOf (evaluator : Evaluator) (callbacks : Nat) : OnwardLog Event where
  again := Journal.events.upTo callbacks
  deeper :=
    match evaluator.maxDepth - evaluator.depth with
    | 0 => fun _ _ _ => []
    | levels + 1 =>
        Journal.events.within (evaluateUpTo callbacks) (Journal.events.upTo callbacks) levels

variable (evaluator : Evaluator) (callbacks : Nat) (name : String) (args : List Value)

theorem reenter_eq :
    evaluator.reenter callbacks name args =
      evaluateTerm (evaluator.onwardOf callbacks) evaluator (.call name args) := by
  simp only [reenter, evaluateUpTo, evaluateWithin_eq, onwardOf]

theorem reentryEvents_eq (world : World) :
    evaluator.reentryEvents callbacks name args world =
      Journal.events.term (evaluator.onwardOf callbacks) (evaluator.eventsOf callbacks) evaluator
        (.call name args) world := by
  simp only [reentryEvents, Journal.upTo, onwardOf, eventsOf]
  cases evaluator.maxDepth - evaluator.depth <;> rfl

end Evaluator

/-! What a call comes to. -/

/-- What a call makes of the answer of its method. The method has left what is behind its arguments,
unless it takes all of it. -/
def handBack (method : Method) (args : List Value) : Except Fault Value → Run Value
  | .error fault => Run.fault (fault.atCall method.name default)
  | .ok value =>
      if method.takesRest = false ∧ method.arity < args.length then
        Run.fault (.unconsumed (args.length - method.arity + 1) default)
      else pure value

/-- A method with all that it is handed by a call with values: its arguments, and behind them the
other values if it takes them, but no options. -/
def Call.ofArgs (method : Method) (args : List Value) : Call where
  method := method
  params := args.take method.arity
  rest := if method.takesRest then args.drop method.arity else []
  options := []

namespace Call

def performed (call : Call) (onward : Onward) (evaluator : Evaluator) :
    Run (Except Fault Value × Options) :=
  perform onward evaluator (call.method.body call.params call.rest) ⟨call.options, []⟩

def events (call : Call) (onward : Onward) (inner : OnwardLog Event) (evaluator : Evaluator)
    (place : Position) (world : World) : List Event :=
  .called call ::
    (Journal.events.perform onward inner evaluator (call.method.body call.params call.rest)
        ⟨call.options, []⟩ world ++
      behindRun (call.performed onward evaluator)
        (fun done _ => [.answered call.method place done.1]) world)

end Call

structure HandsOver (onward : Onward) (inner : OnwardLog Event) (evaluator : Evaluator)
    (name : String) (args : List Value) (world : World)
    (result : EStateM.Result Halt World Value) (events : List Event) : Prop where
  /-- A word that has a value calls nothing, and nothing takes the arguments. -/
  seen : ∀ value, evaluator.seen? world.env name = some value →
    events = [] ∧
    (args = [] → result = .ok value world) ∧
    (args ≠ [] → result = .error (.fault (.unconsumed (args.length + 1) default)) world)
  few : ∀ method, evaluator.called? world.env name = some method → args.length < method.arity →
    events = [] ∧
    result = .error (.fault (.arity method.name method.arity args.length default)) world
  enough : ∀ method, evaluator.called? world.env name = some method →
    method.arity ≤ args.length →
    events = (Call.ofArgs method args).events onward inner evaluator default world ∧
    result = ((Call.ofArgs method args).performed onward evaluator >>= fun done =>
      handBack method args done.1) world
  unknown : evaluator.seen? world.env name = none → evaluator.called? world.env name = none →
    events = [] ∧ result = .error (.fault (.unresolved name default)) world

section

variable (onward : Onward) (inner : OnwardLog Event) (evaluator : Evaluator) (name : String)
  (args : List Value) (world : World)

theorem walk_stubs (walk : Walk) :
    Journal.events.walk onward inner evaluator walk (args.map Expr.stub) world = [] := by
  induction args with
  | nil => rfl
  | cons value rest ih =>
      simp only [List.map_cons, Journal.walk, ih, List.nil_append]
      exact behindRun_nil _ _ _ fun _ _ => rfl

-- The arguments are values already, so they are put down as they are, and nothing happens before
-- the word in front of them is resolved.
theorem evaluateTerm_call :
    evaluateTerm onward evaluator (.call name args) =
      resolve onward evaluator name default ⟨args, [], default⟩ >>= fun walk =>
        Run.ofExcept (walk.result default) := by
  have handed := evaluateTerm_args onward evaluator id name default args Expr.stub fun _ _ => rfl
  rw [List.map_id] at handed
  exact handed

theorem term_call :
    Journal.events.term onward inner evaluator (.call name args) world =
      Journal.events.resolve onward inner evaluator name default ⟨args, [], default⟩ world := by
  have walked : walkTerms onward evaluator (.start default) (args.map Expr.stub) =
      pure ⟨args, [], default⟩ := by
    have handed := walkTerms_map onward evaluator id args Expr.stub (.start default)
      fun _ _ => rfl
    simpa [Walk.start] using handed
  have whole : Journal.events.term onward inner evaluator (.call name args) world =
      Journal.events.walk onward inner evaluator (.start default)
        (.identifier name default :: args.map .stub) world := rfl
  simp only [whole, Journal.walk, walk_stubs, walked, List.nil_append]
  rfl

-- No options were given, so the method can have left none of them.
theorem settle_handed (method : Method) (done : Except Fault Value × Options)
    (enough : method.arity ≤ args.length) (given : done.2.given = []) :
    (settle method default ⟨args, [], default⟩ done >>= fun walk =>
      Run.ofExcept (walk.result default)) = handBack method args done.1 := by
  obtain ⟨result, options⟩ := done
  cases result with
  | error fault => rfl
  | ok value =>
      have optionless : options.given = [] := given
      have unused : options.unused = [] := options.unused_eq_nil_iff.mpr (by simp [optionless])
      simp only [settle, unused, pure_bind, handBack, Walk.behindCall]
      cases takes : method.takesRest with
      | true => rfl
      | false =>
          rcases Nat.eq_or_lt_of_le enough with all | more
          · simp [all, Walk.result, Run.ofExcept]
          · have left : (value :: args.drop method.arity).length =
                args.length - method.arity + 1 := by
              rw [List.length_cons, List.length_drop]
            rw [if_neg Bool.false_ne_true, if_pos ⟨rfl, more⟩, ← left]
            have several : (value :: args.drop method.arity).length ≠ 1 := by omega
            exact congrArg Run.ofExcept
              (Walk.result_unconsumed ⟨_, [], default⟩ default rfl several)

theorem evaluateTerm_handsOver :
    HandsOver onward inner evaluator name args world
      (evaluateTerm onward evaluator (.call name args) world)
      (Journal.events.term onward inner evaluator (.call name args) world) := by
  rw [term_call, evaluateTerm_call]
  constructor
  · intro value seen
    have silent : evaluator.called? world.env name = none := by
      simp only [Evaluator.called?, seen]
    refine ⟨by simp only [Journal.resolve, silent, Journal.events_reached, List.nil_append], ?_, ?_⟩
    · rintro rfl
      simp only [Bind.bind, EStateM.bind, resolve_seen _ _ _ _ _ _ value seen]
      rfl
    · intro nonempty
      obtain ⟨first, others, rfl⟩ := List.exists_cons_of_ne_nil nonempty
      simp only [Bind.bind, EStateM.bind, resolve_seen _ _ _ _ _ _ value seen]
      rfl
  · intro method called few
    refine ⟨by simp only [Journal.resolve, called, Journal.invoke, if_pos few,
      Journal.events_reached, List.nil_append], ?_⟩
    simp only [Bind.bind, EStateM.bind, resolve_called _ _ _ _ _ _ method called]
    rw [invoke_few _ _ _ _ _ few]
    rfl
  · intro method called enough
    constructor
    · simp only [Journal.resolve, called, Journal.invoke, if_neg (Nat.not_lt.mpr enough)]
      rfl
    · have start : resolve onward evaluator name default ⟨args, [], default⟩ world =
          ((Call.ofArgs method args).performed onward evaluator >>=
            settle method default ⟨args, [], default⟩) world := by
        rw [resolve_called _ _ _ _ _ _ method called, invoke_enough _ _ _ _ _ enough]
        rfl
      rw [Run.bind_eq_at _ _ _ world start, bind_assoc]
      simp only [Bind.bind, EStateM.bind]
      cases performed : (Call.ofArgs method args).performed onward evaluator world with
      | error halt after => rfl
      | ok done after =>
          have given := perform_given _ _ _ _ _ _ done performed
          exact congrFun (settle_handed args method done enough given) after
  · intro seen called
    refine ⟨by simp only [Journal.resolve, called, Journal.events_reached, List.nil_append], ?_⟩
    simp only [Bind.bind, EStateM.bind, resolve_unknown _ _ _ _ _ _ seen called]

end

/-- A call with values hands over exactly those, whether the host calls or a method at any depth of
callbacks. A word that has a value is what it is, and its arguments are left over. A method with too
few arguments is not called. Any other method is called once and first of all, with its arguments
and the rest in order, unevaluated, and with no options. A fault that it answers becomes that of the
call. So does a value, unless the method has left some of what was behind its arguments. A method
that is invoked without a call, as no routine does, is not told of. -/
theorem call_hands_over (evaluator : Evaluator) (name : String) (args : List Value) :
    evaluator.call name args = evaluator.reenter (callbackLimit - 1) name args ∧
    evaluator.events (.call name args) =
      evaluator.reentryEvents (callbackLimit - 1) name args ∧
    ∀ (callbacks : Nat) (world : World),
      HandsOver (evaluator.onwardOf callbacks) (evaluator.eventsOf callbacks) evaluator name args
        world (evaluator.reenter callbacks name args world)
        (evaluator.reentryEvents callbacks name args world) := by
  refine ⟨rfl, rfl, ?_⟩
  intro callbacks world
  rw [evaluator.reenter_eq, evaluator.reentryEvents_eq]
  exact evaluateTerm_handsOver _ _ evaluator name args world

/-- A list of a deferred value, a method with a value too many, and one with none. -/
theorem call_hands_over_list :
    Evaluator.call {} "list" [.deferred (.text "a") []] .initial =
      .ok (.list [.deferred (.text "a") []]) .initial ∧
    Evaluator.call {} "not" [.bool true, .int 1] .initial =
      .error (.fault (.unconsumed 2 default)) .initial ∧
    Evaluator.call {} "not" [] .initial = .error (.fault (.arity "not" 1 0 default)) .initial ∧
    Evaluator.events {} (.call "not" []) .initial = [] := by
  have list := call_hands_over {} "list" [.deferred (.text "a") []]
  have surplus := call_hands_over {} "not" [.bool true, .int 1]
  have few := call_hands_over {} "not" []
  rw [list.1, surplus.1, few.1, few.2.1]
  refine ⟨?_, ?_, ?_, ?_⟩
  · rw [((list.2.2 _ .initial).enough ⟨"list", 0, true, Prelude.listBody⟩ rfl
      (Nat.zero_le _)).2]
    rfl
  · rw [((surplus.2.2 _ .initial).enough ⟨"not", 1, false, Prelude.notBody⟩ rfl
      (by decide)).2]
    rfl
  · exact ((few.2.2 _ .initial).few ⟨"not", 1, false, Prelude.notBody⟩ rfl (by decide)).2
  · exact ((few.2.2 _ .initial).few ⟨"not", 1, false, Prelude.notBody⟩ rfl (by decide)).1

end ChainScript
