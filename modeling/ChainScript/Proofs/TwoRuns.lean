import ChainScript.Evaluation.Chain
import ChainScript.Proofs.Steady

/-!
Two runs of alike expressions. In alike worlds whose methods are steady, alike expressions under
evaluators that agree on their names have alike outcomes: both a value or both a fault.
-/

namespace ChainScript

structure Frame.Alike (likeness : Likeness) (left right : Frame) : Prop where
  methods : left.methods = right.methods
  converters : left.converters = right.converters
  bindings : BindingsAlike likeness left.bindings right.bindings
  steadyMethods : ∀ method ∈ left.methods, method.Steady likeness
  steadyConverters : ∀ converter ∈ left.converters, converter.Steady likeness

structure Environment.Alike (likeness : Likeness) (left right : Environment) : Prop where
  top : left.top.Alike likeness right.top
  below : List.Forall₂ (Frame.Alike likeness) left.below right.below

structure World.Alike (likeness : Likeness) (left right : World) : Prop where
  env : left.env.Alike likeness right.env
  counters : left.counters = right.counters

/-- Ends of two runs: alike results, or alike faults. A run that gives up is alike to none. -/
inductive EndsAlike {α β : Type} (likeness : Likeness) (alike : α → β → Prop) :
    EStateM.Result Halt World α → EStateM.Result Halt World β → Prop where
  | ok (a : α) (b : β) (world other : World) (results : alike a b)
      (worlds : world.Alike likeness other) :
      EndsAlike likeness alike (.ok a world) (.ok b other)
  | fault (f g : Fault) (world other : World) (faults : f.Alike likeness g)
      (worlds : world.Alike likeness other) :
      EndsAlike likeness alike (.error (.fault f) world) (.error (.fault g) other)

def RunsAlike {α β : Type} (likeness : Likeness) (alike : α → β → Prop) (left : Run α)
    (right : Run β) : Prop :=
  ∀ world other, world.Alike likeness other → EndsAlike likeness alike (left world) (right other)

/-- Evaluators that agree on names, and on all that there can be if they hand their transients
on. -/
structure Evaluator.Alike (likeness : Likeness) (names : List String) (left right : Evaluator) :
    Prop where
  scope : Agree likeness names left.scope right.scope
  extended : left.extended = right.extended
  handed : left.extended = true → ∀ name, likeness.named name →
    Option.Rel (Value.Alike likeness) (left.scope.lookup name) (right.scope.lookup name)
  levels : left.maxDepth - left.depth = right.maxDepth - right.depth
  limit : likeness.limit left.maxDepth right.maxDepth
  whole : likeness.whole → BindingsAlike likeness left.scope right.scope

section

variable {likeness : Likeness}

/-! Environments. -/

theorem rel_orElse {α β : Type} {pairs : α → β → Prop} {a c : Option α} {b d : Option β}
    (first : Option.Rel pairs a b) (second : Option.Rel pairs c d) :
    Option.Rel pairs (a <|> c) (b <|> d) := by
  cases first with
  | none => simpa using second
  | some pair => exact .some pair

theorem rel_findSome? {α β γ δ : Type} {pairs : α → β → Prop} {images : γ → δ → Prop}
    (f : α → Option γ) (g : β → Option δ)
    (maps : ∀ a b, pairs a b → Option.Rel images (f a) (g b)) (left : List α) (right : List β)
    (alike : List.Forall₂ pairs left right) :
    Option.Rel images (left.findSome? f) (right.findSome? g) := by
  induction alike with
  | nil => exact .none
  | @cons a b rest more first later ih =>
      have here := maps a b first
      simp only [List.findSome?_cons]
      generalize f a = image at here ⊢
      generalize g b = other at here ⊢
      cases here with
      | none => exact ih
      | some same => exact .some same

namespace Environment

variable {env other : Environment}

theorem Alike.frames (alike : env.Alike likeness other) :
    List.Forall₂ (Frame.Alike likeness) env.frames other.frames :=
  .cons alike.top alike.below

theorem value?_alike (alike : env.Alike likeness other) (name : String) :
    Option.Rel (Value.Alike likeness) (env.value? name) (other.value? name) :=
  rel_findSome? _ _ (fun _ _ frames => BindingsAlike.lookup _ _ frames.bindings name) _ _
    alike.frames

theorem method?_alike (alike : env.Alike likeness other) (name : String) :
    Option.Rel (fun left right => left = right ∧ left.Steady likeness) (env.method? name)
      (other.method? name) := by
  apply rel_findSome? _ _ _ _ _ alike.frames
  intro left right frames
  simp only [Frame.method?, ← frames.methods]
  cases found : left.methods.find? fun method => method.name == name with
  | none => exact .none
  | some method => exact .some ⟨rfl, frames.steadyMethods method (List.mem_of_find?_eq_some found)⟩

theorem firstConversion_alike (target : Target) (v w : Value) (values : v.Alike likeness w)
    (converters : List Converter) (steady : ∀ converter ∈ converters, converter.Steady likeness) :
    Option.Rel (target.Alike likeness) (firstConversion target v converters)
      (firstConversion target w converters) := by
  induction converters with
  | nil => exact .none
  | cons converter rest ih =>
      have here : Option.Rel (target.Alike likeness) (converter.convert? target v)
          (converter.convert? target w) := by
        by_cases same : converter.target = target
        · subst same
          simpa [Converter.convert?] using steady converter List.mem_cons_self v w values
        · simp only [Converter.convert?, same, dite_false]
          exact .none
      have later := ih fun other member => steady other (List.mem_cons_of_mem converter member)
      simp only [firstConversion]
      generalize converter.convert? target v = found at here ⊢
      generalize converter.convert? target w = found' at here ⊢
      cases here with
      | none => exact later
      | some images => exact .some images

theorem converted_alike (alike : env.Alike likeness other) (target : Target) (v w : Value)
    (values : v.Alike likeness w) :
    Option.Rel (target.Alike likeness) (env.converted target v) (other.converted target w) := by
  apply rel_findSome? _ _ _ _ _ alike.frames
  intro left right frames
  rw [← frames.converters]
  exact firstConversion_alike target v w values left.converters frames.steadyConverters

theorem convert_alike (alike : env.Alike likeness other) (target : Target) (v w : Value)
    (values : v.Alike likeness w) :
    Option.Rel (target.Alike likeness) (env.convert target v) (other.convert target w) := by
  induction target generalizing v w with
  | list item ih =>
      have checked := Target.check_alike (.list item) v w values
      have taken := converted_alike alike (.list item) v w values
      apply rel_orElse checked (rel_orElse taken _)
      -- A list is converted item by item, any other value as a list of its own.
      have single (v w : Value) (values : v.Alike likeness w) :
          Option.Rel (Target.Alike likeness (.list item)) ((env.convert item v).map ([·]))
            ((other.convert item w).map ([·])) :=
        rel_map (ih v w values) _ _ fun _ _ pair => .cons pair .nil
      cases values with
      | list items others pairs => exact allSome_alike _ _ _ _ ih items others pairs
      | empty => exact single _ _ .empty
      | placeholder => exact single _ _ .placeholder
      | bool b => exact single _ _ (.bool b)
      | int n => exact single _ _ (.int n)
      | float x => exact single _ _ (.float x)
      | text s => exact single _ _ (.text s)
      | host object => exact single _ _ (.host object)
      | deferred body other scope outer bodies agree captured =>
          exact single _ _ (.deferred body other scope outer bodies agree captured)
  | _ => exact rel_orElse (Target.check_alike _ v w values) (converted_alike alike _ v w values)

theorem expect_alike (alike : env.Alike likeness other) (target : Target) (v w : Value)
    (values : v.Alike likeness w) :
    ResultAlike likeness (target.Alike likeness) (env.expect target v)
      (other.expect target w) := by
  have converts := convert_alike alike target v w values
  simp only [expect, v.typeName_alike w values]
  generalize env.convert target v = found at converts ⊢
  generalize other.convert target w = found' at converts ⊢
  cases converts with
  | none => exact .error _ _ (.complaint _ _ (.same _))
  | some same => exact .ok _ _ same

theorem declare_alike (alike : env.Alike likeness other) (name : String) (v w : Value)
    (values : v.Alike likeness w) :
    ResultAlike likeness (Environment.Alike likeness) (env.declare name v)
      (other.declare name w) := by
  obtain ⟨top, below⟩ := alike
  have known := BindingsAlike.lookup _ _ top.bindings name
  simp only [declare, Frame.value?]
  generalize env.top.bindings.lookup name = found at known ⊢
  generalize other.top.bindings.lookup name = found' at known ⊢
  cases known with
  | none =>
      apply ResultAlike.ok
      constructor
      · exact ⟨top.methods, top.converters, .cons (.mk _ _ _ values) top.bindings,
          top.steadyMethods, top.steadyConverters⟩
      · exact below
  | some same => exact .error _ _ (.complaint _ _ (.same _))

end Environment

/-! Runs. -/

namespace RunsAlike

variable {α β γ δ : Type} {alike : α → β → Prop} {images : γ → δ → Prop}

theorem pure (a : α) (b : β) (results : alike a b) :
    RunsAlike likeness alike (Pure.pure a) (Pure.pure b) := by
  intro world other worlds
  exact .ok a b world other results worlds

theorem fault (f g : Fault) (faults : f.Alike likeness g) :
    RunsAlike likeness alike (Run.fault f) (Run.fault g) := by
  intro world other worlds
  exact .fault f g world other faults worlds

theorem ofExcept (a : Except Fault α) (b : Except Fault β)
    (results : ResultAlike likeness alike a b) :
    RunsAlike likeness alike (Run.ofExcept a) (Run.ofExcept b) := by
  cases results with
  | ok a b same => exact pure a b same
  | error f g faults => exact fault f g faults

theorem bind (left : Run α) (right : Run β) (next : α → Run γ) (other : β → Run δ)
    (first : RunsAlike likeness alike left right)
    (later : ∀ a b, alike a b → RunsAlike likeness images (next a) (other b)) :
    RunsAlike likeness images (left >>= next) (right >>= other) := by
  intro world world' worlds
  have step := first world world' worlds
  simp only [Bind.bind, EStateM.bind]
  generalize left world = result at step ⊢
  generalize right world' = result' at step ⊢
  cases step with
  | ok a b after after' same worlds => exact later a b same after after' worlds
  | fault f g after after' faults worlds => exact .fault f g after after' faults worlds

theorem attempt (left : Run α) (right : Run β) (runs : RunsAlike likeness alike left right) :
    RunsAlike likeness (ResultAlike likeness alike) left.attempt right.attempt := by
  intro world world' worlds
  have step := runs world world' worlds
  simp only [Run.attempt]
  generalize left world = result at step ⊢
  generalize right world' = result' at step ⊢
  cases step with
  | ok a b after after' same worlds => exact .ok _ _ after after' (.ok a b same) worlds
  | fault f g after after' faults worlds => exact .ok _ _ after after' (.error f g faults) worlds

theorem ask (f : Environment → α) (g : Environment → β)
    (answers : ∀ env other, env.Alike likeness other → alike (f env) (g other)) :
    RunsAlike likeness alike (Run.ask f) (Run.ask g) := by
  intro world other worlds
  exact .ok _ _ world other (answers _ _ worlds.env) worlds

theorem change (f g : Environment → Except Fault Environment)
    (answers : ∀ env other, env.Alike likeness other →
      ResultAlike likeness (Environment.Alike likeness) (f env) (g other)) :
    RunsAlike likeness (ResultAlike likeness fun _ _ => True) (Run.change f) (Run.change g) := by
  intro world other worlds
  have step := answers _ _ worlds.env
  simp only [Run.change]
  generalize f world.env = result at step ⊢
  generalize g other.env = result' at step ⊢
  cases step with
  | ok env env' envs => exact .ok _ _ _ _ (.ok () () trivial) ⟨envs, worlds.counters⟩
  | error f g faults => exact .ok _ _ _ _ (.error f g faults) worlds

end RunsAlike

/-! Evaluators. -/

namespace Evaluator

variable {left right : Evaluator}

theorem Alike.mono (names fewer : List String) (alike : left.Alike likeness names right)
    (among : ∀ name ∈ fewer, name ∈ names) : left.Alike likeness fewer right := by
  constructor
  · intro name member
    exact alike.scope name (among name member)
  · exact alike.extended
  · exact alike.handed
  · exact alike.levels
  · exact alike.limit
  · exact alike.whole

theorem Alike.extend (names more : List String) (alike : left.Alike likeness names right)
    (scope outer : Bindings) (scopes : BindingsAlike likeness scope outer) :
    (left.extend scope).Alike likeness more (right.extend outer) := by
  have reversed := List.forall₂_reverse_iff.mpr scopes
  have known := BindingsAlike.lookup _ _ reversed
  constructor
  · intro name _
    exact known name
  · rfl
  · intro _ name _
    exact known name
  · exact alike.levels
  · exact alike.limit
  · exact fun _ => reversed

/-- Inside of alike deferred values evaluators agree on the names of their bodies, whatever the
names were that they agreed on outside. -/
theorem Alike.inside (names : List String) (alike : left.Alike likeness names right)
    (deferred other : Deferred) (values : Target.Alike likeness .deferred deferred other) :
    (left.inside deferred).Alike likeness deferred.body.names (right.inside other) := by
  cases values with
  | deferred body body' scope outer bodies agree captured =>
      constructor
      · -- What was handed on lies over what was captured, and nothing else is seen.
        apply Agree.append
        · intro name member
          simp only [← alike.extended]
          by_cases handed : left.extended = true
          · simp only [handed, if_true]
            exact alike.handed handed name (Expr.named_of_alike _ _ bodies name member)
          · simp only [handed, Bool.false_eq_true, if_false]
            exact .none
        · exact agree
      · rfl
      · intro extended
        cases extended
      · have levels := alike.levels
        simp only [Evaluator.inside]
        omega
      · exact alike.limit
      · intro whole
        simp only [Evaluator.inside, ← alike.extended]
        apply List.rel_append _ (captured whole)
        split
        · exact alike.whole whole
        · exact .nil

end Evaluator

/-- Whether two ways to go on do so alike in the bodies of deferred values, where these may nest
this many levels further. -/
def OnwardAlike (likeness : Likeness) (levels : Nat) (left right : Onward) : Prop :=
  ∀ (evaluator other : Evaluator) (e e' : Expr), e.Alike likeness e' →
    evaluator.Alike likeness e.names other →
    evaluator.maxDepth - evaluator.depth + 1 = levels →
    RunsAlike likeness (Value.Alike likeness) (left.deeper evaluator e) (right.deeper other e')

section

variable {levels : Nat} {onward onward' : Onward} {evaluator other : Evaluator}
  {names : List String}

theorem runDeferred_alike (onwards : OnwardAlike likeness levels onward onward')
    (evaluators : evaluator.Alike likeness names other)
    (here : evaluator.maxDepth - evaluator.depth = levels) (deferred deferred' : Deferred)
    (values : Target.Alike likeness .deferred deferred deferred') :
    RunsAlike likeness (Value.Alike likeness) (runDeferred onward evaluator deferred)
      (runDeferred onward' other deferred') := by
  have levels' := evaluators.levels
  unfold runDeferred
  by_cases deep : evaluator.maxDepth ≤ evaluator.depth
  · rw [if_pos deep, if_pos (by omega)]
    apply RunsAlike.fault
    exact .complaint _ _ (.tooDeep _ _ evaluators.limit)
  · rw [if_neg deep, if_neg (by omega)]
    have inside := evaluators.inside names deferred deferred' values
    apply onwards
    · cases values with
      | deferred body body' scope outer bodies agree captured => exact bodies
    · exact inside
    · simp only [Evaluator.inside]
      omega

structure OptionsAlike (likeness : Likeness) (left right : Options) : Prop where
  given : BindingsAlike likeness left.given right.given
  asked : left.asked = right.asked

def DoneAlike (likeness : Likeness) (left right : Except Fault Value × Options) : Prop :=
  ResultAlike likeness (Value.Alike likeness) left.1 right.1 ∧
    OptionsAlike likeness left.2 right.2

theorem perform_andThen_alike {α β : Type} (alike : α → β → Prop) (next : α → Routine)
    (next' : β → Routine) (options options' : Options)
    (given : OptionsAlike likeness options options')
    (goes : ∀ a b, alike a b → RunsAlike likeness (DoneAlike likeness)
      (perform onward evaluator (next a) options) (perform onward' other (next' b) options'))
    (result : Except Fault α) (result' : Except Fault β)
    (results : ResultAlike likeness alike result result') :
    RunsAlike likeness (DoneAlike likeness)
      (perform onward evaluator (.andThen next result) options)
      (perform onward' other (.andThen next' result') options') := by
  cases results with
  | ok a b same => exact goes a b same
  | error f g faults =>
      apply RunsAlike.pure
      exact ⟨.error f g faults, given⟩

-- By induction on the routine: one question, then the routine that its answer leads to.
theorem perform_alike (onwards : OnwardAlike likeness levels onward onward')
    (evaluators : evaluator.Alike likeness names other)
    (here : evaluator.maxDepth - evaluator.depth = levels) (routine routine' : Routine)
    (routines : routine.Alike likeness routine') (options options' : Options)
    (given : OptionsAlike likeness options options') :
    RunsAlike likeness (DoneAlike likeness) (perform onward evaluator routine options)
      (perform onward' other routine' options') := by
  induction routines generalizing options options' with
  | finish result result' results =>
      apply RunsAlike.pure
      exact ⟨results, given⟩
  | option name next next' goes ih =>
      apply ih
      · exact BindingsAlike.lookup _ _ given.given name
      · exact ⟨given.given, congrArg (name :: ·) given.asked⟩
  | convert target v w values next next' goes ih =>
      apply RunsAlike.bind
      · exact RunsAlike.ask _ _ fun _ _ envs => Environment.expect_alike envs target v w values
      · apply perform_andThen_alike _ _ _ _ _ given
        intro a b same
        exact ih a b same options options' given
  | declare name v w values next next' goes ih =>
      apply RunsAlike.bind
      · exact RunsAlike.change _ _ fun _ _ envs => Environment.declare_alike envs name v w values
      · apply perform_andThen_alike _ _ _ _ _ given
        intro _ _ _
        exact ih options options' given
  | run scope outer deferred deferred' scopes values next next' goes ih =>
      apply RunsAlike.bind
      · apply RunsAlike.attempt
        cases scopes with
        | none => exact runDeferred_alike onwards evaluators here deferred deferred' values
        | @some scope outer bindings =>
            have extended := evaluators.extend names [] scope outer bindings
            exact runDeferred_alike onwards extended here deferred deferred' values
      · apply perform_andThen_alike _ _ _ _ _ given
        intro v w same
        exact ih v w same options options' given

end

/-! Chains. -/

structure Walk.Alike (likeness : Likeness) (left right : Walk) : Prop where
  values : List.Forall₂ (Value.Alike likeness) left.values right.values
  options : BindingsAlike likeness left.options right.options
  optionPlace : likeness.place left.optionPlace right.optionPlace

theorem names_bindingsAlike (scope outer : Bindings) (alike : BindingsAlike likeness scope outer) :
    scope.map Prod.fst = outer.map Prod.fst := by
  apply map_eq_of_forall₂ Prod.fst _ scope outer alike
  rintro _ _ ⟨name, v, w, values⟩
  rfl

theorem Walk.Alike.start (p q : Position) (places : likeness.place p q) :
    (Walk.start p).Alike likeness (Walk.start q) :=
  ⟨.nil, .nil, places⟩

theorem Walk.Alike.add (walk walk' : Walk) (walks : walk.Alike likeness walk') (v w : Value)
    (values : v.Alike likeness w) : (walk.add v).Alike likeness (walk'.add w) :=
  ⟨.cons values walks.values, walks.options, walks.optionPlace⟩

theorem takeOption_alike (walk walk' : Walk) (walks : walk.Alike likeness walk') (name : String)
    (p q : Position) (places : likeness.place p q) :
    ResultAlike likeness (Walk.Alike likeness) (walk.takeOption name p)
      (walk'.takeOption name q) := by
  obtain ⟨values, options, optionPlace⟩ := walk
  obtain ⟨values', options', optionPlace'⟩ := walk'
  obtain ⟨sames, bindings, _⟩ := walks
  have known := BindingsAlike.lookup _ _ bindings name
  cases sames with
  | nil => exact .error _ _ (.missingOptionValue name p q places)
  | cons first rest =>
      simp only [Walk.takeOption]
      generalize options.lookup name = found at known ⊢
      generalize options'.lookup name = found' at known ⊢
      cases known with
      | none => exact .ok _ _ ⟨rest, .cons (.mk _ _ _ first) bindings, places⟩
      | some same => exact .error _ _ (.duplicateOption name p q places)

theorem walkResult_alike (walk walk' : Walk) (walks : walk.Alike likeness walk') (p q : Position)
    (places : likeness.place p q) :
    ResultAlike likeness (Value.Alike likeness) (walk.result p) (walk'.result q) := by
  obtain ⟨values, options, optionPlace⟩ := walk
  obtain ⟨values', options', optionPlace'⟩ := walk'
  obtain ⟨sames, bindings, optionPlaces⟩ := walks
  have length := sames.length_eq
  have dangling := names_bindingsAlike _ _ bindings
  cases bindings with
  | nil =>
      cases sames with
      | nil => exact .error _ _ (.unconsumed 0 p q places)
      | cons first rest =>
          cases rest with
          | nil => exact .ok _ _ first
          | cons second more =>
              simp only [Walk.result]
              rw [length]
              exact .error _ _ (.unconsumed _ p q places)
  | cons first rest =>
      simp only [Walk.result]
      rw [dangling]
      exact .error _ _ (.danglingOptions _ _ _ optionPlaces)

theorem atCall_alike (f g : Fault) (faults : f.Alike likeness g) (method : String)
    (p q : Position) (places : likeness.place p q) :
    (f.atCall method p).Alike likeness (g.atCall method q) := by
  cases faults with
  | complaint cause other causes => exact .inMethod method cause other p q causes places
  | malformed cause p q places => exact .malformed cause p q places
  | unresolved name p q places => exact .unresolved name p q places
  | arity name expected actual p q places => exact .arity name expected actual p q places
  | missingOptionValue name p q places => exact .missingOptionValue name p q places
  | duplicateOption name p q places => exact .duplicateOption name p q places
  | unusedOptions name names p q places => exact .unusedOptions name names p q places
  | danglingOptions names p q places => exact .danglingOptions names p q places
  | unconsumed leftover p q places => exact .unconsumed leftover p q places
  | inMethod name cause other p q causes places =>
      exact .inMethod name cause other p q causes places
  | canceled => exact .canceled

theorem unused_alike (options options' : Options) (alike : OptionsAlike likeness options options') :
    options.unused = options'.unused := by
  rw [Options.unused, Options.unused, names_bindingsAlike _ _ alike.given, alike.asked]

variable {levels : Nat} {onward onward' : Onward} {evaluator other : Evaluator}

theorem invoke_alike (names : List String) (onwards : OnwardAlike likeness levels onward onward')
    (evaluators : evaluator.Alike likeness names other)
    (here : evaluator.maxDepth - evaluator.depth = levels) (method : Method)
    (steady : method.Steady likeness) (p q : Position) (places : likeness.place p q)
    (walk walk' : Walk) (walks : walk.Alike likeness walk') :
    RunsAlike likeness (Walk.Alike likeness) (invoke onward evaluator method p walk)
      (invoke onward' other method q walk') := by
  have length := walks.values.length_eq
  unfold invoke
  by_cases few : walk.values.length < method.arity
  · rw [if_pos few, if_pos (by omega), length]
    exact RunsAlike.fault _ _ (.arity _ _ _ p q places)
  · rw [if_neg few, if_neg (by omega)]
    have params := List.forall₂_take method.arity walks.values
    have others := List.forall₂_drop method.arity walks.values
    have rests : List.Forall₂ (Value.Alike likeness)
        (if method.takesRest then walk.values.drop method.arity else [])
        (if method.takesRest then walk'.values.drop method.arity else []) := by
      split
      · exact others
      · exact .nil
    have lefts : List.Forall₂ (Value.Alike likeness)
        (if method.takesRest then [] else walk.values.drop method.arity)
        (if method.takesRest then [] else walk'.values.drop method.arity) := by
      split
      · exact .nil
      · exact others
    have routines := steady _ _ _ _ (by rw [List.length_take]; omega) params rests
    apply RunsAlike.bind
    · exact perform_alike onwards evaluators here _ _ routines _ _ ⟨walks.options, rfl⟩
    · rintro ⟨result, options⟩ ⟨result', options'⟩ ⟨results, given⟩
      cases results with
      | error f g faults => exact RunsAlike.fault _ _ (atCall_alike f g faults _ p q places)
      | ok v w values =>
          simp only [unused_alike options options' given]
          cases options'.unused with
          | nil => exact RunsAlike.pure _ _ ⟨.cons values lefts, .nil, walks.optionPlace⟩
          | cons name names => exact RunsAlike.fault _ _ (.unusedOptions _ _ p q places)

theorem resolve_alike (names : List String) (onwards : OnwardAlike likeness levels onward onward')
    (evaluators : evaluator.Alike likeness names other)
    (here : evaluator.maxDepth - evaluator.depth = levels) (name : String) (among : name ∈ names)
    (p q : Position) (places : likeness.place p q) (walk walk' : Walk)
    (walks : walk.Alike likeness walk') :
    RunsAlike likeness (Walk.Alike likeness) (resolve onward evaluator name p walk)
      (resolve onward' other name q walk') := by
  have seen := evaluators.scope name among
  simp only [resolve, Evaluator.transient?]
  generalize evaluator.scope.lookup name = found at seen ⊢
  generalize other.scope.lookup name = found' at seen ⊢
  cases seen with
  | some values => exact RunsAlike.pure _ _ (Walk.Alike.add walk walk' walks _ _ values)
  | none =>
      apply RunsAlike.bind
      · exact RunsAlike.ask _ _ fun _ _ envs => Environment.value?_alike envs name
      · intro variable' variable'' known
        cases known with
        | some values => exact RunsAlike.pure _ _ (Walk.Alike.add walk walk' walks _ _ values)
        | none =>
            apply RunsAlike.bind
            · exact RunsAlike.ask _ _ fun _ _ envs => Environment.method?_alike envs name
            · intro method method' callable
              cases callable with
              | none => exact RunsAlike.fault _ _ (.unresolved name p q places)
              | some same =>
                  obtain ⟨rfl, steady⟩ := same
                  exact invoke_alike names onwards evaluators here _ steady p q places walk walk'
                    walks

-- The walk goes from the last term to the first, so it is the tail that is taken first.
mutual

theorem evaluateTerm_alike (onwards : OnwardAlike likeness levels onward onward') (e e' : Expr)
    (alike : e.Alike likeness e') (evaluators : evaluator.Alike likeness e.names other)
    (here : evaluator.maxDepth - evaluator.depth = levels) :
    RunsAlike likeness (Value.Alike likeness) (evaluateTerm onward evaluator e)
      (evaluateTerm onward' other e') := by
  cases alike with
  | text s => exact RunsAlike.pure _ _ (.text s)
  | number n =>
      cases n with
      | int n => exact RunsAlike.pure _ _ (.int n)
      | decimal x => exact RunsAlike.pure _ _ (.float x)
  | identifier name p q places known =>
      apply RunsAlike.bind
      · exact resolve_alike _ onwards evaluators here name List.mem_cons_self p q places _ _
          (.start p q places)
      · intro walk walk' walks
        exact RunsAlike.ofExcept _ _ (walkResult_alike walk walk' walks p q places)
  | option name p q places =>
      apply RunsAlike.bind
      · exact RunsAlike.ofExcept _ _ (takeOption_alike _ _ (.start p q places) name p q places)
      · intro walk walk' walks
        exact RunsAlike.ofExcept _ _ (walkResult_alike walk walk' walks p q places)
  | deferred body body' bodies =>
      exact RunsAlike.pure _ _ (.deferred body body' _ _ bodies evaluators.scope evaluators.whole)
  | stub value self => exact RunsAlike.pure _ _ self
  | block body body' bodies => exact evaluateTerm_alike onwards body body' bodies evaluators here
  | chain terms terms' pairs =>
      have positions := Expr.firstPosition?_alike terms terms' pairs
      have places : likeness.place ((Expr.firstPosition? terms).getD default)
          ((Expr.firstPosition? terms').getD default) := by
        generalize Expr.firstPosition? terms = first at positions ⊢
        generalize Expr.firstPosition? terms' = first' at positions ⊢
        cases positions with
        | none => exact likeness.placeDefault
        | some places => exact places
      apply RunsAlike.bind
      · exact walkTerms_alike onwards terms terms' pairs evaluators here _ _ (.start _ _ places)
      · intro walk walk' walks
        exact RunsAlike.ofExcept _ _ (walkResult_alike walk walk' walks _ _ places)

theorem walkTerms_alike (onwards : OnwardAlike likeness levels onward onward')
    (terms terms' : List Expr) (alike : List.Forall₂ (Expr.Alike likeness) terms terms')
    (evaluators : evaluator.Alike likeness (Expr.namesAll terms) other)
    (here : evaluator.maxDepth - evaluator.depth = levels) (walk walk' : Walk)
    (walks : walk.Alike likeness walk') :
    RunsAlike likeness (Walk.Alike likeness) (walkTerms onward evaluator walk terms)
      (walkTerms onward' other walk' terms') := by
  cases alike with
  | nil => exact RunsAlike.pure _ _ walks
  | @cons term term' rest rest' first later =>
      have inside : evaluator.Alike likeness term.names other := by
        apply evaluators.mono
        intro name member
        exact List.mem_append_left _ member
      have behind : evaluator.Alike likeness (Expr.namesAll rest) other := by
        apply evaluators.mono
        intro name member
        exact List.mem_append_right _ member
      have adds (e e' : Expr) (walk walk' : Walk) (walks : walk.Alike likeness walk')
          (values : RunsAlike likeness (Value.Alike likeness) (evaluateTerm onward evaluator e)
            (evaluateTerm onward' other e')) :
          RunsAlike likeness (Walk.Alike likeness)
            (do let value ← evaluateTerm onward evaluator e; pure (walk.add value))
            (do let value ← evaluateTerm onward' other e'; pure (walk'.add value)) := by
        apply RunsAlike.bind _ _ _ _ values
        intro v w same
        exact RunsAlike.pure _ _ (Walk.Alike.add walk walk' walks v w same)
      have value := evaluateTerm_alike onwards term term' first inside here
      apply RunsAlike.bind
      · exact walkTerms_alike onwards rest rest' later behind here walk walk' walks
      · intro walk walk' walks
        cases first with
        | identifier name p q places known =>
            exact resolve_alike _ onwards inside here name List.mem_cons_self p q places _ _ walks
        | option name p q places =>
            exact RunsAlike.ofExcept _ _ (takeOption_alike _ _ walks name p q places)
        | text s => exact adds _ _ walk walk' walks value
        | number n => exact adds _ _ walk walk' walks value
        | deferred body body' bodies => exact adds _ _ walk walk' walks value
        | chain terms terms' pairs => exact adds _ _ walk walk' walks value
        | block body body' bodies => exact adds _ _ walk walk' walks value
        | stub v self => exact adds _ _ walk walk' walks value

end

theorem evaluateWithin_alike (again again' : Evaluator → Expr → Run Value) (levels : Nat)
    (evaluator other : Evaluator) (e e' : Expr) (alike : e.Alike likeness e')
    (evaluators : evaluator.Alike likeness e.names other)
    (here : evaluator.maxDepth - evaluator.depth = levels) :
    RunsAlike likeness (Value.Alike likeness) (evaluateWithin again levels evaluator e)
      (evaluateWithin again' levels other e') := by
  induction levels generalizing evaluator other e e' with
  | zero =>
      apply evaluateTerm_alike _ e e' alike evaluators here
      -- On the last level there is no evaluator left that would be deeper.
      intro _ _ _ _ _ _ further
      cases further
  | succ levels ih =>
      apply evaluateTerm_alike _ e e' alike evaluators here
      intro evaluator other e e' alike evaluators further
      exact ih evaluator other e e' alike evaluators (by omega)

theorem evaluate_eq (evaluator : Evaluator) (e : Expr) :
    evaluator.evaluate e =
      evaluateWithin (evaluateUpTo 99999) (evaluator.maxDepth - evaluator.depth) evaluator e := rfl

theorem evaluate_alike (evaluator other : Evaluator) (e e' : Expr) (alike : e.Alike likeness e')
    (evaluators : evaluator.Alike likeness e.names other) :
    RunsAlike likeness (Value.Alike likeness) (evaluator.evaluate e) (other.evaluate e') := by
  rw [evaluate_eq, evaluate_eq, ← evaluators.levels]
  exact evaluateWithin_alike _ _ _ evaluator other e e' alike evaluators rfl

end

end ChainScript
