import ChainScript.Proofs.TwoRuns

/-!
Transients are lexical. Over the methods of the prelude, an expression is evaluated alike whatever
the transients are that it does not name.
-/

namespace ChainScript

namespace Value

mutual

def unscoped : Value → Value
  | .empty => .empty
  | .placeholder => .placeholder
  | .bool b => .bool b
  | .int n => .int n
  | .float x => .float x
  | .text s => .text s
  | .list items => .list (unscopedAll items)
  | .deferred body _ => .deferred body []
  | .host object => .host object
termination_by structural value => value

def unscopedAll : List Value → List Value
  | [] => []
  | item :: rest => item.unscoped :: unscopedAll rest
termination_by structural items => items

end

end Value

def Frame.unscoped (frame : Frame) : Frame :=
  { frame with bindings := frame.bindings.map fun binding => (binding.1, binding.2.unscoped) }

def Environment.unscoped (env : Environment) : Environment :=
  ⟨env.top.unscoped, env.below.map Frame.unscoped⟩

def World.unscoped (world : World) : World := { world with env := world.env.unscoped }

/-- How a run ends, as a value or a fault, up to captured transients. A run that was given up has
no such end. -/
def outcome? : EStateM.Result Halt World Value → Option (Except Fault Value × World)
  | .ok value world => some (.ok value.unscoped, world.unscoped)
  | .error (.fault fault) world => some (.error fault, world.unscoped)
  | .error (.panic _) _ => none
  | .error .exhausted _ => none

/-- Whether all methods and converters are those of the prelude. -/
structure PreludeOnly (env : Environment) : Prop where
  methods : ∀ frame ∈ env.frames, ∀ method ∈ frame.methods, method ∈ Prelude.methods
  converters : ∀ frame ∈ env.frames, ∀ converter ∈ frame.converters,
    converter ∈ Prelude.converters

/-! Where places are the same, alike expressions are. -/

mutual

theorem Expr.eq_of_alike {likeness : Likeness} (fixed : ∀ p q, likeness.place p q → p = q)
    (e other : Expr) (alike : e.Alike likeness other) : e = other := by
  cases alike with
  | text s => rfl
  | number n => rfl
  | identifier name p q places known => rw [fixed p q places]
  | option name p q places => rw [fixed p q places]
  | deferred body other bodies => rw [body.eq_of_alike fixed other bodies]
  | block body other bodies => rw [body.eq_of_alike fixed other bodies]
  | chain terms others alike => rw [Expr.all_eq_of_alike fixed terms others alike]
  | stub value self => rfl

theorem Expr.all_eq_of_alike {likeness : Likeness} (fixed : ∀ p q, likeness.place p q → p = q)
    (terms others : List Expr) (alike : List.Forall₂ (Expr.Alike likeness) terms others) :
    terms = others := by
  cases alike with
  | nil => rfl
  | cons first rest =>
      rw [Expr.eq_of_alike fixed _ _ first, Expr.all_eq_of_alike fixed _ _ rest]

end

/-! Exact likeness is equality up to captured transients. -/

section

variable {named : String → Prop}

mutual

theorem Value.unscoped_of_exact (v w : Value) (alike : v.Alike (.exact named) w) :
    v.unscoped = w.unscoped := by
  cases alike with
  | list items others alike =>
      simp only [Value.unscoped, Value.unscopedAll_of_exact items others alike]
  | deferred body other scope outer bodies agree captured =>
      simp only [Value.unscoped, body.eq_of_alike (fun _ _ => id) other bodies]
  | _ => rfl

theorem Value.unscopedAll_of_exact (items others : List Value)
    (alike : List.Forall₂ (Value.Alike (.exact named)) items others) :
    Value.unscopedAll items = Value.unscopedAll others := by
  cases alike with
  | nil => rfl
  | cons first rest =>
      simp only [Value.unscopedAll, Value.unscoped_of_exact _ _ first,
        Value.unscopedAll_of_exact _ _ rest]

end

theorem Fault.eq_of_exact (f g : Fault) (alike : f.Alike (.exact named) g) : f = g := by
  have causes (cause other : Complaint) (alike : cause.Alike (.exact named) other) :
      cause = other := by
    cases alike with
    | same cause => rfl
    | tooDeep limit other limits => exact congrArg Complaint.tooDeep limits
  cases alike with
  | malformed cause p q places => exact congrArg (Fault.malformed cause) places
  | unresolved name p q places => exact congrArg (Fault.unresolved name) places
  | arity method expected actual p q places =>
      exact congrArg (Fault.arity method expected actual) places
  | missingOptionValue name p q places => exact congrArg (Fault.missingOptionValue name) places
  | duplicateOption name p q places => exact congrArg (Fault.duplicateOption name) places
  | unusedOptions method names p q places =>
      exact congrArg (Fault.unusedOptions method names) places
  | danglingOptions names p q places => exact congrArg (Fault.danglingOptions names) places
  | unconsumed leftover p q places => exact congrArg (Fault.unconsumed leftover) places
  | inMethod method cause other p q alike places =>
      exact congrArg₂ (Fault.inMethod method) (causes cause other alike) places
  | complaint cause other alike => exact congrArg Fault.complaint (causes cause other alike)
  | canceled => rfl

theorem Frame.unscoped_of_exact (left right : Frame) (alike : left.Alike (.exact named) right) :
    left.unscoped = right.unscoped := by
  have bindings := map_eq_of_forall₂ (fun binding => (binding.1, binding.2.unscoped)) ?_ _ _
    alike.bindings
  · simp only [Frame.unscoped, alike.methods, alike.converters, bindings]
  · rintro _ _ ⟨name, v, w, values⟩
    rw [Value.unscoped_of_exact v w values]

theorem World.unscoped_of_exact (left right : World) (alike : left.Alike (.exact named) right) :
    left.unscoped = right.unscoped := by
  obtain ⟨env, counters⟩ := alike
  have below := map_eq_of_forall₂ Frame.unscoped Frame.unscoped_of_exact _ _ env.below
  simp only [World.unscoped, Environment.unscoped, counters, below,
    Frame.unscoped_of_exact _ _ env.top]

theorem outcome_of_exact (left right : EStateM.Result Halt World Value)
    (ends : EndsAlike (.exact named) (Value.Alike (.exact named)) left right) :
    ∃ outcome, outcome? left = some outcome ∧ outcome? right = some outcome := by
  cases ends with
  | ok v w world other values worlds =>
      have same := Value.unscoped_of_exact v w values
      have after := World.unscoped_of_exact world other worlds
      exact ⟨(.ok w.unscoped, other.unscoped), by simp [outcome?, same, after], rfl⟩
  | fault f g world other faults worlds =>
      have same := Fault.eq_of_exact f g faults
      have after := World.unscoped_of_exact world other worlds
      exact ⟨(.error g, other.unscoped), by simp [outcome?, same, after], rfl⟩

end

/-! Worlds over the prelude. -/

theorem World.alike_self {likeness : Likeness} (world : World) (prelude : PreludeOnly world.env)
    (bindings : ∀ frame ∈ world.env.frames,
      BindingsAlike likeness frame.bindings frame.bindings) : world.Alike likeness world := by
  have frame (frame : Frame) (member : frame ∈ world.env.frames) : frame.Alike likeness frame := by
    constructor
    · rfl
    · rfl
    · exact bindings frame member
    · intro method found
      exact Prelude.steady_methods method (prelude.methods frame member method found)
    · intro converter found
      exact Prelude.steady_converters converter (prelude.converters frame member converter found)
  constructor
  · constructor
    · exact frame _ List.mem_cons_self
    · apply List.forall₂_same.mpr
      intro below member
      exact frame below (List.mem_cons_of_mem _ member)
  · rfl

theorem World.alike_refl {likeness : Likeness} (places : ∀ p, likeness.place p p)
    (all : ∀ name, likeness.named name) (world : World) (prelude : PreludeOnly world.env) :
    world.Alike likeness world :=
  world.alike_self prelude fun frame _ => BindingsAlike.refl places all frame.bindings

-- A change of the top frame that adds nothing but what the prelude has.
theorem PreludeOnly.top (env : Environment) (prelude : PreludeOnly env) (top : Frame)
    (methods : ∀ method ∈ top.methods, method ∈ env.top.methods ∨ method ∈ Prelude.methods)
    (converters : ∀ converter ∈ top.converters,
      converter ∈ env.top.converters ∨ converter ∈ Prelude.converters) :
    PreludeOnly { env with top := top } := by
  constructor
  · intro frame member method found
    rcases List.mem_cons.mp member with rfl | below
    · rcases methods method found with old | new
      · exact prelude.methods env.top List.mem_cons_self method old
      · exact new
    · exact prelude.methods frame (List.mem_cons_of_mem _ below) method found
  · intro frame member converter found
    rcases List.mem_cons.mp member with rfl | below
    · rcases converters converter found with old | new
      · exact prelude.converters env.top List.mem_cons_self converter old
      · exact new
    · exact prelude.converters frame (List.mem_cons_of_mem _ below) converter found

theorem PreludeOnly.declareIn (env next : Environment) (prelude : PreludeOnly env)
    (declaration : Declaration) (member : declaration ∈ Prelude.declarations)
    (declared : declaration.declareIn env = .ok next) : PreludeOnly next := by
  simp only [Prelude.declarations, List.mem_append, List.mem_map] at member
  -- A declaration is a variable, a converter or a method, and only the last two add to a frame
  -- what has to be known.
  rcases member with (⟨binding, _, rfl⟩ | ⟨converter, inPrelude, rfl⟩) | ⟨method, inPrelude, rfl⟩
  · simp only [Declaration.declareIn, Environment.declare] at declared
    split at declared
    · cases declared
    · cases declared
      exact prelude.top env _ (fun _ old => .inl old) fun _ old => .inl old
  · cases declared
    apply prelude.top env
    · exact fun _ old => .inl old
    · intro other found
      rcases List.mem_append.mp found with old | new
      · exact .inl old
      · rw [List.mem_singleton.mp new]
        exact .inr inPrelude
  · simp only [Declaration.declareIn, Environment.define] at declared
    split at declared
    · cases declared
    · cases declared
      apply prelude.top env
      · intro other found
        rcases List.mem_cons.mp found with rfl | old
        · exact .inr inPrelude
        · exact .inl old
      · exact fun _ old => .inl old

theorem PreludeOnly.declareAll (declarations : List Declaration) (env : Environment)
    (prelude : PreludeOnly env)
    (known : ∀ declaration ∈ declarations, declaration ∈ Prelude.declarations) :
    PreludeOnly (declareAll env declarations).2 := by
  induction declarations generalizing env with
  | nil => exact prelude
  | cons declaration rest ih =>
      simp only [ChainScript.declareAll]
      split
      · next next declared =>
          apply ih
          · exact prelude.declareIn env next declaration (known _ List.mem_cons_self) declared
          · intro other member
            exact known other (List.mem_cons_of_mem declaration member)
      · exact prelude

theorem preludeOnly_environment : PreludeOnly Prelude.environment := by
  apply PreludeOnly.declareAll Prelude.declarations {}
  · constructor <;> simp [Environment.frames]
  · intro declaration member
    exact member

/-- Two evaluators that see the same transients of these names have the same outcome where nothing
else is named. If they hand their transients on, names of an expression alone are not enough. -/
theorem evaluate_agreeing (named : String → Prop) (left right : Evaluator) (e : Expr)
    (world : World) (prelude : PreludeOnly world.env) (within : e.Within named)
    (stored : ∀ frame ∈ world.env.frames, Value.BoundWithin named frame.bindings)
    (extended : left.extended = right.extended) (depth : left.depth = right.depth)
    (limit : left.maxDepth = right.maxDepth)
    (same : ∀ name, name ∈ e.names ∨ left.extended = true ∧ named name →
      left.transient? name = right.transient? name ∧
        ∀ value, left.transient? name = some value → value.Within named) :
    ∃ outcome, outcome? (left.evaluate e world) = some outcome ∧
      outcome? (right.evaluate e world) = some outcome := by
  have seen (name : String) (matters : name ∈ e.names ∨ left.extended = true ∧ named name) :
      Option.Rel (Value.Alike (.exact named)) (left.scope.lookup name)
        (right.scope.lookup name) := by
    obtain ⟨found, values⟩ := same name matters
    simp only [Evaluator.transient?] at found values
    rw [← found]
    cases known : left.scope.lookup name with
    | none => exact .none
    | some v => exact .some (v.alike_self (fun _ => rfl) (values v known))
  have evaluators : left.Alike (.exact named) e.names right := by
    constructor
    · exact fun name member => seen name (.inl member)
    · exact extended
    · exact fun handed name known => seen name (.inr ⟨handed, known⟩)
    · rw [depth, limit]
    · exact limit
    · exact False.elim
  have worlds : world.Alike (.exact named) world :=
    world.alike_self prelude fun frame member =>
      BindingsAlike.self (fun _ => rfl) frame.bindings (stored frame member)
  apply outcome_of_exact
  exact evaluate_alike left right e e (e.alike_self (fun _ => rfl) within) evaluators world world
    worlds

theorem evaluate_exact (left right : Evaluator) (e : Expr) (world : World)
    (prelude : PreludeOnly world.env) (plain : left.extended = false)
    (plain' : right.extended = false) (depth : left.depth = right.depth)
    (limit : left.maxDepth = right.maxDepth)
    (same : ∀ name ∈ e.names, left.transient? name = right.transient? name) :
    ∃ outcome, outcome? (left.evaluate e world) = some outcome ∧
      outcome? (right.evaluate e world) = some outcome := by
  have all : ∀ name : String, (fun _ => True) name := fun _ => trivial
  apply evaluate_agreeing (fun _ => True) left right e world prelude (Expr.within_of_all all e)
  · exact fun frame _ => Value.boundWithin_of_all all frame.bindings
  · rw [plain, plain']
  · exact depth
  · exact limit
  · rintro name (member | ⟨extended, _⟩)
    · exact ⟨same name member, fun value _ => Value.within_of_all all value⟩
    · rw [plain] at extended
      cases extended

/-- Only the transients that an expression names can matter to it. Two evaluators that see the
same values for these names have the same outcome, and so a transient of another name is as good
as none, also for what deferred values from variables name in their bodies. -/
theorem evaluate_named_transients :
    (∀ (left right : Evaluator) (e : Expr) (world : World), PreludeOnly world.env →
      left.extended = false → right.extended = false → left.depth = right.depth →
      left.maxDepth = right.maxDepth →
      (∀ name ∈ e.names, left.transient? name = right.transient? name) →
      ∃ outcome, outcome? (left.evaluate e world) = some outcome ∧
        outcome? (right.evaluate e world) = some outcome) ∧
    (∀ (evaluator : Evaluator) (e : Expr) (world : World) (name : String) (value : Value),
      PreludeOnly world.env → evaluator.extended = false → name ∉ e.names →
      ∃ outcome, outcome? (evaluator.evaluate e world) = some outcome ∧
        outcome? ({ evaluator with scope := (name, value) :: evaluator.scope }.evaluate e world) =
          some outcome) := by
  constructor
  · intro left right e world prelude plain plain' depth limit same
    exact evaluate_exact left right e world prelude plain plain' depth limit same
  · intro evaluator e world name value prelude plain absent
    apply evaluate_exact evaluator { evaluator with scope := (name, value) :: evaluator.scope } e
      world prelude plain plain rfl rfl
    intro other member
    -- The transient that was added is passed over, for its name is not among those asked for.
    have different : (other == name) = false := by
      apply beq_eq_false_iff_ne.mpr
      rintro rfl
      exact absent member
    simp [Evaluator.transient?, List.lookup_cons, different]

theorem evaluate_run_variable :
    ∃ world : World, world.env.value? "later" = some (.deferred (.identifier "x" default) []) ∧
      ∃ outcome,
        outcome? (Evaluator.evaluate { scope := [("x", .int 1)] }
          (.chain [.identifier "run" default, .identifier "later" default]) world) = some outcome ∧
        outcome? (Evaluator.evaluate {}
          (.chain [.identifier "run" default, .identifier "later" default]) world) =
            some outcome := by
  refine ⟨{ env := { Prelude.environment with top := { Prelude.environment.top with
    bindings := [("later", .deferred (.identifier "x" default) [])] } } }, rfl, ?_⟩
  apply evaluate_named_transients.1
  · exact preludeOnly_environment.top _ _ (fun _ old => .inl old) fun _ old => .inl old
  · rfl
  · rfl
  · rfl
  · rfl
  · intro name member
    have names : name = "run" ∨ name = "later" := by
      simpa [Expr.names, Expr.namesAll] using member
    rcases names with rfl | rfl <;> rfl

end ChainScript
