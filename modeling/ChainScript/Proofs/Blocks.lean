import ChainScript.Proofs.Growth

/-!
Blocks: routines that are done in a frame of their own. A block can do whatever opens frames only
for blocks in turn. At every moment of it the frames outside are there as they were, below its own;
and however it ends, nothing is left of it but its result.
-/

namespace ChainScript

/-- Whether a routine opens frames only for blocks. What it defines can be anything. -/
def Routine.Framed : Routine → Prop
  | .finish _ | .panic _ => True
  | .option _ next => ∀ found, (next found).Framed
  | .optionCount next => ∀ count, (next count).Framed
  | .convert _ _ next => ∀ result, (next result).Framed
  | .variableValue _ next => ∀ found, (next found).Framed
  | .caller next => ∀ evaluator, (next evaluator).Framed
  | .declare _ _ next | .define _ _ _ _ next => ∀ result, (next result).Framed
  | .register _ next => next.Framed
  | .push _ | .pop _ => False
  | .inFrame inner next => inner.Framed ∧ ∀ result, (next result).Framed
  | .evaluate _ _ next | .run _ _ next => ∀ result, (next result).Framed
  | .tick _ next => ∀ count, (next count).Framed

def Method.Framed (method : Method) : Prop :=
  ∀ params rest, (method.body params rest).Framed

/-! Moments. -/

/-- A world that a run comes through, and the method that is called there if one is. -/
structure Moment where
  world : World
  called? : Option Method := none

def Journal.moments : Journal Moment where
  reached world := [{ world := world }]
  called call world := [⟨world, some call.method⟩]

/-- Who does a routine: the host, or a method for which that many callbacks and levels of bodies
are left. -/
inductive Doer where
  | host
  | method (callbacks levels : Nat)

namespace Doer

def onward : Doer → Onward
  | .host => ⟨Evaluator.evaluate, Evaluator.evaluate⟩
  | .method callbacks levels =>
      ⟨evaluateUpTo callbacks, evaluateWithin (evaluateUpTo callbacks) levels⟩

def moments : Doer → OnwardLog Moment
  | .host => ⟨Journal.moments.upTo callbackLimit, Journal.moments.upTo callbackLimit⟩
  | .method callbacks levels =>
      ⟨Journal.moments.upTo callbacks,
        Journal.moments.within (evaluateUpTo callbacks) (Journal.moments.upTo callbacks) levels⟩

variable (doer : Doer) (evaluator : Evaluator) (body : Routine) (options : Options)

def block : Run (Except Fault Value × Options) :=
  Run.inFrame (perform doer.onward evaluator body options)

def during (world : World) : List Moment :=
  { world := { world with env := world.env.push } } ::
    Journal.moments.perform doer.onward doer.moments evaluator body options
      { world with env := world.env.push }

end Doer

def withEnv {α : Type} (env : Environment) :
    EStateM.Result Halt World α → EStateM.Result Halt World α
  | .ok a after => .ok a { after with env := env }
  | .error halt after => .error halt { after with env := env }

/-! Runs that stay above the frames below them. -/

/-- Whether the method that is called at a moment, if any, opens frames only for blocks. -/
def Moment.Framed (moment : Moment) : Prop :=
  ∀ method ∈ moment.called?, method ∈ Prelude.methods ∨ method.Framed

/-- Whether a run stays above the frames below the top one: they are there at every moment, and in
the end nothing else is below the top. -/
structure Above (moments : List Moment) (world after : World) : Prop where
  back : after.env.below = world.env.below
  throughout : ∀ moment ∈ moments, world.env.below <:+ moment.world.env.below

/-- Whether a run stays above, as long as the methods that it calls open frames only for blocks. -/
def Enclosed {α : Type} (moments : List Moment) (world : World)
    (result : EStateM.Result Halt World α) : Prop :=
  (∀ moment ∈ moments, moment.Framed) → Above moments world (worldAfter result)

theorem Above.refl (world : World) : Above [] world world :=
  ⟨rfl, List.forall_mem_nil _⟩

theorem Above.trans {moments more : List Moment} {first second third : World}
    (sooner : Above moments first second) (later : Above more second third) :
    Above (moments ++ more) first third := by
  refine ⟨later.back.trans sooner.back, List.forall_mem_append.mpr ⟨sooner.throughout, ?_⟩⟩
  rw [← sooner.back]
  exact later.throughout

theorem Above.now (moment : Moment) : Above [moment] moment.world moment.world := by
  refine ⟨rfl, fun other member => ?_⟩
  obtain rfl := List.mem_singleton.mp member
  exact List.suffix_rfl

section

variable {α β : Type} {moments : List Moment} {world : World}

theorem Enclosed.quiet (result : EStateM.Result Halt World α)
    (back : (worldAfter result).env.below = world.env.below) : Enclosed [] world result :=
  fun _ => ⟨back, List.forall_mem_nil _⟩

theorem Enclosed.step (run : Run α) (next : α → Run β) (following : α → World → List Moment)
    (first : Enclosed moments world (run world))
    (later : ∀ a after, Enclosed (following a after) after (next a after)) :
    Enclosed (moments ++ Journal.moments.behind run following world) world
      ((run >>= next) world) := by
  intro framed
  obtain ⟨sooner, rest⟩ := List.forall_mem_append.mp framed
  obtain ⟨_, behind⟩ := List.forall_mem_append.mp rest
  have start := (first sooner).trans (.now { world := worldAfter (run world) })
  rw [Journal.behind, ← List.append_assoc]
  simp only [Bind.bind, EStateM.bind, behindRun] at behind ⊢
  cases ended : run world with
  | error halt after =>
      rw [ended] at start
      rw [List.append_nil]
      exact start
  | ok a after =>
      rw [ended] at start behind
      exact start.trans (later a after behind)

theorem Enclosed.attempt (run : Run α) (enclosed : Enclosed moments world (run world)) :
    Enclosed moments world (run.attempt world) := by
  intro framed
  rw [worldAfter_attempt]
  exact enclosed framed

/-! Blocks. -/

theorem inFrame_eq (run : Run α)
    (back : (worldAfter (run { world with env := world.env.push })).env.below = world.env.frames) :
    Run.inFrame run world = withEnv world.env (run { world with env := world.env.push }) := by
  have popped (after : World) (frames : after.env.below = world.env.frames) :
      after.env.pop? = some world.env := by
    rw [Environment.pop?, frames]
    rfl
  simp only [Run.inFrame]
  cases ended : run { world with env := world.env.push } with
  | ok a after =>
      rw [ended] at back
      simp only [Bind.bind, EStateM.bind, Run.pop, popped after back]
      rfl
  | error halt after =>
      rw [ended] at back
      simp only [Bind.bind, EStateM.bind, Run.pop, popped after back]
      rfl

theorem worldAfter_withEnv (env : Environment) (result : EStateM.Result Halt World α) :
    (worldAfter (withEnv env result)).env = env := by
  cases result <;> rfl

theorem Enclosed.block (run : Run α)
    (enclosed : Enclosed moments { world with env := world.env.push }
      (run { world with env := world.env.push })) :
    Enclosed ({ world := { world with env := world.env.push } } :: moments) world
      (Run.inFrame run world) := by
  intro framed
  have stays := enclosed (List.forall_mem_cons.mp framed).2
  have below : world.env.below <:+ world.env.frames := List.suffix_cons _ _
  constructor
  · rw [inFrame_eq run stays.back, worldAfter_withEnv]
  · refine List.forall_mem_cons.mpr ⟨below, ?_⟩
    intro moment member
    exact below.trans (stays.throughout moment member)

end

/-! Routines. -/

theorem Routine.framed_andThen {α : Type} (next : α → Routine) (goes : ∀ a, (next a).Framed)
    (result : Except Fault α) : (andThen next result).Framed := by
  cases result with
  | ok a => exact goes a
  | error cause => trivial

theorem Routine.Candid.framed {declares : Prop} (routine : Routine)
    (candid : routine.Candid (fun _ => True) declares) : routine.Framed := by
  induction candid with
  | answer value _ => trivial
  | complain cause => trivial
  | option name next goes ih => exact fun found => ih found fun value _ => value.quotes_true
  | convert target value _ next goes ih =>
      exact framed_andThen next fun a => ih a (target.quotes_of_all _ Value.quotes_true a)
  | declare _ name value _ next goes ih => exact framed_andThen next fun _ => ih
  | run bindings deferred _ _ next goes ih =>
      exact framed_andThen next fun value => ih value value.quotes_true

/-- Staying above as an invariant, of runs that call nothing but what opens frames for blocks. -/
def enclosure : RunInvariant Journal.moments where
  toSetting := .everywhere (fun _ => True) fun method => method ∈ Prelude.methods ∨ method.Framed
  admits := Moment.Framed
  comes _ before moments after _ := Above moments before after
  refl := .refl _
  trans := .trans
  reached above := above.trans (.now _)
  called := .now _
  callable_called _ _ call _ _ admitted := admitted _ List.mem_cons_self call.method rfl
  complains _ := .refl _
  catches above := above
  enters {_ _ _ _ course} _ above := by
    have silent : course.closing Journal.moments.left = [] := by cases course <;> rfl
    rw [silent]
    exact above.trans (.refl _)
  answers := .refl _
  attributes _ above := above.trans (.refl _)
  objects _ _ := .refl _
  unconsumed _ _ _ _ _ := .refl _

theorem enclosed_of_holds {α : Type} {levels : Nat} {view : α → Course} {good : α → Prop}
    {moments : List Moment} {world : World} {result : EStateM.Result Halt World α}
    (holds : enclosure.Holds levels view good world moments result) :
    Enclosed moments world result :=
  fun framed => (holds framed).comes

section

variable {onward : Onward} {inner : OnwardLog Moment} {evaluator : Evaluator}
  (again : ∀ evaluator e world,
    Enclosed (inner.again evaluator e world) world (onward.again evaluator e world))
  (bodies : enclosure.BodiesEnd onward inner evaluator)

include again bodies

-- By induction on the routine. A step changes nothing but the top frame, and a block not even that.
-- A routine may go on behind a fault, so it need not be candid.
theorem perform_enclosed (routine : Routine) (framed : routine.Framed) (options : Options)
    (world : World) :
    Enclosed (Journal.moments.perform onward inner evaluator routine options world) world
      (perform onward evaluator routine options world) := by
  induction routine generalizing options world with
  | finish result => exact .quiet _ rfl
  | panic text => exact .quiet _ rfl
  | option name next ih => exact ih _ (framed _) _ world
  | optionCount next ih => exact ih _ (framed _) _ world
  | caller next ih => exact ih _ (framed _) _ world
  | convert target value next ih =>
      exact .step _ _ _ (.quiet _ rfl) fun result after => ih result (framed result) options after
  | variableValue name next ih =>
      exact .step _ _ _ (.quiet _ rfl) fun found after => ih found (framed found) options after
  | declare name value next ih =>
      exact .step _ _ _ (.quiet _ (below_declare name value world)) fun result after =>
        ih result (framed result) options after
  | define name arity takesRest body next _ ih =>
      exact .step _ _ _ (.quiet _ (below_define _ world)) fun result after =>
        ih result (framed result) options after
  | register converter next ih =>
      exact .step _ _ _ (.quiet _ rfl) fun _ after => ih framed options after
  | push next ih => exact framed.elim
  | pop next ih => exact framed.elim
  | inFrame block next within ih =>
      apply Enclosed.step
      · exact .block _ (within framed.1 options _)
      · exact fun done after => ih done.1 (framed.2 done.1) done.2 after
  | evaluate chosen e next ih =>
      apply Enclosed.step
      · exact (again chosen e world).attempt
      · exact fun result after => ih result (framed result) options after
  | run bindings deferred next ih =>
      rw [perform_run]
      apply Enclosed.step
      · apply enclosed_of_holds
        exact bodies bindings deferred world (fun scope _ => quoting_true scope)
          (Value.quotes_true _) trivial
      · exact fun result after => ih result (framed result) options after
  | tick counter next ih =>
      exact .step _ _ _ (.quiet _ rfl) fun count after => ih count (framed count) options after

theorem methodsAnswer_enclosure : enclosure.MethodsAnswer onward inner evaluator := by
  intro method harmless params rest options world _ _ _ _ admitted
  have framed : (method.body params rest).Framed := by
    rcases harmless with known | framed
    · exact (Prelude.candid_true method known params rest).framed
    · exact framed params rest
  have stays := perform_enclosed again bodies _ framed ⟨options, []⟩ world admitted
  exact ⟨stays, fun _ _ _ _ => ⟨trivial, fun value _ => value.quotes_true⟩⟩

end

/-! Evaluations. -/

theorem evaluateWithin_enclosed (again : Evaluator → Expr → Run Value)
    (moments : Evaluator → Expr → World → List Moment)
    (callbacks : ∀ evaluator e world,
      Enclosed (moments evaluator e world) world (again evaluator e world))
    (levels : Nat) (evaluator : Evaluator) (e : Expr) (world : World) :
    Enclosed (Journal.moments.within again moments levels evaluator e world) world
      (evaluateWithin again levels evaluator e world) := by
  have methods : ∀ deeper more evaluator,
      enclosure.BodiesEnd ⟨again, deeper⟩ ⟨moments, more⟩ evaluator →
        enclosure.MethodsAnswer ⟨again, deeper⟩ ⟨moments, more⟩ evaluator :=
    fun _ _ _ bodies => methodsAnswer_enclosure callbacks bodies
  exact enclosed_of_holds (RunInvariant.evaluateWithin_holds again moments methods levels evaluator
    (quoting_true evaluator.scope) (.inr fun _ world => .refl world) e trivial world trivial)

theorem evaluateUpTo_enclosed (callbacks : Nat) (evaluator : Evaluator) (e : Expr)
    (world : World) :
    Enclosed (Journal.moments.upTo callbacks evaluator e world) world
      (evaluateUpTo callbacks evaluator e world) := by
  induction callbacks generalizing evaluator e world with
  | zero => exact .quiet _ rfl
  | succ callbacks ih => exact evaluateWithin_enclosed _ _ ih _ evaluator e world

namespace Doer

variable (doer : Doer)

theorem again_enclosed (evaluator : Evaluator) (e : Expr) (world : World) :
    Enclosed (doer.moments.again evaluator e world) world
      (doer.onward.again evaluator e world) := by
  cases doer with
  | host => exact evaluateUpTo_enclosed callbackLimit evaluator e world
  | method callbacks levels => exact evaluateUpTo_enclosed callbacks evaluator e world

theorem deeper_enclosed (evaluator : Evaluator) (e : Expr) (world : World) :
    Enclosed (doer.moments.deeper evaluator e world) world
      (doer.onward.deeper evaluator e world) := by
  cases doer with
  | host => exact evaluateUpTo_enclosed callbackLimit evaluator e world
  | method callbacks levels =>
      exact evaluateWithin_enclosed _ _ (evaluateUpTo_enclosed callbacks) levels evaluator e world

theorem bodiesEnd (evaluator : Evaluator) :
    enclosure.BodiesEnd doer.onward doer.moments evaluator := by
  have scope : Quoting enclosure.part evaluator.scope := quoting_true evaluator.scope
  apply RunInvariant.bodiesEnd_of_deeper scope
  intro inside e world _ _ _ _ framed
  exact ⟨doer.deeper_enclosed inside e world framed,
    fun value _ _ _ => ⟨trivial, value.quotes_true⟩⟩

end Doer

/-- Whether an environment has frames of its own on top of those of another one. It knows what the
other one knows, except for what its own frames know. -/
structure Environment.Covers (env outer : Environment) (inner : List Frame) : Prop where
  frames : env.frames = inner ++ outer.frames
  own : inner ≠ []
  value : ∀ name, env.value? name = (inner.findSome? (·.value? name)).or (outer.value? name)
  method : ∀ name, env.method? name = (inner.findSome? (·.method? name)).or (outer.method? name)
  converted : ∀ target value, env.converted target value =
    (inner.findSome? fun frame => firstConversion target value frame.converters).or
      (outer.converted target value)

theorem Environment.covers_of_suffix (env outer : Environment)
    (suffix : outer.frames <:+ env.below) : ∃ inner, env.Covers outer inner := by
  obtain ⟨between, whole⟩ := suffix
  have frames : env.frames = (env.top :: between) ++ outer.frames := by
    rw [List.cons_append, whole]
    rfl
  have looked {α : Type} (look : Frame → Option α) : env.frames.findSome? look =
      ((env.top :: between).findSome? look).or (outer.frames.findSome? look) := by
    rw [frames, List.findSome?_append]
  exact ⟨_, frames, List.cons_ne_nil _ _, fun _ => looked _, fun _ => looked _, fun _ _ => looked _⟩

/-- A block that opens frames only for blocks, and calls no method that does otherwise, leaves the
environment as it was, however it ends: with a value, with a fault, or because the whole run is
given up. At every moment of it the frames outside are the lower ones, so that what is declared
there is known unless a frame of the block shadows it. -/
theorem block_restores (doer : Doer) (evaluator : Evaluator) (body : Routine) (options : Options)
    (world : World) (framed : body.Framed)
    (known : ∀ moment ∈ doer.during evaluator body options world, moment.Framed) :
    doer.block evaluator body options world =
        withEnv world.env
          (perform doer.onward evaluator body options { world with env := world.env.push }) ∧
      (worldAfter (doer.block evaluator body options world)).env = world.env ∧
      ∀ moment ∈ doer.during evaluator body options world,
        ∃ inner, moment.world.env.Covers world.env inner := by
  have stays := perform_enclosed doer.again_enclosed (doer.bodiesEnd evaluator) body framed options
    { world with env := world.env.push } (List.forall_mem_cons.mp known).2
  have ends := inFrame_eq (perform doer.onward evaluator body options) stays.back
  refine ⟨ends, ?_, ?_⟩
  · rw [Doer.block, ends, worldAfter_withEnv]
  · intro moment member
    apply Environment.covers_of_suffix
    rcases List.mem_cons.mp member with rfl | later
    · exact List.suffix_rfl
    · exact stays.throughout moment later

/-- Shadows a variable, evaluates a script that fails, and gives up in a block of its own. -/
def givingUp : Routine :=
  .declare "x" (.int 2) fun _ =>
    .evaluate {} (.chain [.identifier "not" ⟨0, 1⟩, .identifier "x" ⟨4, 1⟩]) fun _ =>
      .inFrame (.panic "stop") .finish

theorem block_restores_givingUp :
    ∃ world : World, world.env.value? "x" = some (.int 1) ∧
      (∃ after : World, Doer.block .host {} givingUp ⟨[], []⟩ world = .error (.panic "stop") after ∧
        after.env = world.env) ∧
      ∀ moment ∈ Doer.during .host {} givingUp ⟨[], []⟩ world,
        ∃ inner, moment.world.env.Covers world.env inner := by
  let world : World :=
    { env := { top := { methods := Prelude.logicMethods, bindings := [("x", .int 1)] } } }
  have calls : (Doer.during .host {} givingUp ⟨[], []⟩ world).filterMap Moment.called? =
      Prelude.logicMethods.take 1 := rfl
  have known (moment : Moment) (member : moment ∈ Doer.during .host {} givingUp ⟨[], []⟩ world) :
      moment.Framed := by
    intro method called
    have listed := List.mem_filterMap.mpr ⟨moment, member, called⟩
    rw [calls] at listed
    have logic : method ∈ Prelude.logicMethods := List.mem_of_mem_take listed
    exact .inl (by simp [Prelude.methods, logic])
  have framed : givingUp.Framed := fun _ _ => ⟨trivial, fun _ => trivial⟩
  obtain ⟨ends, restored, covered⟩ := block_restores .host {} givingUp ⟨[], []⟩ world framed known
  exact ⟨world, rfl, ⟨_, ends, rfl⟩, covered⟩

end ChainScript
