import ChainScript.Proofs.Growth

/-!
Methods that evaluate nothing. They can look at the environment and change it, but nothing happens
in them, and what they define is as harmless as they are.
-/

namespace ChainScript

/-- Routines that evaluate nothing. What they define evaluates nothing, or the prelude has it. -/
inductive Routine.Inert : Routine → Prop where
  | finish (result : Except Fault Value) : Routine.Inert (.finish result)
  | panic (text : String) : Routine.Inert (.panic text)
  | option (name : String) (next : Option Value → Routine)
      (goes : ∀ found, Routine.Inert (next found)) : Routine.Inert (.option name next)
  | optionCount (next : Nat → Routine) (goes : ∀ count, Routine.Inert (next count)) :
      Routine.Inert (.optionCount next)
  | convert (target : Target) (value : Value) (next : Except Fault target.denote → Routine)
      (goes : ∀ result, Routine.Inert (next result)) : Routine.Inert (.convert target value next)
  | variableValue (name : String) (next : Option Value → Routine)
      (goes : ∀ found, Routine.Inert (next found)) : Routine.Inert (.variableValue name next)
  | caller (next : Evaluator → Routine) (goes : ∀ evaluator, Routine.Inert (next evaluator)) :
      Routine.Inert (.caller next)
  | declare (name : String) (value : Value) (next : Except Fault Unit → Routine)
      (goes : ∀ result, Routine.Inert (next result)) : Routine.Inert (.declare name value next)
  | define (name : String) (arity : Nat) (takesRest : Bool)
      (body : List Value → List Value → Routine) (next : Except Fault Unit → Routine)
      (bodies : ∀ params rest, Routine.Inert (body params rest))
      (goes : ∀ result, Routine.Inert (next result)) :
      Routine.Inert (.define name arity takesRest body next)
  | supply (method : Method) (known : method ∈ Prelude.methods)
      (next : Except Fault Unit → Routine) (goes : ∀ result, Routine.Inert (next result)) :
      Routine.Inert (.define method.name method.arity method.takesRest method.body next)
  | register (converter : Converter) (next : Routine) (goes : Routine.Inert next) :
      Routine.Inert (.register converter next)
  | push (next : Routine) (goes : Routine.Inert next) : Routine.Inert (.push next)
  | pop (next : Routine) (goes : Routine.Inert next) : Routine.Inert (.pop next)
  | inFrame (inner : Routine) (next : Except Fault Value → Routine) (inside : Routine.Inert inner)
      (goes : ∀ result, Routine.Inert (next result)) : Routine.Inert (.inFrame inner next)
  | tick (counter : Nat) (next : Nat → Routine) (goes : ∀ count, Routine.Inert (next count)) :
      Routine.Inert (.tick counter next)

/-- Whether a method is one of the prelude, or evaluates nothing. -/
def Method.Tame (method : Method) : Prop :=
  method ∈ Prelude.methods ∨ ∀ params rest, (method.body params rest).Inert

def TameMethods (env : Environment) : Prop :=
  ∀ frame ∈ env.frames, ∀ method ∈ frame.methods, method.Tame

namespace TameMethods

variable {env : Environment}

theorem of_prelude (prelude : PreludeMethods env) : TameMethods env :=
  fun frame member method found => .inl (prelude frame member method found)

theorem of_method? (tame : TameMethods env) (name : String) (method : Method)
    (found : env.method? name = some method) : method.Tame := by
  obtain ⟨frame, member, here⟩ := List.exists_of_findSome?_eq_some found
  exact tame frame member method (List.mem_of_find?_eq_some here)

theorem top (tame : TameMethods env) (top : Frame)
    (methods : ∀ method ∈ top.methods, method ∈ env.top.methods ∨ method.Tame) :
    TameMethods { env with top := top } := by
  intro frame member method found
  rcases List.mem_cons.mp member with rfl | below
  · rcases methods method found with old | new
    · exact tame env.top List.mem_cons_self method old
    · exact new
  · exact tame frame (List.mem_cons_of_mem _ below) method found

theorem declare (tame : TameMethods env) (name : String) (value : Value) (after : Environment)
    (declared : env.declare name value = .ok after) : TameMethods after := by
  unfold Environment.declare at declared
  split at declared
  · cases declared
  · cases declared
    exact tame.top _ fun _ old => .inl old

theorem define (tame : TameMethods env) (added : Method) (harmless : added.Tame)
    (after : Environment) (defined : env.define added = .ok after) : TameMethods after := by
  unfold Environment.define at defined
  split at defined
  · cases defined
  · cases defined
    apply tame.top
    intro method found
    rcases List.mem_cons.mp found with rfl | old
    · exact .inr harmless
    · exact .inl old

theorem push (tame : TameMethods env) : TameMethods env.push := by
  intro frame member method found
  rcases List.mem_cons.mp member with rfl | below
  · cases found
  · exact tame frame below method found

theorem pop (tame : TameMethods env) (after : Environment) (popped : env.pop? = some after) :
    TameMethods after := by
  unfold Environment.pop? at popped
  split at popped
  · cases popped
  · next frame rest below =>
      cases popped
      intro other member method found
      have inner : other ∈ env.below := below ▸ member
      exact tame other (List.mem_cons_of_mem _ inner) method found

end TameMethods

section

variable {α : Type} {world : World}

theorem worldAfter_change (f : Environment → Except Fault Environment)
    (tame : TameMethods world.env)
    (keeps : ∀ after, f world.env = .ok after → TameMethods after) :
    TameMethods (worldAfter (Run.change f world)).env := by
  simp only [Run.change]
  cases changed : f world.env with
  | ok after => exact keeps after changed
  | error cause => exact tame

theorem worldAfter_pop (tame : TameMethods world.env) :
    TameMethods (worldAfter (Run.pop world)).env := by
  simp only [Run.pop]
  cases popped : world.env.pop? with
  | some after => exact tame.pop after popped
  | none => exact tame

/-- What holds of the world after a run and after what follows, whatever the run gives. -/
theorem worldAfter_bind {β : Type} (holds : World → Prop) (run : Run α) (next : α → Run β)
    (first : holds (worldAfter (run world)))
    (later : ∀ a after, run world = .ok a after → holds after →
      holds (worldAfter (next a after))) : holds (worldAfter ((run >>= next) world)) := by
  simp only [Bind.bind, EStateM.bind]
  cases ended : run world with
  | ok a after =>
      rw [ended] at first
      exact later a after ended first
  | error halt after =>
      rw [ended] at first
      exact first

theorem worldAfter_inFrame (run : Run α)
    (inside : TameMethods (worldAfter (run { world with env := world.env.push })).env) :
    TameMethods (worldAfter (Run.inFrame run world)).env := by
  have popped {β : Type} (next : Unit → Run β) (after : World) (tame : TameMethods after.env)
      (still : ∀ last, worldAfter (next () last) = last) :
      TameMethods (worldAfter ((Run.pop >>= next) after)).env := by
    apply worldAfter_bind fun after => TameMethods after.env
    · exact worldAfter_pop tame
    · intro _ last _ kept
      rw [still last]
      exact kept
  simp only [Run.inFrame]
  cases ended : run { world with env := world.env.push } with
  | ok a after =>
      rw [ended] at inside
      exact popped _ after inside fun _ => rfl
  | error halt after =>
      rw [ended] at inside
      exact popped _ after inside fun _ => rfl

variable (onward : Onward) (evaluator : Evaluator)

-- By induction on the routine: what is declared or defined on the way keeps the methods tame.
theorem perform_inert (routine : Routine) (inert : routine.Inert) (options : Options)
    (tame : TameMethods world.env) :
    TameMethods (worldAfter (perform onward evaluator routine options world)).env := by
  induction inert generalizing options world with
  | finish result => exact tame
  | panic text => exact tame
  | option name next goes ih => exact ih _ _ tame
  | optionCount next goes ih => exact ih _ _ tame
  | caller next goes ih => exact ih _ _ tame
  | convert target value next goes ih => exact ih _ options tame
  | variableValue name next goes ih => exact ih _ options tame
  | declare name value next goes ih =>
      apply worldAfter_bind fun after => TameMethods after.env
      · exact worldAfter_change _ tame (tame.declare name value)
      · exact fun result after _ kept => ih result options kept
  | define name arity takesRest body next bodies goes _ ih =>
      apply worldAfter_bind fun after => TameMethods after.env
      · exact worldAfter_change _ tame (tame.define _ (.inr bodies))
      · exact fun result after _ kept => ih result options kept
  | supply method known next goes ih =>
      apply worldAfter_bind fun after => TameMethods after.env
      · exact worldAfter_change _ tame (tame.define _ (.inl known))
      · exact fun result after _ kept => ih result options kept
  | register converter next goes ih =>
      apply worldAfter_bind fun after => TameMethods after.env
      · apply worldAfter_change _ tame
        rintro _ ⟨⟩
        exact tame.top _ fun _ old => .inl old
      · exact fun _ after _ kept => ih options kept
  | push next goes ih => exact ih options tame.push
  | pop next goes ih =>
      apply worldAfter_bind fun after => TameMethods after.env
      · exact worldAfter_pop tame
      · exact fun _ after _ kept => ih options kept
  | inFrame inner next inside goes within ih =>
      apply worldAfter_bind fun after => TameMethods after.env
      · exact worldAfter_inFrame _ (within options tame.push)
      · exact fun done after _ kept => ih done.1 done.2 kept
  | tick counter next goes ih => exact ih _ options tame

theorem events_behind_nil (run : Run α) (next : α → World → List Event) (world : World)
    (silent : ∀ a after, next a after = []) : Journal.events.behind run next world = [] :=
  behindRun_nil run next world silent

theorem events_inert (inner : OnwardLog Event) (routine : Routine) (inert : routine.Inert)
    (options : Options) :
    Journal.events.perform onward inner evaluator routine options world = [] := by
  induction inert generalizing options world with
  | finish result => rfl
  | panic text => rfl
  | option name next goes ih => exact ih _ _
  | optionCount next goes ih => exact ih _ _
  | caller next goes ih => exact ih _ _
  | convert target value next goes ih =>
      exact events_behind_nil _ _ _ fun result _ => ih result options
  | variableValue name next goes ih => exact events_behind_nil _ _ _ fun found _ => ih found options
  | declare name value next goes ih =>
      exact events_behind_nil _ _ _ fun result _ => ih result options
  | define name arity takesRest body next bodies goes _ ih =>
      exact events_behind_nil _ _ _ fun result _ => ih result options
  | supply method known next goes ih =>
      exact events_behind_nil _ _ _ fun result _ => ih result options
  | register converter next goes ih => exact events_behind_nil _ _ _ fun _ _ => ih options
  | push next goes ih => exact events_behind_nil _ _ _ fun _ _ => ih options
  | pop next goes ih => exact events_behind_nil _ _ _ fun _ _ => ih options
  | inFrame framed next inside goes within ih =>
      have inner : Journal.events.perform onward inner evaluator framed options
          { world with env := world.env.push } = [] := within options
      simp only [Journal.perform, inner]
      exact events_behind_nil _ _ _ fun done _ => ih done.1 done.2
  | tick counter next goes ih => exact events_behind_nil _ _ _ fun count _ => ih count options

end

end ChainScript
