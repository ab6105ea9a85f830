import ChainScript.Proofs.WriteOnce

/-!
Conversion told from the history of an environment. Frames keep their converters apart, but what
they answer together is the answer of one flat list: of the registrations that are still live,
those of inner frames first, and those of one frame in the order in which they were made.
-/

namespace ChainScript

/-! Histories. -/

/-- One thing that a host does to an environment, registrations of converters included. -/
inductive Step where
  | edit (change : Edit)
  | register (converter : Converter)

def Step.run : Step → Run (Except Fault Unit)
  | .edit change => change.run
  | .register converter => Run.change fun env => .ok (env.register converter)

/-- The world behind further steps. A step that is refused is passed over. -/
def World.through (world : World) (steps : List Step) : World :=
  steps.foldl (fun world step => worldAfter (step.run world)) world

/-- The environment behind a history, which begins with nothing in it. -/
def envThrough (steps : List Step) : Environment := (World.through { env := {} } steps).env

structure Registration where
  before : List Step
  converter : Converter

namespace Registration

/-- The frame that a registration goes to, as a number of frames. -/
def level (registration : Registration) : Nat := (envThrough registration.before).depth

/-- Whether a registration has been made and its frame is still there. -/
def Live (steps : List Step) (registration : Registration) : Prop :=
  Stays (fun earlier => (envThrough earlier).depth) steps registration.before
    (.register registration.converter)

/-- Whether one registration is asked before another: that of the inner frame, and in one frame
the earlier one. -/
def Ahead (left right : Registration) : Prop :=
  right.level < left.level ∨
    left.level = right.level ∧ left.before.length < right.before.length

end Registration

def Target.parts : Target → List Target
  | .list item => .list item :: item.parts
  | target => [target]

/-- What a target makes of a value by its form: for a list, each item is taken by itself, and any
other value as the only item. -/
def Environment.convertParts (env : Environment) :
    (target : Target) → Value → Option target.denote
  | .list item, .list values => allSome (env.convert item) values
  | .list item, single => (env.convert item single).map ([·])
  | _, _ => none

theorem Environment.convert_eq (env : Environment) (target : Target) (value : Value) :
    env.convert target value =
      (target.check value <|> env.converted target value <|> env.convertParts target value) := by
  cases target with
  | list item => cases value <;> rfl
  | _ => simp [convert, convertParts]

/-! The converters of the frames. -/

namespace Environment

def converterStack (env : Environment) : List (List Converter) :=
  env.frames.map fun frame => frame.converters

theorem depth_eq_converterStack (env : Environment) : env.depth = env.converterStack.length :=
  (List.length_map _).symm

theorem converted_eq (env : Environment) (target : Target) (value : Value) :
    env.converted target value =
      env.converterStack.findSome? (firstConversion target value) :=
  (List.findSome?_map).symm

theorem convert_of_converted (env other : Environment) (target : Target)
    (same : ∀ part ∈ target.parts, ∀ value, env.converted part value = other.converted part value)
    (value : Value) : env.convert target value = other.convert target value := by
  induction target generalizing value with
  | list item ih =>
      have items : env.convert item = other.convert item :=
        funext (ih fun part member => same part (List.mem_cons_of_mem _ member))
      simp only [convert, items, same (.list item) List.mem_cons_self]
  | _ => simp only [convert, same _ List.mem_cons_self]

theorem convert_of_stack (env other : Environment)
    (same : env.converterStack = other.converterStack) (target : Target) (value : Value) :
    env.convert target value = other.convert target value := by
  apply convert_of_converted
  intro part _ single
  rw [converted_eq, converted_eq, same]

end Environment

def Step.onStack : Step → List (List Converter) → List (List Converter)
  | .edit .push, stack => [] :: stack
  | .edit .pop, _ :: below :: rest => below :: rest
  | .register converter, top :: rest => (top ++ [converter]) :: rest
  | _, stack => stack

theorem converterStack_run (step : Step) (world : World) :
    (worldAfter (step.run world)).env.converterStack = step.onStack world.env.converterStack := by
  cases step with
  | register converter => rfl
  | edit change =>
      cases change with
      | push => rfl
      | pop =>
          simp only [Step.run, Environment.converterStack, Environment.frames]
          cases frames : world.env.below with
          | nil =>
              rw [run_pop_ground world frames, worldAfter, frames]
              rfl
          | cons frame rest =>
              rw [run_pop_frame world frame rest frames]
              rfl
      | declare name value =>
          simp only [Step.run, Edit.run, Run.change, Environment.declare]
          cases world.env.top.value? name <;> rfl
      | define method =>
          simp only [Step.run, Edit.run, Run.change, Environment.define]
          cases world.env.top.method? method.name <;> rfl

theorem converterStack_through (steps : List Step) (world : World) :
    (world.through steps).env.converterStack =
      steps.foldl (fun stack step => step.onStack stack) world.env.converterStack := by
  induction steps generalizing world with
  | nil => rfl
  | cons step rest ih =>
      rw [List.foldl_cons, ← converterStack_run]
      exact ih _

theorem converterStack_snoc (steps : List Step) (last : Step) :
    (envThrough (steps ++ [last])).converterStack =
      last.onStack (envThrough steps).converterStack := by
  simp only [envThrough, converterStack_through, List.foldl_append, List.foldl_cons,
    List.foldl_nil]

/-! Live registrations. -/

theorem live_snoc {steps : List Step} {registration : Registration} (last : Step) :
    registration.Live (steps ++ [last]) ↔
      registration.level ≤ (envThrough (steps ++ [last])).depth ∧
        (registration.Live steps ∨
          registration.before = steps ∧ .register registration.converter = last) :=
  Stays.snoc_iff last

/-- Whether these are the converters of the live registrations of a level, in order. -/
def Registered (steps : List Step) (level : Nat) (converters : List Converter) : Prop :=
  ∃ live : List Registration, live.map Registration.converter = converters ∧
    (∀ registration, registration ∈ live ↔
      registration.Live steps ∧ registration.level = level) ∧
    live.Pairwise fun left right => left.before.length < right.before.length

namespace Registered

variable {steps : List Step} {level : Nat} {converters : List Converter}

theorem keep (registered : Registered steps level converters) (last : Step)
    (stays : level ≤ (envThrough (steps ++ [last])).depth)
    (no : (envThrough steps).depth = level → ∀ converter, .register converter ≠ last) :
    Registered (steps ++ [last]) level converters := by
  obtain ⟨live, same, member, order⟩ := registered
  refine ⟨live, same, ?_, order⟩
  intro registration
  rw [member, live_snoc]
  constructor
  · rintro ⟨old, rfl⟩
    exact ⟨⟨stays, .inl old⟩, rfl⟩
  · rintro ⟨⟨_, old | ⟨rfl, made⟩⟩, here⟩
    · exact ⟨old, here⟩
    · exact absurd made (no here registration.converter)

theorem write (registered : Registered steps (envThrough steps).depth converters)
    (converter : Converter) :
    Registered (steps ++ [.register converter]) (envThrough steps).depth
      (converters ++ [converter]) := by
  have depth : (envThrough (steps ++ [.register converter])).depth = (envThrough steps).depth := by
    simp only [Environment.depth_eq_converterStack, converterStack_snoc]
    cases (envThrough steps).converterStack <;> rfl
  obtain ⟨live, rfl, member, order⟩ := registered
  refine ⟨live ++ [⟨steps, converter⟩], by simp, ?_, ?_⟩
  · intro registration
    rw [List.mem_append, member, List.mem_singleton, live_snoc, depth]
    constructor
    · rintro (⟨old, here⟩ | rfl)
      · exact ⟨⟨old.depth_le, .inl old⟩, here⟩
      · exact ⟨⟨Nat.le_refl _, .inr ⟨rfl, rfl⟩⟩, rfl⟩
    · rintro ⟨⟨_, old | ⟨before, made⟩⟩, here⟩
      · exact .inl ⟨old, here⟩
      · cases registration
        cases before
        cases made
        exact .inr rfl
  · apply List.pairwise_append.mpr ⟨order, List.pairwise_singleton _ _, ?_⟩
    intro earlier old latest new
    rw [List.mem_singleton.mp new]
    exact ((member earlier).mp old).1.length_lt

theorem above (above : (envThrough steps).depth < level) : Registered steps level [] := by
  refine ⟨[], rfl, ?_, .nil⟩
  intro registration
  constructor
  · intro member
    cases member
  · rintro ⟨live, rfl⟩
    exact absurd live.depth_le (Nat.not_le.mpr above)

end Registered

/-- All that a step can do to a frame: nothing, if it does not register there; or it opens the
frame, or adds a converter behind the others of the top frame. -/
theorem suffix_onStack (step : Step) (stack rest : List (List Converter)) (own : List Converter)
    (within : own :: rest <:+ step.onStack stack) :
    (own :: rest <:+ stack ∧
      ((∃ converter, step = .register converter) → rest.length + 1 < stack.length)) ∨
    (own = [] ∧ rest = stack) ∨
    ∃ top converter, step = .register converter ∧ own = top ++ [converter] ∧
      stack = top :: rest := by
  have silent (change : Edit) (same : own :: rest <:+ stack) :
      own :: rest <:+ stack ∧ ((∃ converter, Step.edit change = .register converter) →
        rest.length + 1 < stack.length) :=
    ⟨same, fun ⟨_, registers⟩ => by cases registers⟩
  cases step with
  | register converter =>
      cases stack with
      | nil => simp [Step.onStack] at within
      | cons top below =>
          rcases List.suffix_cons_iff.mp within with whole | deeper
          · obtain ⟨rfl, rfl⟩ := List.cons.inj whole
            exact .inr (.inr ⟨top, converter, rfl, rfl, rfl⟩)
          · exact .inl ⟨deeper.trans (List.suffix_cons top below),
              fun _ => Nat.lt_succ_of_le deeper.length_le⟩
  | edit change =>
      cases change with
      | push =>
          rcases List.suffix_cons_iff.mp within with whole | below
          · exact .inr (.inl (List.cons.inj whole))
          · exact .inl (silent .push below)
      | pop =>
          match stack with
          | [] | [_] => exact .inl (silent .pop within)
          | top :: _ :: _ => exact .inl (silent .pop (within.trans (List.suffix_cons top _)))
      | declare name value => exact .inl (silent _ within)
      | define method => exact .inl (silent _ within)

-- By induction on the history, its last step first. A frame is known by its level: by how many
-- frames there are below.
theorem registered_stack (steps : List Step) (own : List Converter) (rest : List (List Converter))
    (within : own :: rest <:+ (envThrough steps).converterStack) :
    Registered steps (rest.length + 1) own := by
  induction steps using List.reverseRecOn generalizing own rest with
  | nil =>
      obtain ⟨rfl, rfl⟩ : own = [] ∧ rest = [] := by
        simpa [envThrough, World.through, Environment.converterStack, Environment.frames,
          List.suffix_cons_iff] using within
      refine ⟨[], rfl, ?_, .nil⟩
      intro registration
      constructor
      · intro member
        cases member
      · rintro ⟨live, _⟩
        exact absurd live.length_lt (Nat.not_lt_zero _)
  | append_singleton steps last ih =>
      have depth := (envThrough steps).depth_eq_converterStack
      have level : rest.length + 1 ≤ (envThrough (steps ++ [last])).depth := by
        rw [Environment.depth_eq_converterStack]
        exact within.length_le
      rw [converterStack_snoc] at within
      rcases suffix_onStack last _ _ _ within with ⟨old, lower⟩ | ⟨rfl, opened⟩ |
        ⟨top, converter, rfl, rfl, stack⟩
      · apply (ih own rest old).keep last level
        intro here converter registers
        have below := lower ⟨converter, registers.symm⟩
        omega
      · rw [opened, ← depth]
        apply (Registered.above (Nat.lt_succ_self _)).keep last
        · rw [depth, ← opened]
          exact level
        · omega
      · have whole : top :: rest <:+ (envThrough steps).converterStack := stack ▸ List.suffix_rfl
        have told := ih top rest whole
        have here : rest.length + 1 = (envThrough steps).depth := by
          rw [depth, stack, List.length_cons]
        rw [here] at told ⊢
        exact told.write converter

/-! One flat list. -/

theorem convert?_of_other (converter : Converter) (target : Target) (value : Value)
    (other : converter.target ≠ target) : converter.convert? target value = none :=
  dif_neg other

theorem firstConversion_eq (target : Target) (value : Value) (converters : List Converter) :
    firstConversion target value converters =
      converters.findSome? fun converter => converter.convert? target value := by
  induction converters with
  | nil => rfl
  | cons converter rest ih =>
      rw [firstConversion, List.findSome?_cons, ih]
      cases converter.convert? target value <;> rfl

/-- Converters for other targets can be passed over, so they may as well be kept apart. -/
theorem firstConversion_filter (target : Target) (value : Value) (converters : List Converter) :
    firstConversion target value (converters.filter fun converter => converter.target = target) =
      firstConversion target value converters := by
  induction converters with
  | nil => rfl
  | cons converter rest ih =>
      by_cases same : converter.target = target
      · rw [List.filter_cons_of_pos (by simpa using same), firstConversion, firstConversion, ih]
      · rw [List.filter_cons_of_neg (by simpa using same), firstConversion,
          convert?_of_other converter target value same, ih]

-- By induction on the frames from the bottom up.
/-- What frames convert together is what the live registrations of their levels do, inner levels
first. -/
theorem live_flat (steps : List Step) (target : Target) (stack : List (List Converter))
    (within : stack <:+ (envThrough steps).converterStack) :
    ∃ live : List Registration,
      (∀ registration, registration ∈ live ↔ registration.Live steps ∧
        registration.level ≤ stack.length ∧ registration.converter.target = target) ∧
      live.Pairwise Registration.Ahead ∧
      ∀ value, stack.findSome? (firstConversion target value) =
        live.findSome? fun registration => registration.converter.convert? target value := by
  induction stack with
  | nil =>
      refine ⟨[], ?_, .nil, fun _ => rfl⟩
      intro registration
      constructor
      · intro member
        cases member
      · rintro ⟨_, level, _⟩
        exact absurd level (Nat.not_succ_le_zero _)
  | cons own rest ih =>
      obtain ⟨outer, members, order, same⟩ := ih ((List.suffix_cons own rest).trans within)
      obtain ⟨inner, rfl, member, sooner⟩ := registered_stack steps own rest within
      refine ⟨(inner.filter fun registration => registration.converter.target = target) ++ outer,
        ?_, ?_, ?_⟩
      · intro registration
        rw [List.mem_append, List.mem_filter, member, members, decide_eq_true_eq, List.length_cons,
          Nat.le_succ_iff]
        tauto
      · apply List.pairwise_append.mpr ⟨?_, order, ?_⟩
        · apply (sooner.filter _).imp_of_mem
          intro left right first second earlier
          have level := ((member left).mp (List.mem_filter.mp first).1).2
          have level' := ((member right).mp (List.mem_filter.mp second).1).2
          exact .inr ⟨level.trans level'.symm, earlier⟩
        · intro left first right second
          have level := ((member left).mp (List.mem_filter.mp first).1).2
          have below := ((members right).mp second).2.1
          apply Or.inl
          omega
      · intro value
        have own : firstConversion target value (inner.map Registration.converter) =
            (inner.filter fun registration => registration.converter.target = target).findSome?
              fun registration => registration.converter.convert? target value := by
          rw [← firstConversion_filter, firstConversion_eq, List.filter_map, List.findSome?_map]
          rfl
        rw [List.findSome?_cons, List.findSome?_append, own, same]
        cases List.findSome? _ _ <;> rfl

theorem exists_history (stack : List (List Converter)) (own : List Converter) :
    ∃ steps, (envThrough steps).converterStack = own :: stack := by
  have registering (steps : List Step) (own : List Converter) (rest : List (List Converter))
      (start : (envThrough steps).converterStack = [] :: rest) :
      ∃ steps, (envThrough steps).converterStack = own :: rest := by
    induction own using List.reverseRecOn with
    | nil => exact ⟨steps, start⟩
    | append_singleton own converter ih =>
        obtain ⟨earlier, stack⟩ := ih
        refine ⟨earlier ++ [.register converter], ?_⟩
        rw [converterStack_snoc, stack]
        rfl
  induction stack generalizing own with
  | nil => exact registering [] own [] rfl
  | cons below rest ih =>
      obtain ⟨steps, stack⟩ := ih below
      apply registering (steps ++ [.edit .push]) own (below :: rest)
      rw [converterStack_snoc, stack]
      rfl

/-- Conversion follows scope and registration order. Behind any history, a value is taken as it is,
else as the first registration makes it that does not decline, of those that are live and for just
this target, inner frames first and in one frame the earlier ones first; else by its form. Every
environment converts, now and after any further steps, as one behind a history does. -/
theorem convert_by_registration :
    (∀ (steps : List Step) (target : Target), ∃ live : List Registration,
      (∀ registration, registration ∈ live ↔
        registration.Live steps ∧ registration.converter.target = target) ∧
      live.Pairwise Registration.Ahead ∧
      ∀ value, (envThrough steps).convert target value =
        (target.check value <|>
          (live.findSome? fun registration => registration.converter.convert? target value) <|>
          (envThrough steps).convertParts target value)) ∧
    ∀ world : World, ∃ steps : List Step, ∀ (later : List Step) (target : Target) (value : Value),
      (world.through later).env.convert target value =
        (envThrough (steps ++ later)).convert target value := by
  constructor
  · intro steps target
    obtain ⟨live, members, order, same⟩ := live_flat steps target _ List.suffix_rfl
    refine ⟨live, ?_, order, ?_⟩
    · intro registration
      rw [members, ← Environment.depth_eq_converterStack]
      constructor
      · rintro ⟨standing, _, own⟩
        exact ⟨standing, own⟩
      · rintro ⟨standing, own⟩
        exact ⟨standing, standing.depth_le, own⟩
    · intro value
      rw [Environment.convert_eq, Environment.converted_eq, same]
  · intro world
    obtain ⟨steps, stack⟩ := exists_history (world.env.below.map fun frame => frame.converters)
      world.env.top.converters
    refine ⟨steps, ?_⟩
    intro later target value
    apply Environment.convert_of_stack
    have start : world.env.converterStack = (envThrough steps).converterStack := stack.symm
    rw [converterStack_through, start, envThrough, envThrough, converterStack_through,
      converterStack_through, List.foldl_append]

/-- The converter of an inner frame wins, and is gone with its frame. -/
example :
    let inner : List Step :=
      [.register ⟨.int, fun _ => some 1⟩, .edit .push, .register ⟨.int, fun _ => some 2⟩]
    (envThrough inner).convert .int (.text "x") = some 2 ∧
      (envThrough (inner ++ [.edit .pop])).convert .int (.text "x") = some 1 :=
  ⟨rfl, rfl⟩

end ChainScript
