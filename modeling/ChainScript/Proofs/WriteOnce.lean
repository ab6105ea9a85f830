import ChainScript.Proofs.Growth
import Mathlib.Data.List.Induction

/-!
The environment as a stack of maps in which a name is written once. What a lookup answers can be
told from the history of edits alone: it is the first declaration of the name in the innermost frame
that has one and is still there. Declarations that were refused, frames that are gone, other names
and the other kind of declaration do not matter.
-/

namespace ChainScript

/-! Edits. -/

inductive Edit where
  | push
  | pop
  | declare (name : String) (value : Value)
  | define (method : Method)

namespace Edit

/-- Does an edit. A declaration can be refused; to pop the ground frame is a panic. -/
def run : Edit → Run (Except Fault Unit)
  | .push => Except.ok <$> Run.push
  | .pop => Except.ok <$> Run.pop
  | .declare name value => Run.change (·.declare name value)
  | .define method => Run.change (·.define method)

def accepted (edit : Edit) (world : World) : Bool :=
  match edit.run world with
  | .ok (.ok _) _ => true
  | _ => false

def isPush : Edit → Bool
  | .push => true
  | _ => false

def isPop : Edit → Bool
  | .pop => true
  | _ => false

def isDeclaration : Edit → Bool
  | .declare _ _ | .define _ => true
  | .push | .pop => false

def valueOf? (name : String) : Edit → Option Value
  | .declare key value => if key = name then some value else none
  | _ => none

def methodOf? (name : String) : Edit → Option Method
  | .define method => if method.name = name then some method else none
  | _ => none

end Edit

/-! Histories, which begin in an environment that has nothing in it. -/

/-- The world behind a history of edits. An edit that is refused is passed over. -/
def worldBehind (edits : List Edit) : World :=
  edits.foldl (fun world edit => worldAfter (edit.run world)) { env := {} }

def envBehind (edits : List Edit) : Environment := (worldBehind edits).env

def depthBehind (edits : List Edit) : Nat := (envBehind edits).depth

def acceptedFrom (world : World) : List Edit → List Edit
  | [] => []
  | edit :: rest =>
      let later := acceptedFrom (worldAfter (edit.run world)) rest
      if edit.accepted world then edit :: later else later

def acceptedOf (edits : List Edit) : List Edit := acceptedFrom { env := {} } edits

/-- Whether the frame in which an edit was made is still there: since then there have never been
fewer frames. -/
structure Standing (edits before : List Edit) (edit : Edit) : Prop where
  made : before ++ [edit] <+: edits
  stays : ∀ later, before ++ [edit] <+: later → later <+: edits →
    depthBehind before ≤ depthBehind later

section

variable {α : Type} (declared? : Edit → Option α) (edits : List Edit)

/-- Whether a declaration has been tried in the frame that is now the top one. -/
def TopDeclares : Prop :=
  ∃ before edit, Standing edits before edit ∧ (declared? edit).isSome ∧
    depthBehind before = depthBehind edits

structure Decides (before : List Edit) (edit : Edit) (a : α) : Prop where
  standing : Standing edits before edit
  declares : declared? edit = some a
  accepted : edit.accepted (worldBehind before) = true
  innermost : ∀ before' edit', Standing edits before' edit' → (declared? edit').isSome →
    depthBehind before' ≤ depthBehind before
  first : ∀ before' edit', Standing edits before' edit' → (declared? edit').isSome →
    depthBehind before' = depthBehind before → before.length ≤ before'.length

/-- Whether an edit opens or closes a frame or makes the declaration in question. -/
def relevant (edit : Edit) : Bool := !edit.isDeclaration || (declared? edit).isSome

structure WrittenOnce (look : Environment → Option α) (refusal : Fault) : Prop where
  refused : TopDeclares declared? edits → ∀ edit a, declared? edit = some a →
    edit.run (worldBehind edits) = .ok (.error refusal) (worldBehind edits)
  accepted : ¬ TopDeclares declared? edits → ∀ edit a, declared? edit = some a →
    ∃ after, edit.run (worldBehind edits) = .ok (.ok ()) after
  found : ∀ a, look (envBehind edits) = some a ↔
    ∃ before edit, Decides declared? edits before edit a
  absent : look (envBehind edits) = none ↔
    ∀ before edit, Standing edits before edit → declared? edit = none
  alone : look (envBehind (edits.filter (relevant declared?))) = look (envBehind edits) ∧
    ∀ edit a, declared? edit = some a →
      edit.accepted (worldBehind (edits.filter (relevant declared?))) =
        edit.accepted (worldBehind edits)

end

/-! One edit. -/

section

variable (edits : List Edit) (edit : Edit)

@[simp]
theorem worldBehind_nil : worldBehind [] = { env := {} } := rfl

theorem worldBehind_snoc :
    worldBehind (edits ++ [edit]) = worldAfter (edit.run (worldBehind edits)) := by
  simp [worldBehind]

theorem acceptedFrom_snoc (world : World) :
    acceptedFrom world (edits ++ [edit]) = acceptedFrom world edits ++
      if edit.accepted (edits.foldl (fun world edit => worldAfter (edit.run world)) world) then
        [edit] else [] := by
  induction edits generalizing world with
  | nil => rfl
  | cons first rest ih =>
      simp only [List.cons_append, acceptedFrom, ih, List.foldl_cons]
      split <;> rfl

theorem acceptedOf_snoc :
    acceptedOf (edits ++ [edit]) =
      acceptedOf edits ++ if edit.accepted (worldBehind edits) then [edit] else [] :=
  acceptedFrom_snoc edits edit _

end

section

variable (world : World)

theorem run_pop_ground (ground : world.env.below = []) :
    Edit.pop.run world = .error (.panic Environment.popMessage) world := by
  simp [Edit.run, Run.pop, Environment.pop?, ground, Functor.map, EStateM.map]

theorem run_pop_frame (frame : Frame) (rest : List Frame)
    (frames : world.env.below = frame :: rest) :
    Edit.pop.run world = .ok (.ok ()) { world with env := ⟨frame, rest⟩ } := by
  simp [Edit.run, Run.pop, Environment.pop?, frames, Functor.map, EStateM.map]

theorem below_declaration (edit : Edit) (declares : edit.isDeclaration = true) :
    (worldAfter (edit.run world)).env.below = world.env.below := by
  cases edit with
  | push => cases declares
  | pop => cases declares
  | declare name value => exact below_declare name value world
  | define method => exact below_define method world

end

theorem depth_eq (env : Environment) : env.depth = env.below.length + 1 := rfl

theorem depthBehind_snoc (edits : List Edit) (edit : Edit) :
    depthBehind (edits ++ [edit]) =
      match edit with
      | .push => depthBehind edits + 1
      | .pop => if depthBehind edits = 1 then 1 else depthBehind edits - 1
      | .declare _ _ | .define _ => depthBehind edits := by
  simp only [depthBehind, envBehind, worldBehind_snoc]
  cases edit with
  | push => rfl
  | pop =>
      cases frames : (worldBehind edits).env.below with
      | nil => simp [run_pop_ground _ frames, worldAfter, depth_eq, frames]
      | cons frame rest => simp [run_pop_frame _ frame rest frames, worldAfter, depth_eq, frames]
  | declare name value =>
      simp only [depth_eq, below_declaration _ (.declare name value) rfl]
  | define method => simp only [depth_eq, below_declaration _ (.define method) rfl]

theorem frames_push (edits : List Edit) :
    (envBehind (edits ++ [.push])).frames = {} :: (envBehind edits).frames := by
  simp only [envBehind, worldBehind_snoc]
  rfl

theorem frames_pop (edits : List Edit) :
    (envBehind (edits ++ [.pop])).frames <:+ (envBehind edits).frames := by
  simp only [envBehind, worldBehind_snoc]
  cases frames : (worldBehind edits).env.below with
  | nil =>
      rw [run_pop_ground _ frames]
      exact List.suffix_rfl
  | cons frame rest =>
      rw [run_pop_frame _ frame rest frames, Environment.frames, Environment.frames, frames]
      exact List.suffix_cons _ _

theorem below_snoc (edits : List Edit) (edit : Edit) (declares : edit.isDeclaration = true) :
    (envBehind (edits ++ [edit])).below = (envBehind edits).below := by
  simp only [envBehind, worldBehind_snoc]
  exact below_declaration _ edit declares

theorem depthBehind_pos (edits : List Edit) : 1 ≤ depthBehind edits :=
  Nat.succ_le_succ (Nat.zero_le _)

/-! Registers. -/

/-- Declarations of one name and one kind: what an edit declares, what a frame holds, and the fault
of a declaration that comes too late. -/
structure Register (α : Type) where
  declared? : Edit → Option α
  held? : Frame → Option α
  refusal : Fault
  fresh : held? {} = none
  declares : ∀ edit a, declared? edit = some a → edit.isDeclaration = true
  refused : ∀ edit a b (world : World), declared? edit = some a → held? world.env.top = some b →
    edit.run world = .ok (.error refusal) world
  written : ∀ edit a (world : World), declared? edit = some a → held? world.env.top = none →
    ∃ after, edit.run world = .ok (.ok ()) after ∧ held? after.env.top = some a
  other : ∀ edit (world : World), edit.isDeclaration = true → declared? edit = none →
    held? (worldAfter (edit.run world)).env.top = held? world.env.top

namespace Register

def variableNamed (name : String) : Register Value where
  declared? := Edit.valueOf? name
  held? frame := frame.value? name
  refusal := .complaint (.redeclared .variable name)
  fresh := rfl
  declares edit value declared := by
    cases edit <;> first
      | rfl
      | cases declared
  refused edit value old world declared held := by
    cases edit with
    | declare key given =>
        obtain ⟨rfl, -⟩ : key = name ∧ given = value := by simpa [Edit.valueOf?] using declared
        simp [Edit.run, Run.change, Environment.declare, held]
    | _ => cases declared
  written edit value world declared held := by
    cases edit with
    | declare key given =>
        obtain ⟨rfl, rfl⟩ : key = name ∧ given = value := by simpa [Edit.valueOf?] using declared
        refine ⟨{ world with env := { world.env with top := { world.env.top with
          bindings := (key, given) :: world.env.top.bindings } } }, ?_, ?_⟩
        · simp [Edit.run, Run.change, Environment.declare, held]
        · simp [Frame.value?]
    | _ => cases declared
  other edit world declares declared := by
    cases edit with
    | push => cases declares
    | pop => cases declares
    | declare key given =>
        have different : (name == key) = false := by
          apply beq_eq_false_iff_ne.mpr
          rintro rfl
          simp [Edit.valueOf?] at declared
        simp only [Edit.run, Run.change, Environment.declare]
        cases world.env.top.value? key with
        | some old => rfl
        | none => simp [worldAfter, Frame.value?, List.lookup_cons, different]
    | define method =>
        simp only [Edit.run, Run.change, Environment.define]
        cases world.env.top.method? method.name <;> rfl

def methodNamed (name : String) : Register Method where
  declared? := Edit.methodOf? name
  held? frame := frame.method? name
  refusal := .complaint (.redeclared .method name)
  fresh := rfl
  declares edit method declared := by
    cases edit <;> first
      | rfl
      | cases declared
  refused edit method old world declared held := by
    cases edit with
    | define given =>
        obtain ⟨rfl, -⟩ : given.name = name ∧ given = method := by
          simpa [Edit.methodOf?] using declared
        simp [Edit.run, Run.change, Environment.define, held]
    | _ => cases declared
  written edit method world declared held := by
    cases edit with
    | define given =>
        obtain ⟨rfl, rfl⟩ : given.name = name ∧ given = method := by
          simpa [Edit.methodOf?] using declared
        refine ⟨{ world with env := { world.env with top := { world.env.top with
          methods := given :: world.env.top.methods } } }, ?_, ?_⟩
        · simp [Edit.run, Run.change, Environment.define, held]
        · simp [Frame.method?]
    | _ => cases declared
  other edit world declares declared := by
    cases edit with
    | push => cases declares
    | pop => cases declares
    | declare key given =>
        simp only [Edit.run, Run.change, Environment.declare]
        cases world.env.top.value? key <;> rfl
    | define method =>
        have different : (method.name == name) = false := by
          simpa [Edit.methodOf?] using declared
        simp only [Edit.run, Run.change, Environment.define]
        cases world.env.top.method? method.name with
        | some old => rfl
        | none => simp [worldAfter, Frame.method?, different]

variable {α : Type} (register : Register α)

def lookup (env : Environment) : Option α := env.frames.findSome? register.held?

end Register

/-! Events in frames. -/

/-- Whether the frame of an event is still there: since then there have never been fewer frames. -/
structure Stays {ε : Type} (depth : List ε → Nat) (events before : List ε) (event : ε) : Prop where
  made : before ++ [event] <+: events
  deep : ∀ later, before ++ [event] <+: later → later <+: events → depth before ≤ depth later

namespace Stays

variable {ε : Type} {depth : List ε → Nat} {events before : List ε} {event : ε}

theorem depth_le (stays : Stays depth events before event) : depth before ≤ depth events :=
  stays.deep events stays.made List.prefix_rfl

theorem length_lt (stays : Stays depth events before event) : before.length < events.length := by
  have shorter := stays.made.length_le
  rw [List.length_append, List.length_singleton] at shorter
  omega

/-- What is there behind one more event was there before and has not gone with its frame, or it is
that event. -/
theorem snoc_iff (last : ε) :
    Stays depth (events ++ [last]) before event ↔
      depth before ≤ depth (events ++ [last]) ∧
        (Stays depth events before event ∨ before = events ∧ event = last) := by
  constructor
  · intro stays
    refine ⟨stays.depth_le, ?_⟩
    rcases List.prefix_concat_iff.mp stays.made with whole | inside
    · obtain ⟨rfl, same⟩ := List.append_inj' whole rfl
      exact .inr ⟨rfl, List.singleton_inj.mp same⟩
    · refine .inl ⟨inside, ?_⟩
      intro later behind further
      exact stays.deep later behind (further.trans (List.prefix_append events [last]))
  · rintro ⟨kept, stays | ⟨rfl, rfl⟩⟩
    · refine ⟨stays.made.trans (List.prefix_append events [last]), ?_⟩
      intro later behind further
      rcases List.prefix_concat_iff.mp further with rfl | inside
      · exact kept
      · exact stays.deep later behind inside
    · refine ⟨List.prefix_rfl, ?_⟩
      intro later behind further
      rw [further.eq_of_length_le behind.length_le]
      exact kept

end Stays

/-! Standing edits. -/

section

variable {edits before : List Edit} {edit : Edit}

theorem standing_iff : Standing edits before edit ↔ Stays depthBehind edits before edit := by
  constructor
  · intro standing
    exact ⟨standing.made, standing.stays⟩
  · intro stays
    exact ⟨stays.made, stays.deep⟩

theorem Standing.depth_le (standing : Standing edits before edit) :
    depthBehind before ≤ depthBehind edits :=
  (standing_iff.mp standing).depth_le

theorem Standing.length_lt (standing : Standing edits before edit) :
    before.length < edits.length :=
  (standing_iff.mp standing).length_lt

theorem standing_snoc (last : Edit) :
    Standing (edits ++ [last]) before edit ↔
      depthBehind before ≤ depthBehind (edits ++ [last]) ∧
        (Standing edits before edit ∨ before = edits ∧ edit = last) := by
  rw [standing_iff, standing_iff]
  exact Stays.snoc_iff last

theorem Standing.within (standing : Standing edits before edit) (earlier : List Edit) (other : Edit)
    (sooner : Standing before earlier other) (same : depthBehind earlier = depthBehind before) :
    Standing edits earlier other := by
  have start : before <+: edits := (List.prefix_append before [edit]).trans standing.made
  refine ⟨sooner.made.trans start, ?_⟩
  intro later behind further
  rcases List.prefix_or_prefix_of_prefix further start with inside | outside
  · exact sooner.stays later behind inside
  · rw [same]
    rcases Nat.lt_or_ge before.length later.length with longer | short
    · apply standing.stays later _ further
      apply List.prefix_of_prefix_length_le standing.made further
      rw [List.length_append, List.length_singleton]
      exact longer
    · exact Nat.le_of_eq (congrArg depthBehind (outside.eq_of_length_le short))

end

/-! What the frames hold. -/

namespace Register

section

variable {α : Type} (register : Register α) (edits : List Edit) (level : Nat)

def First (a : α) : Prop :=
  ∃ before edit, Standing edits before edit ∧ depthBehind before = level ∧
    register.declared? edit = some a ∧
    ∀ before' edit', Standing edits before' edit' → depthBehind before' = level →
      (register.declared? edit').isSome → before.length ≤ before'.length

/-- Whether the history tells that the frame of a level holds this. -/
def Told : Option α → Prop
  | some a => register.First edits level a
  | none => ∀ before edit, Standing edits before edit → depthBehind before = level →
      register.declared? edit = none

end

section

variable {α : Type} {register : Register α} {edits : List Edit} {level : Nat} {held : Option α}

theorem Told.keep (told : register.Told edits level held) (last : Edit)
    (stays : level ≤ depthBehind (edits ++ [last]))
    (no : depthBehind edits = level → register.declared? last = none ∨ held.isSome) :
    register.Told (edits ++ [last]) level held := by
  cases held with
  | none =>
      intro before edit standing here
      rcases ((standing_snoc last).mp standing).2 with old | ⟨rfl, rfl⟩
      · exact told before edit old here
      · simpa using no here
  | some a =>
      obtain ⟨before, edit, standing, rfl, declares, first⟩ := told
      refine ⟨before, edit, (standing_snoc last).mpr ⟨stays, .inl standing⟩, rfl, declares, ?_⟩
      intro before' edit' standing' here declares'
      rcases ((standing_snoc last).mp standing').2 with old | ⟨rfl, rfl⟩
      · exact first before' edit' old here declares'
      · exact Nat.le_of_lt standing.length_lt

theorem Told.write (told : register.Told edits (depthBehind edits) none) (last : Edit) (a : α)
    (declares : register.declared? last = some a) :
    register.Told (edits ++ [last]) (depthBehind edits) (some a) := by
  have same : depthBehind (edits ++ [last]) = depthBehind edits := by
    have declaration := register.declares last a declares
    rw [depthBehind_snoc]
    cases last with
    | push => cases declaration
    | pop => cases declaration
    | declare name value => rfl
    | define method => rfl
  have standing : Standing (edits ++ [last]) edits last :=
    (standing_snoc last).mpr ⟨Nat.le_of_eq same.symm, .inr ⟨rfl, rfl⟩⟩
  refine ⟨edits, last, standing, rfl, declares, ?_⟩
  intro before edit standing here declares'
  rcases ((standing_snoc last).mp standing).2 with old | ⟨rfl, rfl⟩
  · rw [told before edit old here] at declares'
    cases declares'
  · exact Nat.le_refl _

theorem told_above (above : depthBehind edits < level) : register.Told edits level none := by
  rintro before edit standing rfl
  exact absurd standing.depth_le (Nat.not_le.mpr above)

end

variable {α : Type} (register : Register α)

theorem held_declaration (edit : Edit) (world : World) (declares : edit.isDeclaration = true) :
    register.held? (worldAfter (edit.run world)).env.top =
      (register.held? world.env.top <|> register.declared? edit) := by
  cases declared : register.declared? edit with
  | none =>
      rw [register.other edit world declares declared]
      cases register.held? world.env.top <;> rfl
  | some a =>
      cases held : register.held? world.env.top with
      | none =>
          obtain ⟨after, written, holds⟩ := register.written edit a world declared held
          rw [written, worldAfter, holds]
          rfl
      | some b =>
          rw [register.refused edit a b world declared held, worldAfter, held]
          rfl

theorem told_top (edits : List Edit) (last : Edit) (declares : last.isDeclaration = true)
    (told : register.Told edits (depthBehind edits) (register.held? (envBehind edits).top)) :
    register.Told (edits ++ [last]) (depthBehind edits)
      (register.held? (envBehind (edits ++ [last])).top) := by
  have stays : depthBehind edits ≤ depthBehind (edits ++ [last]) := by
    simp only [depthBehind, depth_eq, below_snoc edits last declares]
    exact Nat.le_refl _
  rw [envBehind, worldBehind_snoc, held_declaration _ _ _ declares, ← envBehind]
  cases held : register.held? (envBehind edits).top with
  | some b =>
      rw [held] at told
      exact told.keep last stays fun _ => .inr rfl
  | none =>
      rw [held] at told
      cases declared : register.declared? last with
      | none => exact told.keep last stays fun _ => .inl declared
      | some a => exact told.write last a declared

-- By induction on the history, its last edit first. A frame is known by its level: by how many
-- frames there are below.
theorem told_frames (edits : List Edit) (frame : Frame) (rest : List Frame)
    (within : frame :: rest <:+ (envBehind edits).frames) :
    register.Told edits (rest.length + 1) (register.held? frame) := by
  induction edits using List.reverseRecOn generalizing frame rest with
  | nil =>
      obtain ⟨rfl, rfl⟩ : frame = {} ∧ rest = [] := by
        simpa [envBehind, Environment.frames, List.suffix_cons_iff] using within
      rw [register.fresh]
      intro before edit standing _
      simpa using standing.made.length_le
  | append_singleton edits last ih =>
      have level : rest.length + 1 ≤ depthBehind (edits ++ [last]) := within.length_le
      have lower (told : register.Told edits (rest.length + 1) (register.held? frame))
          (no : depthBehind edits = rest.length + 1 → register.declared? last = none) :=
        told.keep last level fun here => .inl (no here)
      have silent (frames : last.isDeclaration = false) : register.declared? last = none := by
        cases declared : register.declared? last with
        | none => rfl
        | some a => simp [register.declares last a declared] at frames
      cases declares : last.isDeclaration with
      | true =>
          rw [Environment.frames, below_snoc edits last declares] at within
          rcases List.suffix_cons_iff.mp within with whole | below
          · obtain ⟨rfl, rfl⟩ := List.cons.inj whole
            exact register.told_top edits last declares (ih _ _ List.suffix_rfl)
          · apply lower (ih frame rest (below.trans (List.suffix_cons _ _)))
            -- The declaration goes to the frame above.
            intro top
            have short := below.length_le
            simp only [depthBehind, depth_eq, List.length_cons] at top short
            omega
      | false =>
          cases last with
          | declare name value => cases declares
          | define method => cases declares
          | pop => exact lower (ih frame rest (within.trans (frames_pop edits))) fun _ => silent rfl
          | push =>
              rw [frames_push] at within
              rcases List.suffix_cons_iff.mp within with whole | below
              · obtain ⟨rfl, rfl⟩ := List.cons.inj whole
                apply lower _ fun _ => silent rfl
                rw [register.fresh]
                exact told_above (Nat.lt_succ_self _)
              · exact lower (ih frame rest below) fun _ => silent rfl

/-! Lookups. -/

variable {edits : List Edit}

-- By induction on the frames from the bottom up.
theorem told_lookup (frames : List Frame) (within : frames <:+ (envBehind edits).frames) :
    match frames.findSome? register.held? with
    | some a => ∃ level, register.First edits level a ∧
        ∀ higher, level < higher → higher ≤ frames.length → register.Told edits higher none
    | none => ∀ level, level ≤ frames.length → register.Told edits level none := by
  induction frames with
  | nil =>
      intro level bound before edit standing here
      have positive := depthBehind_pos before
      simp only [List.length_nil] at bound
      omega
  | cons frame rest ih =>
      have told := register.told_frames edits frame rest within
      have below := ih ((List.suffix_cons frame rest).trans within)
      cases held : register.held? frame with
      | some a =>
          rw [held] at told
          simp only [List.findSome?_cons, held]
          refine ⟨rest.length + 1, told, ?_⟩
          intro higher above bound
          exact absurd above (Nat.not_lt.mpr bound)
      | none =>
          rw [held] at told
          simp only [List.findSome?_cons, held, List.length_cons]
          cases found : rest.findSome? register.held? with
          | some a =>
              simp only [found] at below ⊢
              obtain ⟨level, first, silent⟩ := below
              refine ⟨level, first, ?_⟩
              intro higher above bound
              rcases Nat.le_succ_iff.mp bound with lower | rfl
              · exact silent higher above lower
              · exact told
          | none =>
              simp only [found] at below ⊢
              intro level bound
              rcases Nat.le_succ_iff.mp bound with lower | rfl
              · exact below level lower
              · exact told

theorem told_whole (edits : List Edit) :
    register.Told edits (depthBehind edits) (register.held? (envBehind edits).top) :=
  register.told_frames edits _ _ List.suffix_rfl

theorem topDeclares_iff : TopDeclares register.declared? edits ↔
    (register.held? (envBehind edits).top).isSome = true := by
  have told := register.told_whole edits
  constructor
  · rintro ⟨before, edit, standing, declares, same⟩
    cases held : register.held? (envBehind edits).top with
    | some a => rfl
    | none =>
        rw [held] at told
        rw [told before edit standing same] at declares
        cases declares
  · intro declared
    obtain ⟨a, held⟩ := Option.isSome_iff_exists.mp declared
    rw [held] at told
    obtain ⟨before, edit, standing, same, declares, _⟩ := told
    exact ⟨before, edit, standing, by simp [declares], same⟩

theorem accepted_eq (edit : Edit) (a : α) (declares : register.declared? edit = some a)
    (world : World) : edit.accepted world = (register.held? world.env.top).isNone := by
  cases held : register.held? world.env.top with
  | none =>
      obtain ⟨after, written, _⟩ := register.written edit a world declares held
      simp [Edit.accepted, written]
  | some b => simp [Edit.accepted, register.refused edit a b world declares held]

theorem first_decides {a : α} {level : Nat} (first : register.First edits level a)
    (silent : ∀ higher, level < higher → higher ≤ depthBehind edits →
      register.Told edits higher none) :
    ∃ before edit, Decides register.declared? edits before edit a := by
  obtain ⟨before, edit, standing, rfl, declares, sooner⟩ := first
  refine ⟨before, edit, standing, declares, ?_, ?_, ?_⟩
  · rw [register.accepted_eq edit a declares]
    cases held : register.held? (worldBehind before).env.top with
    | none => rfl
    | some b =>
        -- The frame had a declaration before, which stands as long as this one.
        have top : TopDeclares register.declared? before := by
          rw [topDeclares_iff, envBehind, held]
          rfl
        obtain ⟨earlier, other, standing', declares', same⟩ := top
        have within := standing.within earlier other standing' same
        have later := sooner earlier other within same declares'
        exact absurd standing'.length_lt (Nat.not_lt.mpr later)
  · intro before' edit' standing' declares'
    by_contra above
    rw [silent _ (Nat.not_le.mp above) standing'.depth_le before' edit' standing' rfl] at declares'
    cases declares'
  · intro before' edit' standing' declares' same
    exact sooner before' edit' standing' same declares'

theorem decides_unique (declared? : Edit → Option α) (before before' : List Edit)
    (edit edit' : Edit) (a a' : α) (decides : Decides declared? edits before edit a)
    (decides' : Decides declared? edits before' edit' a') : a = a' := by
  have known : (declared? edit).isSome := by simp [decides.declares]
  have known' : (declared? edit').isSome := by simp [decides'.declares]
  have depth : depthBehind before = depthBehind before' :=
    Nat.le_antisymm (decides'.innermost before edit decides.standing known)
      (decides.innermost before' edit' decides'.standing known')
  have length : before.length = before'.length :=
    Nat.le_antisymm (decides.first before' edit' decides'.standing known' depth.symm)
      (decides'.first before edit decides.standing known depth)
  have same : before ++ [edit] = before' ++ [edit'] := by
    apply (List.prefix_of_prefix_length_le decides.standing.made decides'.standing.made
      (by simp [length])).eq_of_length
    simp [length]
  obtain ⟨-, singles⟩ := List.append_inj' same rfl
  obtain rfl := List.singleton_inj.mp singles
  exact Option.some.inj (decides.declares.symm.trans decides'.declares)

theorem lookup_iff (a : α) : register.lookup (envBehind edits) = some a ↔
    ∃ before edit, Decides register.declared? edits before edit a := by
  have told := register.told_lookup (envBehind edits).frames List.suffix_rfl
  rw [← lookup] at told
  constructor
  · intro found
    rw [found] at told
    obtain ⟨level, first, silent⟩ := told
    exact register.first_decides first silent
  · rintro ⟨before, edit, decides⟩
    cases found : register.lookup (envBehind edits) with
    | none =>
        rw [found] at told
        have absent := told _ decides.standing.depth_le before edit decides.standing rfl
        rw [decides.declares] at absent
        cases absent
    | some b =>
        rw [found] at told
        obtain ⟨level, first, silent⟩ := told
        obtain ⟨before', edit', decides'⟩ := register.first_decides first silent
        rw [decides_unique _ _ _ _ _ _ _ decides' decides]

theorem lookup_eq_none_iff : register.lookup (envBehind edits) = none ↔
    ∀ before edit, Standing edits before edit → register.declared? edit = none := by
  have told := register.told_lookup (envBehind edits).frames List.suffix_rfl
  rw [← lookup] at told
  constructor
  · intro found before edit standing
    rw [found] at told
    exact told _ standing.depth_le before edit standing rfl
  · intro silent
    cases found : register.lookup (envBehind edits) with
    | none => rfl
    | some b =>
        rw [found] at told
        obtain ⟨level, ⟨before, edit, standing, _, declares, _⟩, _⟩ := told
        rw [silent before edit standing] at declares
        cases declares

/-! Other declarations. -/

def heldIn (env : Environment) : List (Option α) := env.frames.map register.held?

def heldAfter (edit : Edit) (held : List (Option α)) : List (Option α) :=
  match edit, held with
  | .push, held => none :: held
  | .pop, _ :: next :: rest => next :: rest
  | .declare _ _, top :: rest | .define _, top :: rest =>
      (top <|> register.declared? edit) :: rest
  | _, held => held

theorem heldIn_snoc (edits : List Edit) (edit : Edit) :
    register.heldIn (envBehind (edits ++ [edit])) =
      register.heldAfter edit (register.heldIn (envBehind edits)) := by
  have declaration (declares : edit.isDeclaration = true) :
      register.heldIn (envBehind (edits ++ [edit])) =
        (register.held? (envBehind edits).top <|> register.declared? edit) ::
          (envBehind edits).below.map register.held? := by
    have below := below_snoc edits edit declares
    simp only [envBehind, worldBehind_snoc] at below ⊢
    rw [heldIn, Environment.frames, below, List.map_cons, held_declaration _ _ _ declares]
  cases edit with
  | declare name value => exact declaration rfl
  | define method => exact declaration rfl
  | push =>
      rw [heldIn, frames_push, List.map_cons, register.fresh]
      rfl
  | pop =>
      simp only [heldIn, Environment.frames, envBehind, worldBehind_snoc]
      cases frames : (worldBehind edits).env.below with
      | nil =>
          rw [run_pop_ground _ frames, worldAfter, frames]
          rfl
      | cons frame rest =>
          rw [run_pop_frame _ frame rest frames]
          rfl

theorem heldIn_filter (edits : List Edit) :
    register.heldIn (envBehind (edits.filter (relevant register.declared?))) =
      register.heldIn (envBehind edits) := by
  induction edits using List.reverseRecOn with
  | nil => rfl
  | append_singleton edits last ih =>
      rw [List.filter_append, heldIn_snoc]
      cases matters : relevant register.declared? last with
      | true =>
          rw [List.filter_cons_of_pos matters, List.filter_nil, heldIn_snoc, ih]
      | false =>
          rw [List.filter_cons_of_neg (by simp [matters]), List.filter_nil, List.append_nil, ih]
          simp only [relevant, Bool.or_eq_false_iff, Bool.not_eq_false', Option.isSome_eq_false_iff,
            Option.isNone_iff_eq_none] at matters
          have same (top : Option α) : (top <|> register.declared? last) = top := by
            rw [matters.2]
            cases top <;> rfl
          cases last with
          | push => cases matters.1
          | pop => cases matters.1
          | declare name value => simp [heldAfter, heldIn, Environment.frames, same]
          | define method => simp [heldAfter, heldIn, Environment.frames, same]

theorem writtenOnce (edits : List Edit) :
    WrittenOnce register.declared? edits register.lookup register.refusal where
  refused top edit a declares := by
    obtain ⟨b, held⟩ := Option.isSome_iff_exists.mp (register.topDeclares_iff.mp top)
    exact register.refused edit a b _ declares held
  accepted fresh edit a declares := by
    have held : register.held? (worldBehind edits).env.top = none := by
      simpa [envBehind] using mt register.topDeclares_iff.mpr fresh
    obtain ⟨after, written, _⟩ := register.written edit a _ declares held
    exact ⟨after, written⟩
  found a := register.lookup_iff a
  absent := register.lookup_eq_none_iff
  alone := by
    have held := register.heldIn_filter edits
    constructor
    · have look (env : Environment) :
          register.lookup env = (register.heldIn env).findSome? id := by
        rw [lookup, heldIn, List.findSome?_map]
        rfl
      rw [look, look, held]
    · intro edit a declares
      have top := (List.cons.inj held).1
      rw [register.accepted_eq edit a declares, register.accepted_eq edit a declares]
      exact congrArg Option.isNone top

end Register

/-! Depth. -/

theorem accepted_pop (world : World) : Edit.pop.accepted world = !(world.env.depth == 1) := by
  cases frames : world.env.below with
  | nil => simp [Edit.accepted, run_pop_ground world frames, depth_eq, frames]
  | cons frame rest => simp [Edit.accepted, run_pop_frame world frame rest frames, depth_eq, frames]

theorem depth_counts (edits : List Edit) :
    depthBehind edits + (acceptedOf edits).countP Edit.isPop = 1 + edits.countP Edit.isPush := by
  induction edits using List.reverseRecOn with
  | nil => rfl
  | append_singleton edits last ih =>
      rw [acceptedOf_snoc, depthBehind_snoc, List.countP_append, List.countP_append]
      have declaration (noPop : last.isPop = false) (noPush : last.isPush = false) :
          depthBehind edits + ((acceptedOf edits).countP Edit.isPop +
            (if last.accepted (worldBehind edits) then [last] else []).countP Edit.isPop) =
              1 + (edits.countP Edit.isPush + [last].countP Edit.isPush) := by
        split <;> simp [noPop, noPush, ih]
      cases last with
      | declare name value => exact declaration rfl rfl
      | define method => exact declaration rfl rfl
      | push =>
          have accepted : Edit.push.accepted (worldBehind edits) = true := rfl
          simp only [accepted, List.countP_cons, List.countP_nil, Edit.isPop, Edit.isPush, if_true,
            Bool.false_eq_true, if_false]
          omega
      | pop =>
          have positive := depthBehind_pos edits
          have here : (worldBehind edits).env.depth = depthBehind edits := rfl
          rw [accepted_pop, here]
          by_cases ground : depthBehind edits = 1
          · simp only [ground, beq_self_eq_true, Bool.not_true, Bool.false_eq_true, if_false,
              if_true, List.countP_cons, List.countP_nil, Edit.isPush] at ih ⊢
            omega
          · simp only [ground, beq_eq_false_iff_ne.mpr ground, Bool.not_false, if_true, if_false,
              List.countP_cons, List.countP_nil, Edit.isPop, Edit.isPush, Bool.false_eq_true]
            omega

/-- The environment behind any history of edits is a stack of maps that are written once. Its depth
counts the frames that were opened and not closed; only the ground frame cannot be popped. A
declaration is refused where its frame has one of that name already, and changes nothing then. A
lookup answers with the first declaration in the innermost frame that is there and has one.
Variables and methods do not hinder each other. -/
theorem environment_writes_once (edits : List Edit) :
    (depthBehind edits + (acceptedOf edits).countP Edit.isPop = 1 + edits.countP Edit.isPush ∧
      1 ≤ depthBehind edits) ∧
    ((Edit.pop.run (worldBehind edits) =
        .error (.panic Environment.popMessage) (worldBehind edits) ↔ depthBehind edits = 1) ∧
      ((∃ after, Edit.pop.run (worldBehind edits) = .ok (.ok ()) after) ↔
        depthBehind edits ≠ 1)) ∧
    (∀ name, WrittenOnce (Edit.valueOf? name) edits (·.value? name)
      (.complaint (.redeclared .variable name))) ∧
    ∀ name, WrittenOnce (Edit.methodOf? name) edits (·.method? name)
      (.complaint (.redeclared .method name)) := by
  refine ⟨⟨depth_counts edits, depthBehind_pos edits⟩, ?_, ?_, ?_⟩
  · have depth : depthBehind edits = (worldBehind edits).env.below.length + 1 := rfl
    cases frames : (worldBehind edits).env.below with
    | nil => simp [run_pop_ground _ frames, depth, frames]
    | cons frame rest => simp [run_pop_frame _ frame rest frames, depth, frames]
  · exact fun name => (Register.variableNamed name).writtenOnce edits
  · exact fun name => (Register.methodNamed name).writtenOnce edits

/-- A name that is shadowed, declared once more in vain, and a method too. -/
def shadowing : List Edit :=
  [.declare "x" (.int 1), .push, .declare "x" (.int 2), .declare "x" (.int 3),
    .define ⟨"x", 0, false, fun _ _ => .answer .empty⟩]

theorem environment_writes_once_shadowing :
    depthBehind shadowing = 2 ∧ (envBehind shadowing).value? "x" = some (.int 2) ∧
    (∃ before edit, Decides (Edit.valueOf? "x") shadowing before edit (.int 2)) ∧
    ∃ after, Edit.pop.run (worldBehind shadowing) = .ok (.ok ()) after := by
  have depth : depthBehind shadowing = 2 := rfl
  have value : (envBehind shadowing).value? "x" = some (.int 2) := rfl
  obtain ⟨_, ⟨_, pops⟩, written, _⟩ := environment_writes_once shadowing
  refine ⟨depth, value, ((written "x").found _).mp value, pops.mpr ?_⟩
  rw [depth]
  decide

end ChainScript
