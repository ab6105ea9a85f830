import ChainScript.Proofs.Candor
import ChainScript.Proofs.Journal

/-!
Invariants of runs. An invariant relates a world to the one behind it, to what a journal holds of
the run in between, and to how the run has come out. It says what one step keeps, and that it goes
through bodies and calls. The walk over routines, calls, terms and chains is here once, for all
invariants and all journals; what differs between methods is asked of their routines.
-/

namespace ChainScript

/-! How runs come out. -/

/-- A run goes on with a value, it answers with a fault, as routines do, or it fails with one. Or
the whole run stops, which is for no fault. -/
inductive Course where
  | goes
  | answers (cause : Fault)
  | fails (cause : Fault)
  | stops

namespace Course

variable {α : Type}

def ofHalt : Halt → Course
  | .fault cause => .fails cause
  | .panic _ | .exhausted => .stops

def ofAnswer : Except Fault α → Course
  | .ok _ => .goes
  | .error cause => .answers cause

/-- How a run has come out, if its results are seen like this. -/
def of (view : α → Course) : EStateM.Result Halt World α → Course
  | .ok a _ => view a
  | .error halt _ => ofHalt halt

/-- What is written down where a body ends, unless the run has stopped in it. -/
def closing {ι : Type} (left : List ι) : Course → List ι
  | .stops => []
  | .goes | .answers _ | .fails _ => left

theorem closing_of_ne {ι : Type} (left : List ι) (course : Course) (goes : course ≠ .stops) :
    course.closing left = left := by
  cases course with
  | stops => exact absurd rfl goes
  | _ => rfl

theorem mem_of_mem_closing {ι : Type} (left : List ι) (course : Course) (entry : ι)
    (member : entry ∈ course.closing left) : entry ∈ left := by
  cases course with
  | stops => cases member
  | _ => exact member

theorem closing_eq {ι : Type} (left : List ι) (run : Run α) (world : World) :
    behindRun run.attempt (fun _ _ => left) world =
      (of (fun _ => .goes) (run world)).closing left := by
  simp only [behindRun, Run.attempt]
  cases run world with
  | ok a after => rfl
  | error halt after => cases halt <;> rfl

end Course

/-- What a word, an option or the end of a walk objects to, with the place of a word. What a chain
leaves over is among it only where the chain is a single word. -/
inductive Fault.Objects (place : Position) : Fault → Prop where
  | unresolved (name : String) : Fault.Objects place (.unresolved name place)
  | arity (method : String) (expected actual : Nat) :
      Fault.Objects place (.arity method expected actual place)
  | missingOptionValue (name : String) : Fault.Objects place (.missingOptionValue name place)
  | duplicateOption (name : String) : Fault.Objects place (.duplicateOption name place)
  | unusedOptions (method : String) (names : List String) :
      Fault.Objects place (.unusedOptions method names place)
  | danglingOptions (names : List String) : Fault.Objects place (.danglingOptions names place)
  | unconsumed (leftover : Nat) : Fault.Objects place (.unconsumed leftover place)

/-! Settings and invariants. -/

/-- Where runs take place: the expressions that may be evaluated, the places of their words, the
worlds that are found on the way, and the methods that may be called. -/
structure Setting where
  part : Expr → Prop
  word : Position → Prop
  fine : World → Prop
  callable : Method → Prop
  part_deferred : ∀ body, part (.deferred body) → part body
  part_block : ∀ body, part (.block body) → part body
  part_term : ∀ terms, part (.chain terms) → ∀ term ∈ terms, part term
  word_identifier : ∀ name place, part (.identifier name place) → word place
  word_option : ∀ name place, part (.option name place) → word place
  quotes_stub : ∀ value, part (.stub value) → value.Quotes part
  quotes_variable : ∀ world name value, fine world → world.env.value? name = some value →
    value.Quotes part
  quotes_taken : ∀ world target value a, fine world → value.Quotes part →
    world.env.expect target value = .ok a → target.Quotes part a

/-- A setting in which every expression may be evaluated, in such worlds and with such methods. -/
def Setting.everywhere (fine : World → Prop) (callable : Method → Prop) : Setting where
  part _ := True
  word _ := True
  fine := fine
  callable := callable
  part_deferred _ _ := trivial
  part_block _ _ := trivial
  part_term _ _ _ _ := trivial
  word_identifier _ _ _ := trivial
  word_option _ _ _ := trivial
  quotes_stub value _ := value.quotes_true
  quotes_variable _ _ value _ _ := value.quotes_true
  quotes_taken _ target _ a _ _ _ := target.quotes_of_all _ Value.quotes_true a

/-- What holds of runs in a setting: `comes levels before log after course`, if the evaluator has so
many levels of bodies left. It holds only where all that is written down is admitted. -/
structure RunInvariant {ι : Type} (journal : Journal ι) extends Setting where
  admits : ι → Prop
  comes : Nat → World → List ι → World → Course → Prop
  refl : ∀ {levels world}, comes levels world [] world .goes
  trans : ∀ {levels first log second more third course}, comes levels first log second .goes →
    comes levels second more third course → comes levels first (log ++ more) third course
  reached : ∀ {levels before log after course}, comes levels before log after course →
    comes levels before (log ++ journal.reached after) after course
  called : ∀ {levels call world}, comes levels world (journal.called call world) world .goes
  callable_called : ∀ world name call, fine world →
    world.env.method? name = some call.method →
    (∀ entry ∈ journal.called call world, admits entry) → callable call.method
  complains : ∀ {levels world} cause, comes levels world [] world (.answers (.complaint cause))
  catches : ∀ {levels before log after cause}, comes levels before log after (.fails cause) →
    comes levels before log after (.answers cause)
  enters : ∀ {levels before log after course} deferred, comes levels before log after course →
    comes (levels + 1) before (journal.entered deferred ++ (log ++ course.closing journal.left))
      after course
  answers : ∀ {levels world method place value},
    comes levels world (journal.answered method place (.ok value)) world .goes
  attributes : ∀ {levels before log after cause method place}, word place →
    comes levels before log after (.answers cause) →
    comes levels before (log ++ journal.answered method place (.error cause)) after
      (.fails (cause.atCall method.name place))
  objects : ∀ {levels world cause place}, word place → cause.Objects place →
    comes levels world [] world (.fails cause)
  unconsumed : ∀ {levels world} terms count, part (.chain terms) →
    (Expr.firstPosition? terms = none → count = terms.length) → count ≠ 1 →
    comes levels world [] world (.fails (.unconsumed count (Expr.chainPlace terms)))

namespace RunInvariant

variable {ι : Type} {journal : Journal ι} (inv : RunInvariant journal)

section

variable {α : Type} (levels : Nat) (view : α → Course) (good : α → Prop) (world : World)
  (log : List ι) (result : EStateM.Result Halt World α)

/-- How a run has ended: along the invariant, and with a good value in a fine world if it goes
on. -/
structure Ends : Prop where
  comes : inv.comes levels world log (worldAfter result) (.of view result)
  goes : ∀ a after, result = .ok a after → view a = .goes → inv.fine after ∧ good a

def Holds : Prop := (∀ entry ∈ log, inv.admits entry) → inv.Ends levels view good world log result

end

/-- What holds of a run whose values are values, not answers. -/
abbrev HoldsRun {α : Type} (levels : Nat) (good : α → Prop) :
    World → List ι → EStateM.Result Halt World α → Prop :=
  inv.Holds levels (fun _ => .goes) good

abbrev HoldsAnswer (levels : Nat) :
    World → List ι → EStateM.Result Halt World (Except Fault Value × Options) → Prop :=
  inv.Holds levels (fun done => .ofAnswer done.1) fun done =>
    ∀ value, done.1 = .ok value → value.Quotes inv.part

section

variable {inv} {α β : Type} {levels : Nat} {view : α → Course} {good : α → Prop}
  {better : β → Prop} {world : World} {log : List ι}

theorem Holds.here (a : α) (fine : inv.fine world) (fits : good a) :
    inv.HoldsRun levels good world [] (.ok a world) := by
  refine fun _ => ⟨inv.refl, ?_⟩
  rintro _ _ ⟨⟩ _
  exact ⟨fine, fits⟩

theorem Holds.raise (cause : Fault) (raised : inv.comes levels world [] world (.fails cause)) :
    inv.HoldsRun levels good world [] ((Run.fault cause : Run α) world) := by
  refine fun _ => ⟨raised, ?_⟩
  rintro _ _ ⟨⟩

theorem Holds.bind {seen : β → Course} (run : Run α) (next : α → Run β)
    (following : α → World → List ι) (first : inv.HoldsRun levels good world log (run world))
    (later : ∀ a after, run world = .ok a after → inv.fine after → good a →
      inv.Holds levels seen better after (following a after) (next a after)) :
    inv.Holds levels seen better world (log ++ behindRun run following world)
      ((run >>= next) world) := by
  intro admitted
  obtain ⟨sooner, rest⟩ := List.forall_mem_append.mp admitted
  have start := first sooner
  simp only [Bind.bind, EStateM.bind, behindRun] at rest ⊢
  cases ended : run world with
  | ok a after =>
      rw [ended] at start rest
      obtain ⟨fine, fits⟩ := start.goes a after rfl rfl
      have ends := later a after ended fine fits rest
      exact ⟨inv.trans start.comes ends.comes, ends.goes⟩
  | error halt after =>
      rw [ended] at start
      rw [List.append_nil]
      refine ⟨start.comes, ?_⟩
      rintro _ _ ⟨⟩

/-- Nothing is written down where a result is only looked at. -/
theorem Holds.bind_silent (run : Run α) (next : α → Run β)
    (first : inv.HoldsRun levels good world log (run world))
    (later : ∀ a after, run world = .ok a after → inv.fine after → good a →
      inv.HoldsRun levels better after [] (next a after)) :
    inv.HoldsRun levels better world log ((run >>= next) world) := by
  have ends := first.bind run next (fun _ _ => []) later
  rwa [behindRun_nil run _ world fun _ _ => rfl, List.append_nil] at ends

theorem Holds.attempt (run : Run α) (first : inv.HoldsRun levels good world log (run world)) :
    inv.Holds levels Course.ofAnswer (fun result => ∀ a, result = .ok a → good a) world log
      (run.attempt world) := by
  intro admitted
  have start := first admitted
  simp only [Run.attempt]
  cases ended : run world with
  | ok a after =>
      rw [ended] at start
      refine ⟨start.comes, ?_⟩
      rintro _ _ ⟨⟩ _
      obtain ⟨fine, fits⟩ := start.goes a after rfl rfl
      exact ⟨fine, fun b same => Except.ok.inj same ▸ fits⟩
  | error halt after =>
      rw [ended] at start
      cases halt with
      | fault cause =>
          refine ⟨inv.catches start.comes, ?_⟩
          rintro _ _ ⟨⟩ ⟨⟩
      | panic text =>
          refine ⟨start.comes, ?_⟩
          rintro _ _ ⟨⟩
      | exhausted =>
          refine ⟨start.comes, ?_⟩
          rintro _ _ ⟨⟩

end

/-! Routines. -/

section

variable (onward : Onward) (inner : OnwardLog ι) (evaluator : Evaluator)

/-- Whether the bodies of deferred values that a routine can ask for keep the invariant. -/
def BodiesEnd : Prop :=
  ∀ bindings deferred world, (∀ scope ∈ bindings, Quoting inv.part scope) →
    Target.Quotes inv.part .deferred deferred → inv.fine world →
    inv.Holds (evaluator.maxDepth - evaluator.depth) Course.ofAnswer
      (fun result => ∀ value, result = .ok value → value.Quotes inv.part) world
      (journal.body onward inner (evaluator.runner bindings) deferred world)
      ((runDeferred onward (evaluator.runner bindings) deferred).attempt world)

/-- Whether the routines of all methods that may be called keep the invariant. -/
def MethodsAnswer : Prop :=
  ∀ method, inv.callable method → ∀ params rest options world, inv.fine world →
    (∀ value ∈ params, value.Quotes inv.part) → (∀ value ∈ rest, value.Quotes inv.part) →
    Quoting inv.part options →
    inv.HoldsAnswer (evaluator.maxDepth - evaluator.depth) world
      (journal.perform onward inner evaluator (method.body params rest) ⟨options, []⟩ world)
      (perform onward evaluator (method.body params rest) ⟨options, []⟩ world)

/-- Whether a variable may be declared. -/
def Declares : Prop :=
  ∀ levels world name value env, inv.fine world → value.Quotes inv.part →
    world.env.declare name value = .ok env →
    inv.fine { world with env := env } ∧
      inv.comes levels world [] { world with env := env } .goes

variable {inv onward inner evaluator} {levels : Nat} {world : World}

-- A candid routine goes on with what it has asked for only if that is no fault.
theorem Holds.andThen {α : Type} {good : α → Prop} {log : List ι} (run : Run (Except Fault α))
    (next : α → Routine) (options : Options)
    (first : inv.Holds levels Course.ofAnswer (fun result => ∀ a, result = .ok a → good a) world
      log (run world))
    (further : ∀ a after, inv.fine after → good a →
      inv.HoldsAnswer levels after
        (journal.perform onward inner evaluator (next a) options after)
        (perform onward evaluator (next a) options after)) :
    inv.HoldsAnswer levels world
      (log ++ journal.behind run (fun result =>
        journal.perform onward inner evaluator (.andThen next result) options) world)
      ((run >>= fun result => perform onward evaluator (.andThen next result) options) world) := by
  intro admitted
  obtain ⟨sooner, rest⟩ := List.forall_mem_append.mp admitted
  obtain ⟨_, behind⟩ := List.forall_mem_append.mp rest
  have start := first sooner
  have moved := inv.reached start.comes
  simp only [Journal.behind, behindRun, ← List.append_assoc, Bind.bind, EStateM.bind] at behind ⊢
  cases ended : run world with
  | error halt after =>
      rw [ended] at moved
      rw [List.append_nil]
      refine ⟨moved, ?_⟩
      rintro _ _ ⟨⟩
  | ok result after =>
      rw [ended] at start moved behind
      cases result with
      | ok a =>
          obtain ⟨fine, fits⟩ := start.goes _ after rfl rfl
          have ends := further a after fine (fits a rfl) behind
          exact ⟨inv.trans moved ends.comes, ends.goes⟩
      | error cause =>
          have silent : journal.perform onward inner evaluator (.andThen next (.error cause))
              options after = [] := rfl
          simp only [silent, List.append_nil]
          refine ⟨moved, ?_⟩
          rintro _ _ ⟨⟩ ⟨⟩

theorem expect_holds (target : Target) (value : Value) (fine : inv.fine world)
    (quotes : value.Quotes inv.part) :
    inv.Holds levels Course.ofAnswer (fun result => ∀ a, result = .ok a → target.Quotes inv.part a)
      world [] (Run.ask (·.expect target value) world) := by
  intro _
  simp only [Run.ask]
  cases taken : world.env.expect target value with
  | ok a =>
      refine ⟨inv.refl, ?_⟩
      rintro _ _ ⟨⟩ _
      exact ⟨fine, fun b same =>
        Except.ok.inj same ▸ inv.quotes_taken world target value a fine quotes taken⟩
  | error cause =>
      unfold Environment.expect at taken
      split at taken
      · cases taken
      · cases taken
        refine ⟨inv.complains _, ?_⟩
        rintro _ _ ⟨⟩ ⟨⟩

theorem declare_holds (declares : inv.Declares) (name : String) (value : Value)
    (fine : inv.fine world) (quotes : value.Quotes inv.part) :
    inv.Holds levels Course.ofAnswer (fun result => ∀ a, result = .ok a → True) world []
      (Run.change (·.declare name value) world) := by
  intro _
  simp only [Run.change]
  cases declared : world.env.declare name value with
  | ok env =>
      obtain ⟨after, comes⟩ := declares levels world name value env fine quotes declared
      refine ⟨comes, ?_⟩
      rintro _ _ ⟨⟩ _
      exact ⟨after, fun _ _ => trivial⟩
  | error cause =>
      unfold Environment.declare at declared
      split at declared
      · cases declared
        refine ⟨inv.complains _, ?_⟩
        rintro _ _ ⟨⟩ ⟨⟩
      · cases declared

-- By induction on the routine: what it is answered with quotes parts only, and so does what it goes
-- on with.
theorem perform_holds (bodies : inv.BodiesEnd onward inner evaluator) {declares : Prop}
    (allowed : declares → inv.Declares) (routine : Routine)
    (candid : routine.Candid inv.part declares) (options : Options)
    (given : Quoting inv.part options.given) (fine : inv.fine world) :
    inv.HoldsAnswer (evaluator.maxDepth - evaluator.depth) world
      (journal.perform onward inner evaluator routine options world)
      (perform onward evaluator routine options world) := by
  induction candid generalizing options world with
  | answer value quotes =>
      refine fun _ => ⟨inv.refl, ?_⟩
      rintro _ _ ⟨⟩ _
      exact ⟨fine, fun found same => Except.ok.inj same ▸ quotes⟩
  | complain cause =>
      refine fun _ => ⟨inv.complains cause, ?_⟩
      rintro _ _ ⟨⟩ ⟨⟩
  | option name next goes ih =>
      have found : ∀ value ∈ options.get? name, value.Quotes inv.part :=
        fun value here => Quoting.lookup options.given given name value here
      exact ih _ found (options.ask name) given fine
  | convert target value quotes next goes ih =>
      apply Holds.andThen _ next options (expect_holds target value fine quotes)
      exact fun a after fine quotes => ih a quotes options given fine
  | declare allows name value quotes next goes ih =>
      apply Holds.andThen _ next options (declare_holds (allowed allows) name value fine quotes)
      exact fun _ after fine _ => ih options given fine
  | run bindings deferred bound quotes next goes ih =>
      rw [perform_run]
      apply Holds.andThen _ next options (bodies bindings deferred world bound quotes fine)
      exact fun value after fine quotes => ih value quotes options given fine

theorem methodsAnswer_of_prelude (bodies : inv.BodiesEnd onward inner evaluator)
    (known : ∀ method, inv.callable method → method ∈ Prelude.methods)
    (allowed : ∀ method, inv.callable method → method.name = "set" → inv.Declares) :
    inv.MethodsAnswer onward inner evaluator := by
  intro method callable params rest options world fine all all' given
  have candid := Prelude.candid_methods method (known method callable) params rest all all'
  exact perform_holds bodies (allowed method callable) _ candid ⟨options, []⟩ given fine

end

/-! Walks. -/

/-- A walk over parts only: its values quote parts, and if it has options, then the last one has its
place there. -/
structure Carries (walk : Walk) : Prop where
  values : ∀ value ∈ walk.values, value.Quotes inv.part
  options : Quoting inv.part walk.options
  place : walk.options ≠ [] → inv.word walk.optionPlace

namespace Carries

variable {inv} {walk : Walk}

theorem plain (values : List Value) (place : Position)
    (all : ∀ value ∈ values, value.Quotes inv.part) : inv.Carries ⟨values, [], place⟩ :=
  ⟨all, Quoting.nil _, fun nonempty => absurd rfl nonempty⟩

theorem start (place : Position) : inv.Carries (.start place) :=
  plain [] place (List.forall_mem_nil _)

theorem of_all (quotes : ∀ value : Value, value.Quotes inv.part) (words : ∀ place, inv.word place)
    (walk : Walk) : inv.Carries walk :=
  ⟨fun value _ => quotes value, fun binding _ => quotes binding.2, fun _ => words _⟩

theorem add (carries : inv.Carries walk) (value : Value) (quotes : value.Quotes inv.part) :
    inv.Carries (walk.add value) :=
  ⟨List.forall_mem_cons.mpr ⟨quotes, carries.values⟩, carries.options, carries.place⟩

theorem behindCall (carries : inv.Carries walk) (method : Method) (value : Value)
    (quotes : value.Quotes inv.part) : inv.Carries (walk.behindCall method value) := by
  refine plain _ _ (List.forall_mem_cons.mpr ⟨quotes, fun other member => ?_⟩)
  split at member
  · cases member
  · exact carries.values other (List.mem_of_mem_drop member)

theorem params (carries : inv.Carries walk) (method : Method) :
    ∀ value ∈ walk.params method, value.Quotes inv.part :=
  fun value member => carries.values value (List.mem_of_mem_take member)

theorem rest (carries : inv.Carries walk) (method : Method) :
    ∀ value ∈ walk.rest method, value.Quotes inv.part := by
  intro value member
  unfold Walk.rest at member
  split at member
  · exact carries.values value (List.mem_of_mem_drop member)
  · cases member

end Carries

section

variable {inv} {levels : Nat} {world : World} {walk : Walk}

theorem takeOption_holds (carries : inv.Carries walk) (name : String) (place : Position)
    (word : inv.word place) (fine : inv.fine world) :
    inv.HoldsRun levels inv.Carries world [] (Run.ofExcept (walk.takeOption name place) world) := by
  obtain ⟨values, options, optionPlace⟩ := walk
  cases values with
  | nil => exact .raise _ (inv.objects word (.missingOptionValue name))
  | cons value rest =>
      obtain ⟨first, later⟩ := List.forall_mem_cons.mp carries.values
      simp only [Walk.takeOption]
      split
      · exact .raise _ (inv.objects word (.duplicateOption name))
      · exact .here _ fine ⟨later, List.forall_mem_cons.mpr ⟨first, carries.options⟩, fun _ => word⟩

theorem result_holds (carries : inv.Carries walk) (place : Position) (fine : inv.fine world)
    (left : walk.values.length ≠ 1 →
      inv.comes levels world [] world (.fails (.unconsumed walk.values.length place))) :
    inv.HoldsRun levels (Value.Quotes inv.part) world []
      (Run.ofExcept (walk.result place) world) := by
  by_cases optionless : walk.options = []
  · by_cases single : walk.values.length = 1
    · obtain ⟨value, alone⟩ := List.length_eq_one_iff.mp single
      simp only [Walk.result, optionless, alone]
      exact .here _ fine (carries.values value (by simp [alone]))
    · rw [walk.result_unconsumed place optionless single]
      exact .raise _ (left single)
  · unfold Walk.result
    split
    · next empty _ => exact absurd empty optionless
    · next empty _ => exact absurd empty optionless
    · exact .raise _ (inv.objects (carries.place optionless) (.danglingOptions _))

end

/-! Calls. -/

section

variable {inv} {onward : Onward} {inner : OnwardLog ι} {evaluator : Evaluator} {levels : Nat}
  {world : World} {walk : Walk}

theorem settle_holds {log : List ι} (run : Run (Except Fault Value × Options)) (method : Method)
    (place : Position) (word : inv.word place) (carries : inv.Carries walk)
    (done : inv.HoldsAnswer levels world log (run world)) :
    inv.HoldsRun levels inv.Carries world
      (log ++ behindRun run (fun done _ => journal.answered method place done.1) world)
      ((run >>= settle method place walk) world) := by
  intro admitted
  obtain ⟨sooner, _⟩ := List.forall_mem_append.mp admitted
  have start := done sooner
  simp only [behindRun, Bind.bind, EStateM.bind]
  cases ended : run world with
  | error halt after =>
      rw [ended] at start
      rw [List.append_nil]
      refine ⟨start.comes, ?_⟩
      rintro _ _ ⟨⟩
  | ok answer after =>
      rw [ended] at start
      obtain ⟨result, options⟩ := answer
      cases result with
      | error cause =>
          refine ⟨inv.attributes word start.comes, ?_⟩
          rintro _ _ ⟨⟩
      | ok value =>
          obtain ⟨fine, quotes⟩ := start.goes _ after rfl rfl
          have answered : inv.comes levels world
              (log ++ journal.answered method place (.ok value)) after .goes :=
            inv.trans start.comes inv.answers
          simp only [settle]
          cases options.unused with
          | nil =>
              refine ⟨answered, ?_⟩
              rintro _ _ ⟨⟩ _
              exact ⟨fine, carries.behindCall method value (quotes value rfl)⟩
          | cons name names =>
              have objects : inv.comes levels after [] after
                  (.fails (.unusedOptions method.name (name :: names) place)) :=
                inv.objects word (.unusedOptions _ _)
              have raised := inv.trans answered objects
              rw [List.append_nil] at raised
              refine ⟨raised, ?_⟩
              rintro _ _ ⟨⟩

variable (methods : inv.MethodsAnswer onward inner evaluator)
  (scope : Quoting inv.part evaluator.scope)

include methods

theorem invoke_holds (name : String) (method : Method)
    (found : world.env.method? name = some method) (place : Position) (word : inv.word place)
    (carries : inv.Carries walk) (fine : inv.fine world) :
    inv.HoldsRun (evaluator.maxDepth - evaluator.depth) inv.Carries world
      (journal.invoke onward inner evaluator method place walk world)
      (invoke onward evaluator method place walk world) := by
  unfold Journal.invoke
  rcases Nat.lt_or_ge walk.values.length method.arity with few | enough
  · rw [if_pos few, invoke_few _ _ _ _ _ few]
    exact .raise _ (inv.objects word (.arity _ _ _))
  · rw [if_neg (Nat.not_lt.mpr enough), invoke_enough _ _ _ _ _ enough]
    intro admitted
    obtain ⟨called, inside⟩ := List.forall_mem_append.mp admitted
    have callable := inv.callable_called world name _ fine found called
    have done := methods method callable _ _ walk.options world fine (carries.params method)
      (carries.rest method) carries.options
    have ends := settle_holds _ method place word carries done inside
    exact ⟨inv.trans inv.called ends.comes, ends.goes⟩

include scope

theorem resolve_holds (name : String) (place : Position) (word : inv.word place)
    (carries : inv.Carries walk) (fine : inv.fine world) :
    inv.HoldsRun (evaluator.maxDepth - evaluator.depth) inv.Carries world
      (journal.resolve onward inner evaluator name place walk world)
      (resolve onward evaluator name place walk world) := by
  have start : inv.comes (evaluator.maxDepth - evaluator.depth) world
      ([] ++ journal.reached world) world .goes := inv.reached inv.refl
  intro admitted
  obtain ⟨_, inside⟩ := List.forall_mem_append.mp admitted
  unfold Journal.resolve
  cases called : evaluator.called? world.env name with
  | some method =>
      rw [called] at inside
      rw [resolve_called _ _ _ _ _ _ method called]
      have found := evaluator.method?_of_called? world.env name method called
      have ends := invoke_holds methods name method found place word carries fine inside
      exact ⟨inv.trans start ends.comes, ends.goes⟩
  | none =>
      dsimp only
      cases seen : evaluator.seen? world.env name with
      | some value =>
          rw [resolve_seen _ _ _ _ _ _ value seen]
          have quotes : value.Quotes inv.part := by
            simp only [Evaluator.seen?, Option.orElse_eq_orElse, Option.orElse_eq_or,
              Option.or_eq_some_iff] at seen
            rcases seen with transient | ⟨_, found⟩
            · exact Quoting.lookup evaluator.scope scope name value transient
            · exact inv.quotes_variable world name value fine found
          refine ⟨inv.trans start inv.refl, ?_⟩
          rintro _ _ ⟨⟩ _
          exact ⟨fine, carries.add value quotes⟩
      | none =>
          rw [resolve_unknown _ _ _ _ _ _ seen called]
          refine ⟨inv.trans start (inv.objects word (.unresolved name)), ?_⟩
          rintro _ _ ⟨⟩

end

end RunInvariant

/-! Chains without words. -/

theorem Expr.IsPlain.of_position? (term : Expr) (bare : term.position? = none) : term.IsPlain := by
  cases term <;> trivial

theorem walkTerms_wordless (onward : Onward) (evaluator : Evaluator) (behind : Walk)
    (terms : List Expr) (bare : Expr.firstPosition? terms = none) (world after : World)
    (walk : Walk) (walked : walkTerms onward evaluator behind terms world = .ok walk after) :
    walk.values.length = terms.length + behind.values.length := by
  induction terms generalizing walk after with
  | nil =>
      cases walked
      exact (Nat.zero_add _).symm
  | cons term rest ih =>
      cases first : term.position? with
      | some place => simp [Expr.firstPosition?, first] at bare
      | none =>
          have others : Expr.firstPosition? rest = none := by
            simpa [Expr.firstPosition?, first] using bare
          rw [walkTerms_cons] at walked
          simp only [Bind.bind, EStateM.bind] at walked
          cases sooner : walkTerms onward evaluator behind rest world with
          | error halt middle => simp [sooner] at walked
          | ok walk' middle =>
              rw [sooner] at walked
              dsimp only at walked
              rw [walkTerm_plain _ _ _ _ (.of_position? term first)] at walked
              simp only [Bind.bind, EStateM.bind] at walked
              cases evaluated : evaluateTerm onward evaluator term middle with
              | error halt last => simp [evaluated] at walked
              | ok value last =>
                  rw [evaluated] at walked
                  cases walked
                  have counted := ih others middle walk' sooner
                  simp only [Walk.add, List.length_cons, counted]
                  omega

namespace RunInvariant

variable {ι : Type} {journal : Journal ι} {inv : RunInvariant journal} {onward : Onward}
  {inner : OnwardLog ι} {evaluator : Evaluator}

section

variable (methods : inv.MethodsAnswer onward inner evaluator)
  (scope : Quoting inv.part evaluator.scope)

include methods scope

mutual

theorem evaluateTerm_holds (e : Expr) (part : inv.part e) (world : World) (fine : inv.fine world) :
    inv.HoldsRun (evaluator.maxDepth - evaluator.depth) (Value.Quotes inv.part) world
      (journal.term onward inner evaluator e world) (evaluateTerm onward evaluator e world) := by
  cases e with
  | text s => exact .here _ fine (.text s)
  | number n =>
      cases n with
      | int n => exact .here _ fine (.int n)
      | decimal x => exact .here _ fine (.float x)
  | deferred body => exact .here _ fine (.deferred body _ (inv.part_deferred body part) scope)
  | stub value => exact .here _ fine (inv.quotes_stub value part)
  | block body => exact evaluateTerm_holds body (inv.part_block body part) world fine
  | identifier name place =>
      have word := inv.word_identifier name place part
      apply Holds.bind_silent _ _ (resolve_holds methods scope name place word (.start place) fine)
      exact fun walk after _ fine carries =>
        result_holds carries place fine fun _ => inv.objects word (.unconsumed _)
  | option name place =>
      have word := inv.word_option name place part
      apply Holds.bind_silent _ _ (takeOption_holds (.start place) name place word fine)
      exact fun walk after _ fine carries =>
        result_holds carries place fine fun _ => inv.objects word (.unconsumed _)
  | chain terms =>
      apply Holds.bind_silent _ _
        (walkTerms_holds _ (.start _) terms (inv.part_term terms part) world fine)
      intro walk after walked fine carries
      apply result_holds carries _ fine
      intro several
      apply inv.unconsumed terms _ part _ several
      exact fun bare => walkTerms_wordless onward evaluator _ terms bare world after walk walked

theorem walkTerms_holds (behind : Walk) (carries : inv.Carries behind) (terms : List Expr)
    (parts : ∀ term ∈ terms, inv.part term) (world : World) (fine : inv.fine world) :
    inv.HoldsRun (evaluator.maxDepth - evaluator.depth) inv.Carries world
      (journal.walk onward inner evaluator behind terms world)
      (walkTerms onward evaluator behind terms world) := by
  cases terms with
  | nil => exact .here _ fine carries
  | cons term rest =>
      obtain ⟨part, later⟩ := List.forall_mem_cons.mp parts
      rw [walkTerms_cons]
      apply Holds.bind _ _ _ (walkTerms_holds behind carries rest later world fine)
      intro walk after _ fine carries
      have adds : inv.HoldsRun (evaluator.maxDepth - evaluator.depth) inv.Carries after
          (journal.term onward inner evaluator term after)
          ((evaluateTerm onward evaluator term >>= fun value => pure (walk.add value)) after) := by
        apply Holds.bind_silent _ _ (evaluateTerm_holds term part after fine)
        exact fun value last _ fine quotes => .here _ fine (carries.add value quotes)
      cases term with
      | identifier name place =>
          have word := inv.word_identifier name place part
          exact resolve_holds methods scope name place word carries fine
      | option name place =>
          exact takeOption_holds carries name place (inv.word_option name place part) fine
      | _ => exact adds

end

end

/-! Bodies and levels. -/

theorem quoting_inside (scope : Quoting inv.part evaluator.scope) (deferred : Deferred)
    (captured : Quoting inv.part deferred.captured) :
    Quoting inv.part (evaluator.inside deferred).scope := by
  intro binding member
  rcases List.mem_append.mp member with handed | own
  · split at handed
    · exact scope binding handed
    · cases handed
  · exact captured binding own

theorem quoting_runner (scope : Quoting inv.part evaluator.scope) (bindings : Option Bindings)
    (bound : ∀ more ∈ bindings, Quoting inv.part more) :
    Quoting inv.part (evaluator.runner bindings).scope := by
  cases bindings with
  | none => exact scope
  | some more => exact fun binding member => bound more rfl binding (List.mem_reverse.mp member)

/-- Bodies keep the invariant if evaluation does where they are evaluated, one level further in. -/
theorem bodiesEnd_of_deeper (scope : Quoting inv.part evaluator.scope)
    (deeper : ∀ (inside : Evaluator) (e : Expr) (world : World),
      inside.maxDepth - inside.depth + 1 = evaluator.maxDepth - evaluator.depth →
      Quoting inv.part inside.scope → inv.part e → inv.fine world →
      inv.HoldsRun (inside.maxDepth - inside.depth) (Value.Quotes inv.part) world
        (inner.deeper inside e world) (onward.deeper inside e world)) :
    inv.BodiesEnd onward inner evaluator := by
  intro bindings deferred world bound quotes fine
  have here := runner_levels evaluator bindings
  have runner := quoting_runner scope bindings bound
  generalize evaluator.runner bindings = runner' at here runner
  unfold Journal.body runDeferred
  by_cases deep : runner'.maxDepth ≤ runner'.depth
  · rw [if_pos deep, if_pos deep]
    refine fun _ => ⟨inv.complains _, ?_⟩
    rintro _ _ ⟨⟩ ⟨⟩
  · rw [if_neg deep, if_neg deep]
    obtain ⟨body, captured⟩ := deferred
    cases quotes with
    | deferred _ _ among all =>
        have inside := quoting_inside runner ⟨body, captured⟩ all
        have further : (runner'.inside ⟨body, captured⟩).maxDepth -
            (runner'.inside ⟨body, captured⟩).depth + 1 =
              evaluator.maxDepth - evaluator.depth := by
          simp only [Evaluator.inside]
          omega
        have ends := deeper _ body world further inside among fine
        apply Holds.attempt
        intro admitted
        obtain ⟨_, later⟩ := List.forall_mem_append.mp admitted
        have start := ends (List.forall_mem_append.mp later).1
        have entered := inv.enters ⟨body, captured⟩ start.comes
        rw [further, ← Course.closing_eq] at entered
        exact ⟨entered, start.goes⟩

/-- What is evaluated within so many levels keeps the invariant, if methods do wherever bodies do.
There are as many levels as the evaluator has left, or else a run may stop for the lack of them. -/
theorem evaluateWithin_holds (again : Evaluator → Expr → Run Value)
    (logs : Evaluator → Expr → World → List ι)
    (methods : ∀ deeper more evaluator, inv.BodiesEnd ⟨again, deeper⟩ ⟨logs, more⟩ evaluator →
      inv.MethodsAnswer ⟨again, deeper⟩ ⟨logs, more⟩ evaluator)
    (levels : Nat) (evaluator : Evaluator) (scope : Quoting inv.part evaluator.scope)
    (room : evaluator.maxDepth - evaluator.depth ≤ levels ∨
      ∀ levels world, inv.comes levels world [] world .stops)
    (e : Expr) (part : inv.part e) (world : World) (fine : inv.fine world) :
    inv.HoldsRun (evaluator.maxDepth - evaluator.depth) (Value.Quotes inv.part) world
      (journal.within again logs levels evaluator e world)
      (evaluateWithin again levels evaluator e world) := by
  induction levels generalizing evaluator e world with
  | zero =>
      refine evaluateTerm_holds (methods _ _ _ (bodiesEnd_of_deeper scope ?_)) scope e part world
        fine
      intro inside e world further _ _ _
      rcases room with enough | stops
      · omega
      · refine fun _ => ⟨stops _ world, ?_⟩
        rintro _ _ ⟨⟩
  | succ levels ih =>
      refine evaluateTerm_holds (methods _ _ _ (bodiesEnd_of_deeper scope ?_)) scope e part world
        fine
      intro inside e world further scope part fine
      exact ih inside scope (room.imp_left fun enough => by omega) e part world fine

theorem evaluate_holds
    (methods : ∀ onward inner evaluator, inv.BodiesEnd onward inner evaluator →
      inv.MethodsAnswer onward inner evaluator)
    (evaluator : Evaluator) (scope : Quoting inv.part evaluator.scope) (e : Expr)
    (part : inv.part e) (world : World) (fine : inv.fine world) :
    inv.HoldsRun (evaluator.maxDepth - evaluator.depth) (Value.Quotes inv.part) world
      (journal.evaluate evaluator e world) (evaluator.evaluate e world) :=
  evaluateWithin_holds _ _ (fun _ _ => methods _ _) _ evaluator scope (.inl (Nat.le_refl _)) e part
    world fine

theorem evaluate_holds_of_prelude
    (known : ∀ method, inv.callable method → method ∈ Prelude.methods)
    (allowed : ∀ method, inv.callable method → method.name = "set" → inv.Declares)
    (evaluator : Evaluator) (scope : Quoting inv.part evaluator.scope) (e : Expr)
    (part : inv.part e) (world : World) (fine : inv.fine world) :
    inv.HoldsRun (evaluator.maxDepth - evaluator.depth) (Value.Quotes inv.part) world
      (journal.evaluate evaluator e world) (evaluator.evaluate e world) :=
  evaluate_holds (fun _ _ _ bodies => methodsAnswer_of_prelude bodies known allowed) evaluator scope
    e part world fine

end RunInvariant

end ChainScript
