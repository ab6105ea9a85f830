import ChainScript.Proofs.Tame

/-!
The order of events. Over methods that are those of the prelude or evaluate nothing, a fault that a
method answers with is where the run ends, and bodies nest no deeper than the levels that are left.
-/

namespace ChainScript

namespace Event

def Faulty : Event → Prop
  | .answered _ _ (.error _) => True
  | _ => False

end Event

/-- Whether no method is called once a method has answered with a fault. -/
def CallsEnd (events : List Event) : Prop :=
  events.Pairwise fun sooner later => sooner.Faulty → later.call? = none

/-- Whether a run comes to this fault, which an evaluation fails with and a routine answers with. -/
def Course.EndsBy (cause : Fault) : Course → Prop
  | .answers found | .fails found => found = cause
  | .goes | .stops => False

theorem Course.ended_of_endsBy {α : Type} (cause : Fault) (result : EStateM.Result Halt World α)
    (ends : (Course.of (fun _ => .goes) result).EndsBy cause) :
    ∃ after, result = .error (.fault cause) after := by
  cases result with
  | ok a after => cases ends
  | error halt after =>
      cases halt with
      | fault found =>
          cases ends
          exact ⟨after, rfl⟩
      | panic text => cases ends
      | exhausted => cases ends

/-- What holds of the events of a run that has come out like this. -/
structure Orderly (bound : Nat) (events : List Event) (course : Course) : Prop where
  within : ∀ before, before <+: events → activeBodies before ≤ bound
  closed : course ≠ .stops → activeBodies events = 0
  final : ∀ method place cause, .answered method place (.error cause) ∈ events →
    course.EndsBy (cause.atCall method.name place)
  last : CallsEnd events

theorem activeBodies_append (first second : List Event) :
    activeBodies (first ++ second) = activeBodies first + activeBodies second := by
  induction first with
  | nil => exact (Int.zero_add _).symm
  | cons event rest ih => simp only [List.cons_append, activeBodies, ih, Int.add_assoc]

theorem Fault.atCall_atCall (cause : Fault) (method outer : String) (place place' : Position) :
    (cause.atCall method place).atCall outer place' = cause.atCall method place := by
  cases cause <;> rfl

namespace Orderly

variable {bound : Nat} {events : List Event} {course : Course}

theorem silent (bound : Nat) (course : Course) : Orderly bound [] course where
  within before := by
    intro start
    rw [List.prefix_nil.mp start]
    exact Int.natCast_nonneg bound
  closed _ := rfl
  final _ _ _ := by
    intro member
    cases member
  last := .nil

theorem single (bound : Nat) (event : Event) (flat : event.bodies = 0)
    (final : ∀ method place cause, event = .answered method place (.error cause) →
      course.EndsBy (cause.atCall method.name place)) : Orderly bound [event] course where
  within before start := by
    have level : activeBodies before = 0 := by
      rcases List.prefix_cons_iff.mp start with rfl | ⟨behind, rfl, further⟩
      · rfl
      · rw [List.prefix_nil.mp further, activeBodies, flat]
        rfl
    rw [level]
    exact Int.natCast_nonneg bound
  closed _ := by
    rw [activeBodies, flat]
    rfl
  final method place cause member := final method place cause (List.mem_singleton.mp member).symm
  last := List.pairwise_singleton _ _

theorem append {later : List Event} {last : Course} (first : Orderly bound events course)
    (second : Orderly bound later last) (stays : course ≠ .stops)
    (ends : ∀ method place (cause : Fault), course.EndsBy (cause.atCall method place) →
      last.EndsBy (cause.atCall method place) ∧ ∀ event ∈ later, event.call? = none) :
    Orderly bound (events ++ later) last where
  within before start := by
    obtain ⟨rest, split⟩ := start
    rcases List.append_eq_append_iff.mp split with ⟨middle, inside, _⟩ | ⟨middle, rfl, further⟩
    · exact first.within before ⟨middle, inside.symm⟩
    · rw [activeBodies_append, first.closed stays, Int.zero_add]
      exact second.within middle ⟨rest, further.symm⟩
  closed goes := by
    rw [activeBodies_append, first.closed stays, second.closed goes]
    rfl
  final method place cause member := by
    rcases List.mem_append.mp member with sooner | later
    · exact (ends _ _ _ (first.final method place cause sooner)).1
    · exact second.final method place cause later
  last := by
    refine List.pairwise_append.mpr ⟨first.last, second.last, ?_⟩
    intro sooner member event found faulty
    cases sooner with
    | answered method place answer =>
        cases answer with
        | error cause => exact (ends _ _ _ (first.final method place cause member)).2 event found
        | ok value => exact absurd faulty id
    | _ => exact absurd faulty id

theorem goes {later : List Event} {last : Course} (first : Orderly bound events .goes)
    (second : Orderly bound later last) : Orderly bound (events ++ later) last :=
  first.append second Course.noConfusion fun _ _ _ => False.elim

theorem caught {cause : Fault} (orderly : Orderly bound events (.fails cause)) :
    Orderly bound events (.answers cause) :=
  ⟨orderly.within, fun _ => orderly.closed Course.noConfusion, orderly.final, orderly.last⟩

-- A fault that has come out of another call inside of this one has its place already.
theorem attributed {cause : Fault} (method : Method) (place : Position)
    (orderly : Orderly bound events (.answers cause)) :
    Orderly bound (events ++ [.answered method place (.error cause)])
      (.fails (cause.atCall method.name place)) := by
  apply orderly.append (.single bound _ rfl ?_) Course.noConfusion
  · rintro inner place' found rfl
    exact ⟨found.atCall_atCall inner method.name place' place, by simp [Event.call?]⟩
  · rintro _ _ _ ⟨⟩
    rfl

theorem body (deferred : Deferred) (orderly : Orderly bound events course) :
    Orderly (bound + 1) (.entered deferred :: (events ++ course.closing [.left])) course where
  within before start := by
    rcases List.prefix_cons_iff.mp start with rfl | ⟨before, rfl, further⟩
    · exact Int.natCast_nonneg _
    · have entered : Event.bodies (.entered deferred) = 1 := rfl
      have left : activeBodies [.left] = -1 := rfl
      rw [activeBodies, entered]
      by_cases stops : course = .stops
      · rw [stops, Course.closing, List.append_nil] at further
        have enough := orderly.within before further
        omega
      · rw [Course.closing_of_ne _ _ stops] at further
        rcases List.prefix_concat_iff.mp further with rfl | further
        · rw [activeBodies_append, orderly.closed stops]
          omega
        · have enough := orderly.within before further
          omega
  closed stays := by
    rw [Course.closing_of_ne _ _ stays, activeBodies, activeBodies_append, orderly.closed stays]
    rfl
  final method place cause member := by
    rcases List.mem_cons.mp member with other | member
    · cases other
    · rcases List.mem_append.mp member with member | member
      · exact orderly.final method place cause member
      · cases List.mem_singleton.mp (Course.mem_of_mem_closing _ _ _ member)
  last := by
    refine List.pairwise_cons.mpr ⟨fun _ _ faulty => absurd faulty id, ?_⟩
    refine List.pairwise_append.mpr ⟨orderly.last, ?_, ?_⟩
    · cases course <;> simp [Course.closing]
    · intro _ _ event found _
      rw [List.mem_singleton.mp (Course.mem_of_mem_closing _ _ event found)]
      rfl

end Orderly

/-! Evaluations. -/

def ordering : RunInvariant Journal.events where
  toSetting := .everywhere (fun world => TameMethods world.env) Method.Tame
  admits _ := True
  comes levels _ log _ course := Orderly levels log course
  refl := .silent _ _
  trans := .goes
  reached {_ _ log _ _} orderly := (List.append_nil log).symm ▸ orderly
  called := .single _ _ rfl (by rintro _ _ _ ⟨⟩)
  callable_called _ name call tame found _ := tame.of_method? name call.method found
  complains _ := .silent _ _
  catches := .caught
  enters deferred orderly := orderly.body deferred
  answers := .single _ _ rfl (by rintro _ _ _ ⟨⟩)
  attributes _ orderly := orderly.attributed _ _
  objects _ _ := .silent _ _
  unconsumed _ _ _ _ _ := .silent _ _

theorem declares_ordering : ordering.Declares := by
  intro levels world name value env tame _ declared
  exact ⟨tame.declare name value env declared, .silent _ _⟩

theorem methodsAnswer_ordering {onward : Onward} {inner : OnwardLog Event} {evaluator : Evaluator}
    (bodies : ordering.BodiesEnd onward inner evaluator) :
    ordering.MethodsAnswer onward inner evaluator := by
  intro method harmless params rest options world tame _ _ _
  rcases harmless with known | inert
  · have candid := Prelude.candid_true method known params rest
    exact RunInvariant.perform_holds bodies (fun _ => declares_ordering) _ candid ⟨options, []⟩
      (quoting_true options) tame
  · rw [events_inert onward evaluator inner _ (inert params rest)]
    have still := perform_inert onward evaluator _ (inert params rest) ⟨options, []⟩ tame
    refine fun _ => ⟨.silent _ _, fun done after ended _ => ?_⟩
    rw [ended] at still
    exact ⟨still, fun value _ => value.quotes_true⟩

/-- Evaluation is in order as far as it goes: no more bodies are active than there are levels left,
and a fault that a method answers with ends it. -/
theorem events_orderly (evaluator : Evaluator) (e : Expr) (world : World)
    (tame : TameMethods world.env) :
    Orderly (evaluator.maxDepth - evaluator.depth) (evaluator.events e world)
      (.of (fun _ => .goes) (evaluator.evaluate e world)) := by
  have holds := ordering.evaluate_holds (fun _ _ _ => methodsAnswer_ordering) evaluator
    (quoting_true evaluator.scope) e trivial world tame
  exact (holds fun _ _ => trivial).comes

end ChainScript
