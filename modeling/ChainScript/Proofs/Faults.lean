import ChainScript.Proofs.RunInvariant

/-!
What halts a run. The faults of a routine are its results, so nothing comes out of a method that
has not got the place of the call, or a place of its own.
-/

namespace ChainScript

variable {α β : Type}

def HaltsFor (reasons : Halt → Prop) (run : Run α) : Prop :=
  ∀ world halt after, run world = .error halt after → reasons halt

def Halt.Outside : Halt → Prop
  | .fault _ => False
  | .panic _ | .exhausted => True

/-- A reason that is no complaint, unless together with the call that it belongs to. -/
def Halt.Attributed : Halt → Prop
  | .fault (.complaint _) => False
  | _ => True

namespace HaltsFor

variable {reasons : Halt → Prop}

theorem of_ok (run : Run α) (ends : ∀ world, ∃ a after, run world = .ok a after) :
    HaltsFor reasons run := by
  intro world halt after halted
  obtain ⟨a, later, same⟩ := ends world
  rw [same] at halted
  cases halted

theorem pure (a : α) : HaltsFor reasons (Pure.pure a : Run α) :=
  of_ok _ fun world => ⟨a, world, rfl⟩

theorem bind (run : Run α) (next : α → Run β) (first : HaltsFor reasons run)
    (later : ∀ a, HaltsFor reasons (next a)) : HaltsFor reasons (run >>= next) := by
  intro world halt after halted
  simp only [Bind.bind, EStateM.bind] at halted
  cases result : run world with
  | ok a middle =>
      rw [result] at halted
      exact later a middle halt after halted
  | error cause middle =>
      rw [result] at halted
      cases halted
      exact first world _ _ result

theorem ask (f : Environment → α) : HaltsFor reasons (Run.ask f) :=
  of_ok _ fun _ => ⟨_, _, rfl⟩

theorem change (f : Environment → Except Fault Environment) :
    HaltsFor reasons (Run.change f) := by
  apply of_ok
  intro world
  simp only [Run.change]
  cases f world.env with
  | ok env => exact ⟨_, _, rfl⟩
  | error cause => exact ⟨_, _, rfl⟩

theorem attempt (run : Run α) : HaltsFor Halt.Outside run.attempt := by
  intro world halt after halted
  simp only [Run.attempt] at halted
  split at halted
  · cases halted
  · cases halted
  · next cause middle noFault result =>
      cases halted
      cases halt with
      | fault fault => exact noFault fault rfl
      | panic text => trivial
      | exhausted => trivial

theorem pop : HaltsFor Halt.Outside Run.pop := by
  intro world halt after halted
  simp only [Run.pop] at halted
  split at halted
  · cases halted
  · cases halted
    trivial

theorem inFrame (run : Run α) (halts : HaltsFor Halt.Outside run) :
    HaltsFor Halt.Outside (Run.inFrame run) := by
  intro world halt after halted
  simp only [Run.inFrame] at halted
  split at halted
  · next a middle _ =>
      exact bind _ _ pop (fun _ => pure a) middle halt after halted
  · next cause middle result =>
      have thrown : HaltsFor Halt.Outside (throw cause : Run α) := by
        intro _ _ _ ended
        cases ended
        exact halts _ _ _ result
      exact bind _ _ pop (fun _ => thrown) middle halt after halted

end HaltsFor

theorem perform_outside (onward : Onward) (evaluator : Evaluator) (routine : Routine)
    (options : Options) : HaltsFor Halt.Outside (perform onward evaluator routine options) := by
  induction routine generalizing options with
  | finish result => exact .pure _
  | panic text =>
      intro _ _ _ halted
      cases halted
      trivial
  | option name next ih => exact ih _ _
  | optionCount next ih => exact ih _ _
  | caller next ih => exact ih _ _
  | convert target value next ih => exact .bind _ _ (.ask _) fun result => ih result options
  | variableValue name next ih => exact .bind _ _ (.ask _) fun found => ih found options
  | declare name value next ih => exact .bind _ _ (.change _) fun result => ih result options
  | define name arity takesRest body next _ ih =>
      exact .bind _ _ (.change _) fun result => ih result options
  | register converter next ih => exact .bind _ _ (.change _) fun _ => ih options
  | push next ih => exact .bind _ _ (.of_ok _ fun _ => ⟨_, _, rfl⟩) fun _ => ih options
  | pop next ih => exact .bind _ _ .pop fun _ => ih options
  | inFrame inner next inside ih =>
      exact .bind _ _ (.inFrame _ (inside options)) fun done => ih done.1 done.2
  | evaluate chosen e next ih => exact .bind _ _ (.attempt _) fun result => ih result options
  | run bindings deferred next ih => exact .bind _ _ (.attempt _) fun result => ih result options
  | tick counter next ih =>
      exact .bind _ _ (.of_ok _ fun _ => ⟨_, _, rfl⟩) fun count => ih count options

theorem Fault.atCall_attributed (fault : Fault) (method : String) (place : Position) :
    (Halt.fault (fault.atCall method place)).Attributed := by
  cases fault <;> trivial

/-! Invariants of faults. -/

/-- Whether a run fails or answers with such faults only, if with any. -/
def Course.Among (fails answers : Fault → Prop) : Course → Prop
  | .goes | .stops => True
  | .answers cause => answers cause
  | .fails cause => fails cause

theorem Course.among_true (course : Course) : course.Among (fun _ => True) fun _ => True := by
  cases course <;> trivial

/-- An invariant of nothing but faults: of those that runs fail with, and of those that routines
answer with. -/
structure FaultInvariant extends Setting where
  fails : Fault → Prop
  answers : Fault → Prop
  callable_fine : ∀ world name method, fine world → world.env.method? name = some method →
    callable method
  complains : ∀ cause, answers (.complaint cause)
  catches : ∀ cause, fails cause → answers cause
  attributes : ∀ cause method place, word place → answers cause →
    fails (cause.atCall method place)
  objects : ∀ cause place, word place → cause.Objects place → fails cause
  unconsumed : ∀ terms count, part (.chain terms) →
    (Expr.firstPosition? terms = none → count = terms.length) → count ≠ 1 →
    fails (.unconsumed count (Expr.chainPlace terms))

namespace FaultInvariant

def onRuns (inv : FaultInvariant) : RunInvariant Journal.blank where
  toSetting := inv.toSetting
  admits _ := True
  comes _ _ _ _ course := course.Among inv.fails inv.answers
  refl := trivial
  trans _ later := later
  reached comes := comes
  called := trivial
  callable_called world name call fine found _ :=
    inv.callable_fine world name call.method fine found
  complains := inv.complains
  catches := inv.catches _
  enters _ comes := comes
  answers := trivial
  attributes := inv.attributes _ _ _
  objects := inv.objects _ _
  unconsumed := inv.unconsumed

variable {inv : FaultInvariant} {levels : Nat} {good : α → Prop} {world after : World}
  {log : List Empty} {result : EStateM.Result Halt World α}

theorem fails_of_holds (holds : inv.onRuns.HoldsRun levels good world log result) (cause : Fault)
    (failed : result = .error (.fault cause) after) : inv.fails cause := by
  obtain ⟨among, -⟩ := holds fun _ _ => trivial
  rw [failed] at among
  exact among

end FaultInvariant

/-! Faults with their calls. -/

def attribution : FaultInvariant where
  toSetting := .everywhere (fun _ => True) fun _ => True
  fails cause := (Halt.fault cause).Attributed
  answers _ := True
  callable_fine _ _ _ _ _ := trivial
  complains _ := trivial
  catches _ _ := trivial
  attributes cause method place _ _ := cause.atCall_attributed method place
  objects _ _ _ objects := by cases objects <;> trivial
  unconsumed _ _ _ _ _ := trivial

theorem methodsAnswer_attribution (onward : Onward) (inner : OnwardLog Empty)
    (evaluator : Evaluator) : attribution.onRuns.MethodsAnswer onward inner evaluator := by
  intro method _ params rest options world _ _ _ _ _
  have outside := perform_outside onward evaluator (method.body params rest) ⟨options, []⟩ world
  generalize perform onward evaluator (method.body params rest) ⟨options, []⟩ world = result
    at outside
  cases result with
  | ok done after =>
      obtain ⟨result, options⟩ := done
      refine ⟨by cases result <;> trivial, fun _ _ _ _ => ⟨trivial, ?_⟩⟩
      exact fun value _ => value.quotes_true
  | error halt after =>
      have reason := outside halt after rfl
      refine ⟨?_, ?_⟩
      · cases halt with
        | fault cause => exact absurd reason id
        | panic text => trivial
        | exhausted => trivial
      · rintro _ _ ⟨⟩

theorem evaluateTerm_attributed (onward : Onward) (evaluator : Evaluator) (e : Expr) :
    HaltsFor Halt.Attributed (evaluateTerm onward evaluator e) := by
  intro world halt after halted
  have holds := RunInvariant.evaluateTerm_holds
    (methodsAnswer_attribution onward .blank evaluator) (quoting_true evaluator.scope) e trivial
    world trivial
  cases halt with
  | fault cause => exact FaultInvariant.fails_of_holds holds cause halted
  | panic text => trivial
  | exhausted => trivial

theorem attempt_passOn (run : Run Value) (method : String) (place : Position) (world : World)
    (attributed : ∀ halt after, run world = .error halt after → halt.Attributed) :
    (run.attempt >>= passOn method place) world = run world := by
  simp only [Bind.bind, EStateM.bind, Run.attempt]
  cases ended : run world with
  | ok value after => rfl
  | error halt after =>
      have reason := attributed halt after ended
      cases halt with
      | fault fault =>
          cases fault with
          | complaint cause => exact absurd reason id
          | _ => rfl
      | panic text => rfl
      | exhausted => rfl

end ChainScript
