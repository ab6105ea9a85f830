import ChainScript.Proofs.Forcing
import ChainScript.Proofs.Registrations

/-!
Loops over the items of a list. `map` and `filter` evaluate a body for one item after the other,
each in the world that the one before has left, up to the first that fails. So what the one does
tells what the other does.
-/

namespace ChainScript

/-! Worlds over the prelude. -/

theorem Environment.Extends.preludeOnly {after before : Environment}
    (extends' : after.Extends before) (prelude : PreludeOnly before) : PreludeOnly after := by
  constructor
  · exact extends'.prelude prelude.methods
  · intro frame member converter found
    rcases List.mem_cons.mp member with rfl | below
    · rw [extends'.converters] at found
      exact prelude.converters before.top List.mem_cons_self converter found
    · rw [extends'.below] at below
      exact prelude.converters frame (List.mem_cons_of_mem _ below) converter found

theorem allSome_some {α : Type} (items : List α) : allSome some items = some items := by
  induction items with
  | nil => rfl
  | cons item rest ih => simp only [allSome, ih, Option.map_some]

namespace PreludeOnly

variable {env : Environment} (prelude : PreludeOnly env)

include prelude

theorem converted_eq_none (target : Target) (value : Value)
    (other : ∀ converter ∈ Prelude.converters, converter.target ≠ target) :
    env.converted target value = none := by
  apply List.findSome?_eq_none_iff.mpr
  intro frame member
  rw [firstConversion_eq]
  apply List.findSome?_eq_none_iff.mpr
  intro converter found
  exact convert?_of_other converter target value
    (other converter (prelude.converters frame member converter found))

theorem expect_parts (value : Value) :
    env.expect (.list .value) value = .ok (Prelude.parts value) := by
  have declined := prelude.converted_eq_none (.list .value) value (by simp [Prelude.converters,
    Prelude.intToFloat, Prelude.textToName])
  have taken : env.convert (.list .value) value = some (Prelude.parts value) := by
    rw [Environment.convert_eq, declined]
    cases value with
    | list items =>
        simp only [Target.check, Value.items?, Option.bind_some]
        exact congrArg (· <|> _) (allSome_some items)
    | _ => rfl
  simp only [Environment.expect, taken]

theorem expect_bool_refused (value : Value) (other : ∀ b, value ≠ .bool b) :
    env.expect .bool value = .error (.complaint (.conversion .bool value.typeName)) := by
  have declined := prelude.converted_eq_none .bool value (by simp [Prelude.converters,
    Prelude.intToFloat, Prelude.textToName])
  have refused : env.convert .bool value = none := by
    rw [Environment.convert_eq, declined]
    cases value with
    | bool b => exact absurd rfl (other b)
    | _ => rfl
  simp only [Environment.expect, refused]

end PreludeOnly

/-! Bodies for items. -/

namespace Evaluator

/-- Evaluates a body for an item, which it sees as a transient. -/
def onItem (evaluator : Evaluator) (body : Deferred) (item : Value) : Run Value :=
  (evaluator.extend [(Prelude.itemName, item)]).evaluateDeferred body

def itemEvents (evaluator : Evaluator) (inner : OnwardLog Event) (body : Deferred) (item : Value) :
    World → List Event :=
  Journal.events.body evaluator.onward inner (evaluator.extend [(Prelude.itemName, item)]) body

end Evaluator

section

variable (inner : OnwardLog Event) (evaluator : Evaluator) (body : Deferred)

/-- Evaluating a body for these items, one after the other: all results, what has happened, and the
world that is left. -/
inductive InTurn : World → List Value → List Value → List Event → World → Prop where
  | nil (world : World) : InTurn world [] [] [] world
  | cons (item result : Value) (items results : List Value) (events : List Event)
      (world middle after : World) (one : evaluator.onItem body item world = .ok result middle)
      (more : InTurn middle items results events after) :
      InTurn world (item :: items) (result :: results)
        (evaluator.itemEvents inner body item world ++ events) after

/-- How a routine answers, what happens until then, and the world that is left. -/
structure Answers (routine : Routine) (options : Options) (world : World)
    (result : Except Fault Value) (events : List Event) (after : World) : Prop where
  ends : perform evaluator.onward evaluator routine options world = .ok (result, options) after
  happens : Journal.events.perform evaluator.onward inner evaluator routine options world = events

end

section

variable {inner : OnwardLog Event} {evaluator : Evaluator} {body : Deferred} {options : Options}

theorem runDeferred_item (item : Value) :
    runDeferred evaluator.onward (evaluator.runner (some [(Prelude.itemName, item)])) body =
      evaluator.onItem body item :=
  evaluator.runDeferred_onward (evaluator.extend _) rfl rfl body

theorem Answers.runOn (item result : Value) (next : Value → Routine) (world middle after : World)
    (answer : Except Fault Value) (events : List Event)
    (one : evaluator.onItem body item world = .ok result middle)
    (more : Answers inner evaluator (next result) options middle answer events after) :
    Answers inner evaluator (Prelude.runOn item body next) options world answer
      (evaluator.itemEvents inner body item world ++ events) after := by
  have attempted : (evaluator.onItem body item).attempt world = .ok (.ok result) middle := by
    simp only [Run.attempt, one]
  constructor
  · rw [Prelude.runOn, perform_run, runDeferred_item]
    simp only [Bind.bind, EStateM.bind, attempted]
    exact more.ends
  · simp only [Prelude.runOn, Journal.perform, Journal.events_behind, runDeferred_item, behindRun,
      attempted]
    rw [← more.happens]
    rfl

theorem Answers.runOn_fault (item : Value) (next : Value → Routine) (world after : World)
    (fault : Fault) (one : evaluator.onItem body item world = .error (.fault fault) after) :
    Answers inner evaluator (Prelude.runOn item body next) options world (.error fault)
      (evaluator.itemEvents inner body item world) after := by
  have attempted : (evaluator.onItem body item).attempt world = .ok (.error fault) after := by
    simp only [Run.attempt, one]
  constructor
  · rw [Prelude.runOn, perform_run, runDeferred_item]
    simp only [Bind.bind, EStateM.bind, attempted]
    rfl
  · simp only [Prelude.runOn, Journal.perform, Journal.events_behind, runDeferred_item, behindRun,
      attempted]
    exact List.append_nil _

theorem Answers.expect (target : Target) (value : Value) (taken : target.denote)
    (next : target.denote → Routine) (world after : World) (answer : Except Fault Value)
    (events : List Event) (takes : world.env.expect target value = .ok taken)
    (more : Answers inner evaluator (next taken) options world answer events after) :
    Answers inner evaluator (.expect target value next) options world answer events after := by
  constructor
  · simp only [Routine.expect, perform, Run.ask, Bind.bind, EStateM.bind, takes]
    exact more.ends
  · simp only [Routine.expect, Journal.perform, Journal.events_behind, behindRun, Run.ask, takes]
    exact more.happens

theorem Answers.expect_fault (target : Target) (value : Value) (next : target.denote → Routine)
    (world : World) (fault : Fault) (refuses : world.env.expect target value = .error fault) :
    Answers inner evaluator (.expect target value next) options world (.error fault) [] world := by
  constructor
  · simp only [Routine.expect, perform, Run.ask, Bind.bind, EStateM.bind, refuses]
    rfl
  · simp only [Routine.expect, Journal.perform, Journal.events_behind, behindRun, Run.ask, refuses]
    rfl

/-! Loops. -/

-- By induction on the items that lie behind.
/-- `map` has the results of the items so far, and goes on with the others. -/
theorem Answers.mapItems {world middle after : World} {before results : List Value}
    {events later : List Event} {answer : Except Fault Value}
    (turn : InTurn inner evaluator body world before results events middle)
    (behind made : List Value)
    (more : Answers inner evaluator (Prelude.mapItems body behind (results.reverse ++ made)) options
      middle answer later after) :
    Answers inner evaluator (Prelude.mapItems body (before ++ behind) made) options world answer
      (events ++ later) after := by
  induction turn generalizing made with
  | nil world => exact more
  | cons item result items results events world middle after one _ ih =>
      rw [List.append_assoc]
      apply Answers.runOn item result _ world middle _ answer _ one
      apply ih
      simpa using more

def chosen (items : List Value) (verdicts : List Bool) : List Value :=
  ((items.zip verdicts).filter (·.2)).map (·.1)

/-- `filter` has kept the items so far that were chosen, and goes on with the others. -/
theorem Answers.filterItems {world middle after : World} {before results : List Value}
    {events later : List Event} {answer : Except Fault Value}
    (turn : InTurn inner evaluator body world before results events middle)
    (verdicts : List Bool) (decided : results = verdicts.map .bool) (behind kept : List Value)
    (more : Answers inner evaluator
      (Prelude.filterItems body behind ((chosen before verdicts).reverse ++ kept)) options middle
      answer later after) :
    Answers inner evaluator (Prelude.filterItems body (before ++ behind) kept) options world answer
      (events ++ later) after := by
  induction turn generalizing verdicts kept with
  | nil world => exact more
  | cons item result items results events world middle after one _ ih =>
      obtain ⟨verdict, rest, rfl, rfl, same⟩ := List.map_eq_cons_iff.mp decided.symm
      rw [List.append_assoc]
      apply Answers.runOn item _ _ world middle _ answer _ one
      apply Answers.expect .bool _ verdict _ _ _ _ _ rfl
      apply ih rest same.symm
      cases verdict <;> simpa [chosen] using more

theorem InTurn.length {world after : World} {items results : List Value} {events : List Event}
    (turn : InTurn inner evaluator body world items results events after) :
    results.length = items.length := by
  induction turn with
  | nil world => rfl
  | cons item result items results events world middle after one _ ih =>
      rw [List.length_cons, List.length_cons, ih]

end

/-! Every loop ends. -/

section

variable (inner : OnwardLog Event) (evaluator : Evaluator) (body : Deferred)

/-- Evaluating a body for the items in front of one of these, as far as to that item. -/
def Reaches (world : World) (items : List Value) (item : Value) (results : List Value)
    (events : List Event) (middle : World) : Prop :=
  ∃ before behind, items = before ++ item :: behind ∧
    InTurn inner evaluator body world before results events middle

theorem evaluateDeferred_grown (world : World) (prelude : PreludeMethods world.env) :
    Grown False world (evaluator.evaluateDeferred body world) := by
  by_cases deep : evaluator.maxDepth ≤ evaluator.depth
  · rw [evaluator.evaluateDeferred_deep deep]
    exact Grown.raise _
  · rw [evaluator.evaluateDeferred_eq (Nat.not_le.mp deep)]
    exact (evaluate_grown (evaluator.inside body) body.body world prelude).mono False.elim

theorem inTurn_or_fault (items : List Value) (world : World) (prelude : PreludeMethods world.env) :
    (∃ results events after, InTurn inner evaluator body world items results events after) ∨
    ∃ item results events middle fault after,
      Reaches inner evaluator body world items item results events middle ∧
      evaluator.onItem body item middle = .error (.fault fault) after := by
  induction items generalizing world with
  | nil => exact .inl ⟨[], [], world, .nil world⟩
  | cons item rest ih =>
      have grown := evaluateDeferred_grown (evaluator.extend [(Prelude.itemName, item)]) body world
        prelude
      rw [← Evaluator.onItem] at grown
      cases one : evaluator.onItem body item world with
      | error halt after =>
          rw [one] at grown
          cases grown with
          | fault fault after grows =>
              exact .inr ⟨item, [], [], world, fault, after, ⟨[], rest, rfl, .nil world⟩, one⟩
      | ok result middle =>
          rw [one] at grown
          cases grown with
          | ok result middle grows =>
              rcases ih middle (grows.env.prelude prelude) with
                ⟨results, events, after, turn⟩ |
                ⟨other, results, events, last, fault, after, ⟨before, behind, split, turn⟩, fails⟩
              · exact .inl ⟨_, _, after, .cons _ _ _ _ _ world middle after one turn⟩
              · refine .inr ⟨other, _, _, last, fault, after, ⟨item :: before, behind, ?_,
                  .cons _ _ _ _ _ world middle last one turn⟩, fails⟩
                rw [split]
                rfl

variable {inner evaluator body}

theorem onItem_extends {item result : Value} {world after : World}
    (one : evaluator.onItem body item world = .ok result after)
    (prelude : PreludeMethods world.env) : after.env.Extends world.env := by
  have grown := evaluateDeferred_grown (evaluator.extend [(Prelude.itemName, item)]) body world
    prelude
  have extends' := grown.worldAfter.env
  rwa [← Evaluator.onItem, one, worldAfter] at extends'

theorem InTurn.extends {world after : World} {items results : List Value} {events : List Event}
    (turn : InTurn inner evaluator body world items results events after)
    (prelude : PreludeMethods world.env) : after.env.Extends world.env := by
  induction turn with
  | nil world => exact .refl _
  | cons item result items results events world middle after one _ ih =>
      have first := onItem_extends one prelude
      exact (ih (first.prelude prelude)).trans first

end

/-! Calls of the two methods. -/

def Deferred.value (deferred : Deferred) : Value := .deferred deferred.body deferred.captured

section

variable {inner : OnwardLog Event} {evaluator : Evaluator} {body : Deferred} {options : Options}
  {world after middle : World} {items : Value} {events : List Event}

variable (prelude : PreludeOnly world.env)

include prelude

theorem Answers.onParts (loop : Deferred → List Value → Routine) {answer : Except Fault Value}
    (answers : Answers inner evaluator (loop body (Prelude.parts items)) options world answer events
      after) :
    Answers inner evaluator
      (.expect (.list .value) items fun items =>
        .expect .deferred body.value fun body => loop body items)
      options world answer events after := by
  apply Answers.expect (.list .value) items _ _ _ _ _ _ (prelude.expect_parts items)
  exact Answers.expect .deferred body.value body _ _ _ _ _ rfl answers

theorem map_all {results : List Value}
    (turn : InTurn inner evaluator body world (Prelude.parts items) results events after) :
    Answers inner evaluator (Prelude.mapBody [items, body.value] []) options world
      (.ok (.list results)) events after := by
  apply Answers.onParts prelude fun body items => Prelude.mapItems body items []
  have done : Answers inner evaluator (Prelude.mapItems body [] (results.reverse ++ [])) options
      after (.ok (.list results)) [] after := by
    rw [List.append_nil, Prelude.mapItems, List.reverse_reverse]
    exact ⟨rfl, rfl⟩
  have whole := Answers.mapItems turn [] [] done
  rwa [List.append_nil, List.append_nil] at whole

theorem map_fault {item : Value} {results : List Value} {fault : Fault}
    (reached : Reaches inner evaluator body world (Prelude.parts items) item results events middle)
    (fails : evaluator.onItem body item middle = .error (.fault fault) after) :
    Answers inner evaluator (Prelude.mapBody [items, body.value] []) options world (.error fault)
      (events ++ evaluator.itemEvents inner body item middle) after := by
  obtain ⟨before, behind, split, turn⟩ := reached
  apply Answers.onParts prelude fun body items => Prelude.mapItems body items []
  rw [split]
  apply Answers.mapItems turn
  exact Answers.runOn_fault item _ middle after fault fails

theorem filter_all {verdicts : List Bool}
    (turn : InTurn inner evaluator body world (Prelude.parts items) (verdicts.map .bool) events
      after) :
    Answers inner evaluator (Prelude.filterBody [items, body.value] []) options world
      (.ok (.list (chosen (Prelude.parts items) verdicts))) events after := by
  apply Answers.onParts prelude fun body items => Prelude.filterItems body items []
  have done : Answers inner evaluator (Prelude.filterItems body []
      ((chosen (Prelude.parts items) verdicts).reverse ++ [])) options after
        (.ok (.list (chosen (Prelude.parts items) verdicts))) [] after := by
    rw [List.append_nil, Prelude.filterItems, List.reverse_reverse]
    exact ⟨rfl, rfl⟩
  have whole := Answers.filterItems turn verdicts rfl [] [] done
  rwa [List.append_nil, List.append_nil] at whole

section

variable {item : Value} {verdicts : List Bool}
  (reached : Reaches inner evaluator body world (Prelude.parts items) item (verdicts.map .bool)
    events middle)

include reached

theorem filter_fault {fault : Fault}
    (fails : evaluator.onItem body item middle = .error (.fault fault) after) :
    Answers inner evaluator (Prelude.filterBody [items, body.value] []) options world
      (.error fault) (events ++ evaluator.itemEvents inner body item middle) after := by
  obtain ⟨before, behind, split, turn⟩ := reached
  apply Answers.onParts prelude fun body items => Prelude.filterItems body items []
  rw [split]
  apply Answers.filterItems turn verdicts rfl
  exact Answers.runOn_fault item _ middle after fault fails

theorem filter_undecided {result : Value}
    (one : evaluator.onItem body item middle = .ok result after)
    (undecided : ∀ b, result ≠ .bool b) :
    Answers inner evaluator (Prelude.filterBody [items, body.value] []) options world
      (.error (.complaint (.conversion .bool result.typeName)))
      (events ++ evaluator.itemEvents inner body item middle) after := by
  obtain ⟨before, behind, split, turn⟩ := reached
  have until' := turn.extends prelude.methods
  have last := onItem_extends one (until'.prelude prelude.methods)
  have known := (last.trans until').preludeOnly prelude
  apply Answers.onParts prelude fun body items => Prelude.filterItems body items []
  rw [split]
  apply Answers.filterItems turn verdicts rfl
  rw [← List.append_nil (evaluator.itemEvents inner body item middle)]
  apply Answers.runOn item result _ middle after after _ [] one
  exact Answers.expect_fault .bool result _ after _ (known.expect_bool_refused result undecided)

end

end

/-- `map` and `filter` agree. `map` evaluates its body once for each item, from the first to the
last, in the world that the one before has left. It has all results, or it stops at the first fault
and fails with just that. `filter` keeps the items for which `map` has the result true, and leaves
the same world. If the body fails for an item, and has given truth values so far, `filter` fails in
the same way. If the body gives no truth value for an item, it fails there, without a look at the
items behind it. -/
theorem map_filter_agree (inner : OnwardLog Event) (evaluator : Evaluator) (items : Value)
    (body : Deferred) (options : Options) (world : World) (prelude : PreludeOnly world.env) :
    ((∃ results events after,
        InTurn inner evaluator body world (Prelude.parts items) results events after) ∨
      ∃ item results events middle fault after,
        Reaches inner evaluator body world (Prelude.parts items) item results events middle ∧
        evaluator.onItem body item middle = .error (.fault fault) after) ∧
    (∀ results events after,
      InTurn inner evaluator body world (Prelude.parts items) results events after →
      results.length = (Prelude.parts items).length ∧
      Answers inner evaluator (Prelude.mapBody [items, body.value] []) options world
        (.ok (.list results)) events after) ∧
    (∀ item results events middle fault after,
      Reaches inner evaluator body world (Prelude.parts items) item results events middle →
      evaluator.onItem body item middle = .error (.fault fault) after →
      Answers inner evaluator (Prelude.mapBody [items, body.value] []) options world
        (.error fault) (events ++ evaluator.itemEvents inner body item middle) after) ∧
    (∀ (verdicts : List Bool) events after,
      Answers inner evaluator (Prelude.mapBody [items, body.value] []) options world
        (.ok (.list (verdicts.map .bool))) events after →
      Answers inner evaluator (Prelude.filterBody [items, body.value] []) options world
        (.ok (.list (chosen (Prelude.parts items) verdicts))) events after) ∧
    (∀ (item : Value) (verdicts : List Bool) events middle fault after,
      Reaches inner evaluator body world (Prelude.parts items) item (verdicts.map .bool) events
        middle →
      evaluator.onItem body item middle = .error (.fault fault) after →
      Answers inner evaluator (Prelude.filterBody [items, body.value] []) options world
        (.error fault) (events ++ evaluator.itemEvents inner body item middle) after) ∧
    (∀ (item : Value) (verdicts : List Bool) events middle result after,
      Reaches inner evaluator body world (Prelude.parts items) item (verdicts.map .bool) events
        middle →
      evaluator.onItem body item middle = .ok result after → (∀ b, result ≠ .bool b) →
      Answers inner evaluator (Prelude.filterBody [items, body.value] []) options world
        (.error (.complaint (.conversion .bool result.typeName)))
        (events ++ evaluator.itemEvents inner body item middle) after) := by
  have course := inTurn_or_fault inner evaluator body (Prelude.parts items) world prelude.methods
  refine ⟨course, ?_, ?_, ?_, ?_, ?_⟩
  · intro results events after turn
    exact ⟨turn.length, map_all prelude turn⟩
  · intro item results events middle fault after reached fails
    exact map_fault prelude reached fails
  · intro verdicts events after mapped
    rcases course with ⟨results, events', after', turn⟩ |
      ⟨item, results, events', middle, fault, after', reached, fails⟩
    · have whole : Answers inner evaluator (Prelude.mapBody [items, body.value] []) options world
          (.ok (.list results)) events' after' := map_all prelude turn
      have ends := mapped.ends.symm.trans whole.ends
      cases ends
      rw [mapped.happens.symm.trans whole.happens]
      exact filter_all prelude turn
    · have stopped : Answers inner evaluator (Prelude.mapBody [items, body.value] []) options world
          (.error fault) _ after' := map_fault prelude reached fails
      have ends := mapped.ends.symm.trans stopped.ends
      cases ends
  · intro item verdicts events middle fault after reached fails
    exact filter_fault prelude reached fails
  · intro item verdicts events middle result after reached one undecided
    exact filter_undecided prelude reached one undecided

theorem map_filter_agree_mixed :
    let inner : OnwardLog Event := ⟨Evaluator.events, Evaluator.events⟩
    let world : World := { env := Prelude.environment }
    let body : Deferred := ⟨.identifier "$it" ⟨11, 1⟩, []⟩
    ∃ events,
      Answers inner {} (Prelude.mapBody [.list [.bool true, .int 1], body.value] []) ⟨[], []⟩ world
        (.ok (.list [.bool true, .int 1])) events world ∧
      Answers inner {} (Prelude.filterBody [.list [.bool true, .int 1], body.value] []) ⟨[], []⟩
        world (.error (.complaint (.conversion .bool "int"))) events world := by
  intro inner world body
  have one (item : Value) : Evaluator.onItem {} body item world = .ok item world := rfl
  have first : InTurn inner {} body world [.bool true] [.bool true] _ world :=
    .cons _ _ _ _ _ world world world (one (.bool true)) (.nil world)
  have turn : InTurn inner {} body world [.bool true, .int 1] [.bool true, .int 1] _ world :=
    .cons _ _ _ _ _ world world world (one (.bool true))
      (.cons _ _ _ _ _ world world world (one (.int 1)) (.nil world))
  obtain ⟨_, mapped, _, _, _, filtered⟩ := map_filter_agree inner {}
    (.list [.bool true, .int 1]) body ⟨[], []⟩ world preludeOnly_environment
  have refused := filtered (.int 1) [true] _ world (.int 1) world ⟨[.bool true], [], rfl, first⟩
    (one (.int 1)) (fun b same => by cases same)
  refine ⟨_, (mapped _ _ _ turn).2, ?_⟩
  simpa only [List.append_nil, Value.typeName] using refused

end ChainScript
