import ChainScript.Proofs.Loops

/-!
Closures made in a loop. A body that is quoted once more is not evaluated by the loop, but becomes a
deferred value for each item. Such a value remembers its own item. When it is forced later, it sees
that item and the transients of the place where the loop stands, whoever forces it.
-/

namespace ChainScript

inductive Gives (evaluator : Evaluator) (world : World) : Expr → Value → Prop where
  | stub (value : Value) : Gives evaluator world (.stub value) value
  | word (name : String) (place : Position) (value : Value)
      (seen : evaluator.seen? world.env name = some value) :
      Gives evaluator world (.identifier name place) value
  | quoted (body : Expr) : Gives evaluator world (.deferred body) (.deferred body evaluator.scope)
  | group (body : Expr) (value : Value)
      (evaluates : evaluator.evaluate body world = .ok value world) :
      Gives evaluator world (.block body) value

def Evaluator.closure (evaluator : Evaluator) (b : Expr) (item : Value) : Value :=
  .deferred b ((Prelude.itemName, item) :: evaluator.scope)

section

variable {evaluator : Evaluator} {world : World}

theorem Gives.walkTerm_eq {term : Expr} {value : Value} (gives : Gives evaluator world term value)
    (walk : Walk) :
    walkTerm evaluator.onward evaluator term walk world = .ok (walk.add value) world := by
  cases gives with
  | stub value => rfl
  | quoted body => rfl
  | word name place value seen => exact resolve_seen _ _ _ _ _ _ value seen
  | group body value evaluates =>
      rw [Evaluator.evaluate_eq_evaluateTerm] at evaluates
      simp only [walkTerm, evaluateTerm, Bind.bind, EStateM.bind, evaluates]
      rfl

theorem onItem_quoted (room : evaluator.depth < evaluator.maxDepth) (b : Expr) (item : Value) :
    evaluator.onItem ⟨.deferred b, evaluator.scope⟩ item world =
      .ok (evaluator.closure b item) world := by
  have deferred := (evaluator.extend [(Prelude.itemName, item)]).evaluateDeferred_eq room
    ⟨.deferred b, evaluator.scope⟩
  rw [Evaluator.onItem, deferred, Evaluator.evaluate_eq_evaluateTerm]
  rfl

theorem inTurn_quoted (inner : OnwardLog Event) (room : evaluator.depth < evaluator.maxDepth)
    (b : Expr) (xs : List Value) :
    ∃ events, InTurn inner evaluator ⟨.deferred b, evaluator.scope⟩ world xs
      (xs.map (evaluator.closure b)) events world := by
  induction xs with
  | nil => exact ⟨[], .nil world⟩
  | cons item rest ih =>
      obtain ⟨events, turn⟩ := ih
      exact ⟨_, .cons item _ rest _ events world world world (onItem_quoted room b item) turn⟩

theorem outcome_of_grown {result : EStateM.Result Halt World Value} {quiet : Prop}
    (grown : Grown quiet world result) : ∃ outcome, outcome? result = some outcome := by
  cases grown with
  | ok value after grows => exact ⟨_, rfl⟩
  | fault cause after grows => exact ⟨_, rfl⟩

theorem evaluate_map {inner : OnwardLog Event} {items body : Expr} {value quoted : Value}
    {answer : Except Fault Value} {events : List Event} {after : World} (place : Position)
    (prelude : PreludeOnly world.env) (unshadowed : (evaluator.called? world.env "map").isSome)
    (gives : Gives evaluator world items value) (quotes : Gives evaluator world body quoted)
    (answers : Answers inner evaluator (Prelude.mapBody [value, quoted] []) ⟨[], []⟩ world answer
      events after) :
    evaluator.evaluate (.chain [.identifier "map" place, items, body]) world =
      passOn "map" place answer after := by
  have known : (⟨"map", 2, false, Prelude.mapBody⟩ : Method) ∈ Prelude.methods := by
    simp [Prelude.methods, Prelude.listMethods]
  have called := evaluator.called?_known world prelude _ known unshadowed
  have walked : walkTerms evaluator.onward evaluator (.start place) [items, body] world =
      .ok ⟨[value, quoted], [], place⟩ world := by
    have behind : walkTerms evaluator.onward evaluator (.start place) [body] world =
        .ok ⟨[quoted], [], place⟩ world := by
      rw [walkTerms_cons]
      exact quotes.walkTerm_eq (.start place)
    rw [walkTerms_cons]
    simp only [Bind.bind, EStateM.bind, behind]
    exact gives.walkTerm_eq ⟨[quoted], [], place⟩
  -- What the routine did is known for this world only, so the run that it amounts to is constant.
  let run : Run Value := fun _ => Run.ofExcept answer after
  have constant : perform evaluator.onward evaluator (Prelude.mapBody [value, quoted] []) ⟨[], []⟩
      world = (run.attempt >>= fun result => pure (result, ⟨[], []⟩)) world := by
    rw [answers.ends]
    cases answer <;> rfl
  rw [evaluator.evaluate_call "map" place _ _ _ run world walked called rfl constant]
  cases answer <;> rfl

theorem force_closure (forcer site : Evaluator) (plain : forcer.extended = false)
    (depth : site.depth = forcer.depth) (limit : site.maxDepth = forcer.maxDepth) (b : Expr)
    (item : Value) :
    forcer.force (evaluator.closure b item) = site.onItem ⟨b, evaluator.scope⟩ item := by
  have forced : forcer.force (evaluator.closure b item) =
      forcer.evaluateDeferred ⟨b, (Prelude.itemName, item) :: evaluator.scope⟩ := rfl
  have inside : (site.extend [(Prelude.itemName, item)]).inside ⟨b, evaluator.scope⟩ =
      forcer.inside ⟨b, (Prelude.itemName, item) :: evaluator.scope⟩ := by
    simp [Evaluator.inside, Evaluator.extend, plain, depth, limit]
  rw [forced, Evaluator.onItem, Evaluator.evaluateDeferred, Evaluator.evaluateDeferred, runDeferred,
    runDeferred, inside]
  simp only [Evaluator.extend, depth, limit]

end

/-- Closures made in a loop remember their own item. Over the prelude, `map` of a list and a body
that is quoted twice changes nothing, and has a deferred value for each item. To force that later,
in any world and at any depth, is to evaluate the body, as it is captured at the place of the loop,
on an evaluator of that depth that is extended by the item. Under the name of the item the body sees
its own item, and under all other names what is seen at the place of the loop. -/
theorem map_remembers (evaluator : Evaluator) (world : World) (items b : Expr) (xs : List Value)
    (place : Position) (prelude : PreludeOnly world.env)
    (unshadowed : (evaluator.called? world.env "map").isSome)
    (room : evaluator.depth < evaluator.maxDepth)
    (gives : Gives evaluator world items (.list xs)) :
    ∃ closures : List Value,
      evaluator.evaluate (.chain [.identifier "map" place, items, .deferred (.deferred b)]) world =
        .ok (.list closures) world ∧
      closures.length = xs.length ∧
      ∀ (i : Nat) (x : Value), xs[i]? = some x → ∃ captured,
        closures[i]? = some (.deferred b captured) ∧
        ∀ forcer : Evaluator, forcer.extended = false →
          (∀ (site : Evaluator) (later : World), site.depth = forcer.depth →
            site.maxDepth = forcer.maxDepth → PreludeOnly later.env →
            forcer.force (.deferred b captured) later =
              (site.extend [("$it", x)]).evaluateDeferred ⟨b, evaluator.scope⟩ later ∧
            ∃ outcome, outcome? (forcer.force (.deferred b captured) later) = some outcome) ∧
          (forcer.inside ⟨b, captured⟩).transient? "$it" = some x ∧
          ∀ name ≠ "$it",
            (forcer.inside ⟨b, captured⟩).transient? name = evaluator.transient? name := by
  let inner : OnwardLog Event := ⟨Evaluator.events, Evaluator.events⟩
  obtain ⟨events, turn⟩ := inTurn_quoted inner room b xs
  let body : Deferred := ⟨.deferred b, evaluator.scope⟩
  have mapped : Answers inner evaluator (Prelude.mapBody [.list xs, body.value] []) ⟨[], []⟩ world
      (.ok (.list (xs.map (evaluator.closure b)))) events world :=
    map_all prelude turn
  refine ⟨xs.map (evaluator.closure b), ?_, ?_, ?_⟩
  · exact evaluate_map place prelude unshadowed gives (.quoted (.deferred b)) mapped
  · exact List.length_map _
  · intro i x found
    refine ⟨(Prelude.itemName, x) :: evaluator.scope, ?_, ?_⟩
    · rw [List.getElem?_map, found]
      rfl
    · intro forcer plain
      refine ⟨?_, ?_, ?_⟩
      · intro site later depth limit known
        have ended := evaluateDeferred_grown forcer
          ⟨b, (Prelude.itemName, x) :: evaluator.scope⟩ later known.methods
        exact ⟨congrFun (force_closure forcer site plain depth limit b x) later,
          outcome_of_grown ended⟩
      · simp [Evaluator.transient?, Evaluator.inside, plain, Prelude.itemName]
      · intro name other
        simp [Evaluator.transient?, Evaluator.inside, plain, Prelude.itemName, List.lookup_cons,
          beq_eq_false_iff_ne.mpr other]

theorem map_remembers_second :
    ∃ closures : List Value,
      Evaluator.evaluate { scope := [("$it", .text "outer")] } (.chain [.identifier "map" ⟨0, 1⟩,
        .stub (.list [.int 1, .int 2]), .deferred (.deferred (.identifier "$it" ⟨8, 1⟩))])
        { env := Prelude.environment } = .ok (.list closures) { env := Prelude.environment } ∧
      ∃ closure, closures[1]? = some closure ∧
        Evaluator.force { scope := [("$it", .text "later")], depth := 3 } closure
          { env := Prelude.environment } = .ok (.int 2) { env := Prelude.environment } := by
  obtain ⟨closures, mapped, _, remembers⟩ := map_remembers { scope := [("$it", .text "outer")] }
    { env := Prelude.environment } (.stub (.list [.int 1, .int 2])) (.identifier "$it" ⟨8, 1⟩)
    [.int 1, .int 2] ⟨0, 1⟩ preludeOnly_environment rfl (by decide) (.stub _)
  obtain ⟨captured, second, forced⟩ := remembers 1 (.int 2) rfl
  refine ⟨closures, mapped, _, second, ?_⟩
  obtain ⟨same, _⟩ := (forced { scope := [("$it", .text "later")], depth := 3 } rfl).1
    { depth := 3 } { env := Prelude.environment } rfl rfl preludeOnly_environment
  rw [same]
  rfl

end ChainScript
