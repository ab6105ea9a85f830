import ChainScript.Proofs.Forcing

/-!
What an extended evaluator hands on. A deferred value that is evaluated for it sees the bindings of
the extension over what it has captured, and that is all it sees of its caller. But a script that is
itself evaluated on such an evaluator is a caller whose bindings are handed on, to any deferred
value that it forces. So for a script they matter also under names that only deferred values
mention.
-/

namespace ChainScript

namespace Evaluator

theorem evaluateDeferred_extended (evaluator : Evaluator) (deferred : Deferred) (world : World)
    (given other : Bindings) (prelude : PreludeOnly world.env)
    (same : ∀ name ∈ deferred.body.names,
      (evaluator.extend given).transient? name = (evaluator.extend other).transient? name) :
    ∃ outcome,
      outcome? ((evaluator.extend given).evaluateDeferred deferred world) = some outcome ∧
      outcome? ((evaluator.extend other).evaluateDeferred deferred world) = some outcome := by
  by_cases deep : evaluator.maxDepth ≤ evaluator.depth
  · have refused (bindings : Bindings) := (evaluator.extend bindings).evaluateDeferred_deep deep
    rw [refused given, refused other]
    exact ⟨_, rfl, rfl⟩
  · have goes (bindings : Bindings) :=
      (evaluator.extend bindings).evaluateDeferred_eq (Nat.not_le.mp deep)
    rw [goes given, goes other]
    apply evaluate_exact ((evaluator.extend given).inside deferred)
      ((evaluator.extend other).inside deferred) deferred.body world prelude rfl rfl rfl rfl
    intro name member
    have found := same name member
    simp only [transient?, extend] at found
    simp only [transient?, inside, extend, if_true, List.lookup_append, found]

theorem evaluate_run_word (evaluator : Evaluator) (world : World) (name : String)
    (body : Expr) (captured : Bindings) (p q : Position)
    (room : evaluator.depth < evaluator.maxDepth)
    (called : evaluator.called? world.env "run" = some ⟨"run", 1, false, Prelude.runBody⟩)
    (seen : evaluator.seen? world.env name = some (.deferred body captured)) :
    evaluator.evaluate (.chain [.identifier "run" p, .identifier name q]) world =
      (evaluator.inside ⟨body, captured⟩).evaluate body world := by
  have walked : walkTerms evaluator.onward evaluator (.start p) [.identifier name q] world =
      .ok ⟨[.deferred body captured], [], p⟩ world :=
    resolve_seen _ _ _ _ _ _ _ seen
  have forced : runDeferred evaluator.onward evaluator ⟨body, captured⟩ =
      (evaluator.inside ⟨body, captured⟩).evaluate body := by
    rw [evaluator.runDeferred_onward evaluator rfl rfl, evaluator.evaluateDeferred_eq room]
  have answers := congrFun (perform_force evaluator.onward evaluator body captured) world
  rw [evaluator.evaluate_call "run" p _ _ _ _ world walked called rfl answers, forced]
  apply attempt_passOn
  rw [evaluate_eq_evaluateTerm]
  exact evaluateTerm_attributed _ _ body world

end Evaluator

/-- What is handed on matters where it is named. A deferred value has the same outcome under two
extensions that agree on the names in its body. A script on an extended evaluator that runs a word
for a deferred value evaluates the body with the bindings over what the value has captured. So a
script has the same outcome under two extensions if they agree on its names and on those of all
deferred values that it can come by: from itself, from variables, and from the bindings. -/
theorem evaluate_handed_on (evaluator : Evaluator) (world : World) (given other : Bindings)
    (prelude : PreludeOnly world.env) :
    (∀ deferred : Deferred,
      (∀ name ∈ deferred.body.names,
        (evaluator.extend given).transient? name = (evaluator.extend other).transient? name) →
      ∃ outcome,
        outcome? ((evaluator.extend given).evaluateDeferred deferred world) = some outcome ∧
        outcome? ((evaluator.extend other).evaluateDeferred deferred world) = some outcome) ∧
    (∀ (name : String) (body : Expr) (captured : Bindings) (p q : Position),
      evaluator.depth < evaluator.maxDepth →
      (evaluator.extend given).called? world.env "run" =
        some ⟨"run", 1, false, Prelude.runBody⟩ →
      (evaluator.extend given).seen? world.env name = some (.deferred body captured) →
      (evaluator.extend given).evaluate (.chain [.identifier "run" p, .identifier name q]) world =
        Evaluator.evaluate { evaluator with
          scope := given.reverse ++ captured
          extended := false
          depth := evaluator.depth + 1 } body world) ∧
    ∀ (e : Expr) (named : String → Prop), e.Within named →
      (∀ frame ∈ world.env.frames, Value.BoundWithin named frame.bindings) →
      (∀ name, named name →
        (evaluator.extend given).transient? name = (evaluator.extend other).transient? name ∧
        ∀ value, (evaluator.extend given).transient? name = some value → value.Within named) →
      ∃ outcome, outcome? ((evaluator.extend given).evaluate e world) = some outcome ∧
        outcome? ((evaluator.extend other).evaluate e world) = some outcome := by
  refine ⟨?_, ?_, ?_⟩
  · intro deferred same
    exact evaluator.evaluateDeferred_extended deferred world given other prelude same
  · intro name body captured p q room called seen
    exact (evaluator.extend given).evaluate_run_word world name body captured p q room called seen
  · intro e named within stored same
    have self : e.Alike (.exact named) e := e.alike_self (fun _ => rfl) within
    apply evaluate_agreeing named (evaluator.extend given) (evaluator.extend other) e world
      prelude within stored rfl rfl rfl
    rintro name (member | ⟨_, known⟩)
    · exact same name (e.named_of_alike e self name member)
    · exact same name known

def withPeek (name : String) (place : Position) : World where
  env := { Prelude.environment with top := { Prelude.environment.top with
    bindings := ("peek", .deferred (.identifier name place) []) ::
      Prelude.environment.top.bindings } }

theorem preludeOnly_withPeek (name : String) (place : Position) :
    PreludeOnly (withPeek name place).env :=
  preludeOnly_environment.top _ _ (fun _ old => .inl old) fun _ old => .inl old

def runPeek : Expr := .chain [.identifier "run" ⟨0, 1⟩, .identifier "peek" ⟨4, 1⟩]

theorem evaluate_handed_on_peek :
    (∃ outcome,
      outcome? ((Evaluator.extend {} [("x", .int 1), ("y", .int 2)]).evaluateDeferred
        ⟨.identifier "x" ⟨11, 1⟩, []⟩ (withPeek "x" ⟨11, 1⟩)) = some outcome ∧
      outcome? ((Evaluator.extend {} [("x", .int 1)]).evaluateDeferred
        ⟨.identifier "x" ⟨11, 1⟩, []⟩ (withPeek "x" ⟨11, 1⟩)) = some outcome) ∧
    (Evaluator.extend {} [("x", .int 1)]).evaluate runPeek (withPeek "x" ⟨11, 1⟩) =
      Evaluator.evaluate { scope := [("x", .int 1)], depth := 1 } (.identifier "x" ⟨11, 1⟩)
        (withPeek "x" ⟨11, 1⟩) ∧
    (∃ outcome,
      outcome? ((Evaluator.extend {} [("x", .int 1), ("y", .int 2)]).evaluate runPeek
        (withPeek "x" ⟨11, 1⟩)) = some outcome ∧
      outcome? ((Evaluator.extend {} [("x", .int 1)]).evaluate runPeek
        (withPeek "x" ⟨11, 1⟩)) = some outcome) := by
  obtain ⟨deferred, _, scripts⟩ := evaluate_handed_on {} (withPeek "x" ⟨11, 1⟩)
    [("x", .int 1), ("y", .int 2)] [("x", .int 1)] (preludeOnly_withPeek "x" ⟨11, 1⟩)
  obtain ⟨_, runs, _⟩ := evaluate_handed_on {} (withPeek "x" ⟨11, 1⟩) [("x", .int 1)] []
    (preludeOnly_withPeek "x" ⟨11, 1⟩)
  refine ⟨?_, ?_, ?_⟩
  · apply deferred
    intro name member
    rw [List.mem_singleton.mp member]
    rfl
  · exact runs "peek" (.identifier "x" ⟨11, 1⟩) [] _ _ (by decide) rfl rfl
  · apply scripts runPeek (· ∈ ["run", "peek", "x"])
    · exact ⟨by simp [Expr.Within], by simp [Expr.Within], trivial⟩
    · intro frame member
      obtain rfl : frame = (withPeek "x" ⟨11, 1⟩).env.top := List.mem_singleton.mp member
      exact ⟨⟨by simp [Expr.Within], trivial⟩, trivial, trivial, trivial, trivial⟩
    · intro name known
      have words : name = "run" ∨ name = "peek" ∨ name = "x" := by simpa using known
      rcases words with rfl | rfl | rfl
      · exact ⟨rfl, fun value found => nomatch found⟩
      · exact ⟨rfl, fun value found => nomatch found⟩
      · refine ⟨rfl, ?_⟩
        intro value found
        cases found
        trivial

/-- Names of the script alone are not enough. Two extensions can agree on them, and yet a deferred
value from a variable sees the one and not the other. -/
theorem evaluate_not_only_named :
    PreludeOnly (withPeek "$x" ⟨11, 1⟩).env ∧
    (∀ name ∈ runPeek.names, (Evaluator.extend {} [("$x", .int 1)]).transient? name =
      (Evaluator.extend {} []).transient? name) ∧
    ¬ ∃ outcome,
      outcome? ((Evaluator.extend {} [("$x", .int 1)]).evaluate runPeek (withPeek "$x" ⟨11, 1⟩)) =
        some outcome ∧
      outcome? ((Evaluator.extend {} []).evaluate runPeek (withPeek "$x" ⟨11, 1⟩)) =
        some outcome := by
  have ran (given : Bindings) := Evaluator.evaluate_run_word (Evaluator.extend {} given)
    (withPeek "$x" ⟨11, 1⟩) "peek" (.identifier "$x" ⟨11, 1⟩) [] ⟨0, 1⟩ ⟨4, 1⟩
  -- The script does not name `$x`, but what it runs does, and is handed the binding.
  have handed : (Evaluator.extend {} [("$x", .int 1)]).evaluate runPeek (withPeek "$x" ⟨11, 1⟩) =
      .ok (.int 1) (withPeek "$x" ⟨11, 1⟩) := (ran _ (by decide) rfl rfl).trans rfl
  have missing : (Evaluator.extend {} []).evaluate runPeek (withPeek "$x" ⟨11, 1⟩) =
      .error (.fault (.unresolved "$x" ⟨11, 1⟩)) (withPeek "$x" ⟨11, 1⟩) :=
    (ran _ (by decide) rfl rfl).trans rfl
  refine ⟨preludeOnly_withPeek "$x" ⟨11, 1⟩, ?_, ?_⟩
  · intro name member
    have words : name = "run" ∨ name = "peek" := by
      simpa [runPeek, Expr.names, Expr.namesAll] using member
    rcases words with rfl | rfl <;> rfl
  · rintro ⟨outcome, left, right⟩
    rw [handed] at left
    rw [missing] at right
    cases left
    cases right

end ChainScript
