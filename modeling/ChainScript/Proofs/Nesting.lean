import ChainScript.Proofs.Limits
import ChainScript.Proofs.Orderly

/-!
How deep evaluation nests. Over the methods of the prelude every evaluation ends, with no more
bodies of deferred values inside each other than its evaluator has levels left. That many can be
reached.
-/

namespace ChainScript

/-! Levels. -/

/-- An evaluation that may nest as many levels as its evaluator has left ends as it does with any
more of them, and does not depend on how methods would call back. -/
theorem evaluateWithin_enough (again : Evaluator → Expr → Run Value) (levels : Nat)
    (evaluator : Evaluator) (e : Expr) (world : World) (prelude : PreludeMethods world.env)
    (room : evaluator.maxDepth - evaluator.depth ≤ levels) :
    evaluateWithin again levels evaluator e world = evaluator.evaluate e world := by
  have ends := evaluateWithin_unless (evaluateUpTo (callbackLimit - 1)) again e prelude rfl
    (Nat.le_refl evaluator.maxDepth) room
  rcases ends with ⟨_, _, _, lower, _⟩ | same
  · exact absurd lower (Nat.lt_irrefl _)
  · exact same.symm

/-! A nest of bodies. -/

def Expr.literal? : Expr → Option Value
  | .text s => some (.text s)
  | .number (.int n) => some (.int n)
  | .number (.decimal x) => some (.float x)
  | _ => none

/-- A literal in so many levels of `run '( ... )`. The levels are counted from the literal on. -/
def nested (places : Nat → Position) (literal : Expr) : Nat → Expr
  | 0 => .chain [literal]
  | levels + 1 =>
      .chain [.identifier "run" (places levels), .deferred (.block (nested places literal levels))]

/-- The tree of a text is such a nest. -/
example : parse "run '(run '(\"in\"))" =
    .ok (nested (fun level => if level = 0 then ⟨6, 1⟩ else ⟨0, 1⟩) (.text "in") 2) := by cbv

namespace Evaluator

theorem evaluate_block (evaluator : Evaluator) (body : Expr) :
    evaluator.evaluate (.block body) = evaluator.evaluate body := by
  simp only [evaluate_eq_evaluateTerm, evaluateTerm]

theorem evaluate_literal (evaluator : Evaluator) (literal : Expr) (value : Value) (world : World)
    (known : literal.literal? = some value) :
    evaluator.evaluate (.chain [literal]) world = .ok value world := by
  rw [evaluate_eq_evaluateTerm]
  cases literal with
  | text s =>
      cases known
      rfl
  | number n =>
      cases n <;>
        · cases known
          rfl
  | _ => cases known

theorem evaluate_run_full (evaluator : Evaluator) (bare : evaluator.scope = [])
    (full : evaluator.maxDepth ≤ evaluator.depth) (t : Expr) (place : Position) :
    evaluator.evaluate (.chain [.identifier "run" place, .deferred t])
        { env := Prelude.environment } =
      .error (.fault (.inMethod "run" (.tooDeep evaluator.maxDepth) place))
        { env := Prelude.environment } := by
  have only : PreludeOnly ({ env := Prelude.environment } : World).env := preludeOnly_environment
  have called := called?_word only (controlWords_bare evaluator bare) _ Prelude.run_known
    (by decide)
  have refused : runDeferred evaluator.onward evaluator ⟨t, evaluator.scope⟩ =
      Run.fault (.complaint (.tooDeep evaluator.maxDepth)) := by
    rw [runDeferred, if_pos full]
  rw [evaluator.evaluate_call "run" place [.deferred t] [.deferred t evaluator.scope] _
    (runDeferred evaluator.onward evaluator ⟨t, evaluator.scope⟩) _ rfl called rfl
    (congrFun (perform_force _ _ _ _) _), refused]
  rfl

-- By induction on the levels of the nest. Each one takes one of the levels that are left.
theorem evaluate_nested (places : Nat → Position) (literal : Expr) (value : Value)
    (known : literal.literal? = some value) (levels : Nat) (evaluator : Evaluator)
    (bare : evaluator.scope = []) (plain : evaluator.extended = false)
    (room : evaluator.depth ≤ evaluator.maxDepth) :
    evaluator.evaluate (nested places literal levels) { env := Prelude.environment } =
      if levels ≤ evaluator.maxDepth - evaluator.depth then
        .ok value { env := Prelude.environment }
      else
        .error (.fault (.inMethod "run" (.tooDeep evaluator.maxDepth)
            (places (levels - (evaluator.maxDepth - evaluator.depth) - 1))))
          { env := Prelude.environment } := by
  induction levels generalizing evaluator with
  | zero =>
      rw [if_pos (Nat.zero_le _)]
      exact evaluator.evaluate_literal literal value _ known
  | succ levels ih =>
      rcases Nat.lt_or_ge evaluator.depth evaluator.maxDepth with further | full
      · have inside := ih evaluator.inward bare plain further
        have left : evaluator.maxDepth - evaluator.depth =
            evaluator.inward.maxDepth - evaluator.inward.depth + 1 := by
          simp only [inward]
          omega
        rw [nested, evaluate_run preludeOnly_environment (controlWords_bare evaluator bare) plain
          further, evaluate_block, inside, left]
        simp only [Nat.add_le_add_iff_right, Nat.add_sub_add_right]
        rfl
      · have exhausted : evaluator.maxDepth - evaluator.depth = 0 := by omega
        rw [nested, evaluate_run_full evaluator bare full, exhausted, if_neg (by omega)]
        rfl

end Evaluator

/-! Events in a nest. -/

section

variable (again : Evaluator → Expr → Run Value) (events : Evaluator → Expr → World → List Event)

theorem within_block (levels : Nat) (evaluator : Evaluator) (body : Expr) :
    Journal.events.within again events levels evaluator (.block body) =
      Journal.events.within again events levels evaluator body := by
  cases levels <;> rfl

theorem within_run (levels : Nat) (evaluator : Evaluator) (bare : evaluator.scope = [])
    (room : evaluator.depth < evaluator.maxDepth) (t : Expr) (place : Position) :
    ∃ call behind, Journal.events.within again events (levels + 1) evaluator
        (.chain [.identifier "run" place, .deferred t]) { env := Prelude.environment } =
      .called call :: .entered ⟨t, []⟩ ::
        (Journal.events.within again events levels (evaluator.inside ⟨t, []⟩) t
          { env := Prelude.environment } ++ behind) := by
  obtain ⟨scope, extended, depth, maxDepth⟩ := evaluator
  obtain rfl : scope = [] := bare
  have starts : ∃ call last, Journal.events.within again events (levels + 1)
        ⟨[], extended, depth, maxDepth⟩ (.chain [.identifier "run" place, .deferred t])
        { env := Prelude.environment } =
      .called call :: (Journal.events.body ⟨again, evaluateWithin again levels⟩
        ⟨events, Journal.events.within again events levels⟩ ⟨[], extended, depth, maxDepth⟩ ⟨t, []⟩
        { env := Prelude.environment } ++ last) :=
    ⟨⟨⟨"run", 1, false, Prelude.runBody⟩, [.deferred t []], [], []⟩, _,
      congrArg (List.cons _) (List.append_assoc _ _ _)⟩
  obtain ⟨call, last, starts⟩ := starts
  rw [starts, Journal.body, if_neg (Nat.not_le.mpr room), List.append_assoc, List.append_assoc]
  exact ⟨call, _, rfl⟩

-- By induction on the levels of the nest: the bodies of all levels are active where the literal is.
theorem nested_reaches (places : Nat → Position) (literal : Expr) (depth levels : Nat)
    (evaluator : Evaluator) (bare : evaluator.scope = []) (enough : depth ≤ levels)
    (room : evaluator.depth + depth ≤ evaluator.maxDepth) :
    ∃ before,
      before <+: Journal.events.within again events levels evaluator (nested places literal depth)
        { env := Prelude.environment } ∧ activeBodies before = depth := by
  induction depth generalizing evaluator levels with
  | zero => exact ⟨[], List.nil_prefix, rfl⟩
  | succ depth ih =>
      obtain ⟨fewer, rfl⟩ : ∃ fewer, levels = fewer + 1 := ⟨levels - 1, by omega⟩
      obtain ⟨call, behind, happens⟩ := within_run again events fewer evaluator bare
        (by omega) (.block (nested places literal depth)) (places depth)
      have empty : (evaluator.inside ⟨.block (nested places literal depth), []⟩).scope = [] := by
        simp [Evaluator.inside, bare]
      obtain ⟨before, ⟨later, further⟩, active⟩ := ih fewer
        (evaluator.inside ⟨.block (nested places literal depth), []⟩) empty (by omega)
        (by simp only [Evaluator.inside]; omega)
      refine ⟨.called call :: .entered ⟨.block (nested places literal depth), []⟩ :: before, ?_, ?_⟩
      · rw [nested, happens, within_block, ← further, List.append_assoc]
        exact ⟨later ++ behind, rfl⟩
      · simp only [activeBodies, Event.bodies, active]
        omega

end

/-- Over the methods of the prelude every evaluation ends with a value or a fault, whatever the
variables hold and however its expression is made. More levels than it may nest make no difference.
No more bodies are active at any point than there are levels left, and in the end none is. A literal
can be nested just as deep as the limit says, with that many bodies active: one level more, and the
word that would run it complains. -/
theorem evaluate_nesting :
    (∀ (evaluator : Evaluator) (e : Expr) (world : World), PreludeMethods world.env →
      ((∃ value after, evaluator.evaluate e world = .ok value after) ∨
        ∃ cause after, evaluator.evaluate e world = .error (.fault cause) after) ∧
      (∀ (again : Evaluator → Expr → Run Value) (levels : Nat),
        evaluator.maxDepth - evaluator.depth ≤ levels →
          evaluateWithin again levels evaluator e world = evaluator.evaluate e world) ∧
      (∀ before, before <+: evaluator.events e world →
        activeBodies before ≤ (evaluator.maxDepth - evaluator.depth : Nat)) ∧
      activeBodies (evaluator.events e world) = 0) ∧
    (∀ (places : Nat → Position) (literal : Expr) (value : Value) (levels limit : Nat),
      literal.literal? = some value →
      Evaluator.evaluate { maxDepth := limit } (nested places literal levels)
          { env := Prelude.environment } =
        if levels ≤ limit then .ok value { env := Prelude.environment }
        else
          .error (.fault (.inMethod "run" (.tooDeep limit) (places (levels - limit - 1))))
            { env := Prelude.environment }) ∧
    (∀ (places : Nat → Position) (literal : Expr) (levels limit : Nat), levels ≤ limit →
      ∃ before, before <+: Evaluator.events { maxDepth := limit } (nested places literal levels)
          { env := Prelude.environment } ∧ activeBodies before = levels) := by
  refine ⟨?_, ?_, ?_⟩
  · intro evaluator e world prelude
    have orderly := events_orderly evaluator e world (.of_prelude prelude)
    have grown := evaluate_grown evaluator e world prelude
    refine ⟨?_, ?_, orderly.within, orderly.closed ?_⟩
    · generalize evaluator.evaluate e world = result at grown ⊢
      cases grown with
      | ok value after grows => exact .inl ⟨value, after, rfl⟩
      | fault cause after grows => exact .inr ⟨cause, after, rfl⟩
    · exact fun again levels => evaluateWithin_enough again levels evaluator e world prelude
    · generalize evaluator.evaluate e world = result at grown ⊢
      cases grown <;> exact Course.noConfusion
  · intro places literal value levels limit known
    exact Evaluator.evaluate_nested places literal value known levels { maxDepth := limit } rfl rfl
      (Nat.zero_le _)
  · intro places literal levels limit inside
    exact nested_reaches _ _ places literal levels limit { maxDepth := limit } rfl inside
      (by simpa using inside)

/-- A variable that runs itself, and a nest that is one level too deep. -/
theorem evaluate_nesting_loop :
    ∃ env, Prelude.environment.declare "loop" (.deferred (.chain [.identifier "run" ⟨11, 1⟩,
        .identifier "loop" ⟨15, 1⟩]) []) = .ok env ∧ PreludeMethods env ∧
      ((∃ value after, Evaluator.evaluate { maxDepth := 32 } (.chain [.identifier "run" ⟨0, 1⟩,
          .identifier "loop" ⟨4, 1⟩]) { env := env } = .ok value after) ∨
        ∃ cause after, Evaluator.evaluate { maxDepth := 32 } (.chain [.identifier "run" ⟨0, 1⟩,
          .identifier "loop" ⟨4, 1⟩]) { env := env } = .error (.fault cause) after) ∧
      (∀ before, before <+: Evaluator.events { maxDepth := 32 } (.chain [
          .identifier "run" ⟨0, 1⟩, .identifier "loop" ⟨4, 1⟩]) { env := env } →
        activeBodies before ≤ 32) ∧
      Expr.literal? (.text "in") = some (.text "in") ∧
      Evaluator.evaluate { maxDepth := 1 } (.chain [.identifier "run" ⟨0, 1⟩,
          .deferred (.block (.chain [.identifier "run" ⟨6, 1⟩,
            .deferred (.block (.chain [.text "in"]))]))]) { env := Prelude.environment } =
        .error (.fault (.inMethod "run" (.tooDeep 1) ⟨6, 1⟩)) { env := Prelude.environment } ∧
      ∃ before, before <+: Evaluator.events { maxDepth := 1 } (.chain [.identifier "run" ⟨6, 1⟩,
            .deferred (.block (.chain [.text "in"]))]) { env := Prelude.environment } ∧
        activeBodies before = 1 := by
  have declared := Environment.extends_declare Prelude.environment _ "loop"
    (.deferred (.chain [.identifier "run" ⟨11, 1⟩, .identifier "loop" ⟨15, 1⟩]) []) rfl
  have prelude := declared.prelude preludeMethods_environment
  obtain ⟨ends, _, bounded, _⟩ := evaluate_nesting.1 { maxDepth := 32 }
    (.chain [.identifier "run" ⟨0, 1⟩, .identifier "loop" ⟨4, 1⟩]) { env := _ } prelude
  refine ⟨_, rfl, prelude, ends, bounded, rfl, ?_, ?_⟩
  · exact evaluate_nesting.2.1 (fun level => if level = 0 then ⟨6, 1⟩ else ⟨0, 1⟩) (.text "in")
      (.text "in") 2 1 rfl
  · exact evaluate_nesting.2.2 (fun _ => ⟨6, 1⟩) (.text "in") 1 1 (Nat.le_refl 1)

end ChainScript
