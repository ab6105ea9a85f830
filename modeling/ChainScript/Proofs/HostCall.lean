import ChainScript.Proofs.Calls
import ChainScript.Proofs.Relayout
import ChainScript.Proofs.RoundTrip

/-!
Calls by the host. A host that calls a method with texts and numbers gets what the text of the same
call gives. The arguments survive being written and read; and a call does nothing with the place of
its name but to put it into a fault.
-/

namespace ChainScript

inductive Literal where
  | text (s : String)
  | int (n : Int64)
  | float (x : Float) (finite : x.isFinite = true)

namespace Literal

def value : Literal → Value
  | .text s => .text s
  | .int n => .int n
  | .float x _ => .float x

def expr : Literal → Expr
  | .text s => .text s
  | .int n => .number (.int n)
  | .float x _ => .number (.decimal x)

end Literal

/-- The text of a call: the name and the arguments as they are printed, with single spaces. -/
def callText (name : String) (args : List Literal) : String :=
  separated " " (name :: args.map fun arg => arg.expr.print)

/-- Whether two runs end alike, but for a fault that one has at this place and the other one at no
place in particular. -/
inductive SameButCall {α : Type} (place : Position) :
    EStateM.Result Halt World α → EStateM.Result Halt World α → Prop where
  | same (result : EStateM.Result Halt World α) : SameButCall place result result
  | fault (f g : Fault) (after : World) (here : f.position? = some place)
      (nowhere : g.position? = some default) (faults : f.unplaced = g.unplaced) :
      SameButCall place (.error (.fault f) after) (.error (.fault g) after)

/-! The text of a call. -/

namespace Literal

variable (arg : Literal)

theorem isTerm_expr : IsTerm arg.expr := by
  cases arg with
  | text s => exact .text s
  | int n => exact .int n
  | float x finite => exact .decimal x finite

theorem nesting_expr : arg.expr.nesting = 0 := by
  cases arg <;> rfl

/-- A literal has no place, so it can be told from what is left when places are forgotten. -/
theorem eq_expr_of_unplaced (e : Expr) (same : e.unplaced = arg.expr.unplaced) : e = arg.expr := by
  cases arg <;> cases e <;> cases same <;> rfl

theorem eq_exprs_of_unplaced (args : List Literal) (terms : List Expr)
    (same : Expr.unplacedAll terms = Expr.unplacedAll (args.map expr)) : terms = args.map expr := by
  induction args generalizing terms with
  | nil =>
      cases terms with
      | nil => rfl
      | cons term rest => cases same
  | cons arg args ih =>
      cases terms with
      | nil => cases same
      | cons term rest =>
          obtain ⟨first, later⟩ := List.cons.inj same
          rw [List.map_cons, arg.eq_expr_of_unplaced term first, ih rest later]

theorem nestingAll_exprs (args : List Literal) : Expr.nestingAll (args.map expr) = 0 := by
  induction args with
  | nil => rfl
  | cons arg rest ih => simp [Expr.nestingAll, arg.nesting_expr, ih]

end Literal

theorem printAll_map (args : List Literal) :
    printAll (args.map Literal.expr) = args.map fun arg => arg.expr.print := by
  induction args with
  | nil => rfl
  | cons arg rest ih => simp [printAll, ih]

theorem callText_eq (name : String) (args : List Literal) :
    callText name args =
      (Expr.chain (.identifier name default :: args.map Literal.expr)).print := by
  simp [callText, Expr.print, printAll, printAll_map]

theorem parse_callText (name : String) (isName : IsName name) (args : List Literal) :
    ∃ place, parse (callText name args) =
      .ok (.chain (.identifier name place :: args.map Literal.expr)) := by
  have terms : ∀ term ∈ Expr.identifier name default :: args.map Literal.expr, IsTerm term := by
    refine List.forall_mem_cons.mpr ⟨.identifier name default isName, ?_⟩
    intro term member
    obtain ⟨arg, _, rfl⟩ := List.mem_map.mp member
    exact arg.isTerm_expr
  have flat :
      Expr.nestingAll (.identifier name default :: args.map Literal.expr) ≤ nestingLimit := by
    simp [Expr.nestingAll, Expr.nesting, Literal.nestingAll_exprs]
  obtain ⟨again, parsed, same⟩ :=
    parse_of_isCanonical _ (.chain _ (List.cons_ne_nil _ _) terms flat)
  rw [callText_eq, parsed]
  cases again with
  | chain found =>
      cases found with
      | nil => cases same
      | cons first rest =>
          obtain ⟨head, later⟩ := List.cons.inj (Expr.chain.inj same)
          obtain rfl := Literal.eq_exprs_of_unplaced args rest later
          cases first with
          | identifier word place =>
              obtain ⟨rfl, _⟩ := Expr.identifier.inj head
              exact ⟨place, rfl⟩
          | _ => cases head
  | _ => cases same

theorem Evaluator.evaluate_args (evaluator : Evaluator) (name : String) (place : Position)
    (args : List Literal) (term : Literal → Expr)
    (constant : ∀ arg walk, walkTerm evaluator.onward evaluator (term arg) walk =
      pure (walk.add arg.value)) :
    evaluator.evaluate (.chain (.identifier name place :: args.map term)) =
      resolve evaluator.onward evaluator name place ⟨args.map Literal.value, [], place⟩ >>=
        fun walk => Run.ofExcept (walk.result place) := by
  rw [evaluator.evaluate_eq_evaluateTerm]
  exact evaluateTerm_args _ _ _ name place args term constant

/-! The same word at two places. -/

section

variable (place : Position) (world : World)

theorem same_result (values : List Value) :
    SameButCall place (Run.ofExcept (Walk.result ⟨values, [], place⟩ place) world)
      (Run.ofExcept (Walk.result ⟨values, [], default⟩ default) world) := by
  match values with
  | [] => exact .fault _ _ world rfl rfl rfl
  | [value] => exact .same _
  | _ :: _ :: _ => exact .fault _ _ world rfl rfl rfl

theorem same_settle (method : Method) (values : List Value)
    (done : Except Fault Value × Options) :
    SameButCall place
      ((settle method place ⟨values, [], place⟩ done >>= fun walk =>
        Run.ofExcept (walk.result place)) world)
      ((settle method default ⟨values, [], default⟩ done >>= fun walk =>
        Run.ofExcept (walk.result default)) world) := by
  obtain ⟨result, options⟩ := done
  cases result with
  | error cause =>
      -- Only a complaint gets the place of the call.
      cases cause with
      | complaint complaint => exact .fault _ _ world rfl rfl rfl
      | _ => exact .same _
  | ok value =>
      simp only [settle]
      cases options.unused with
      | nil => exact same_result place world _
      | cons name names => exact .fault _ _ world rfl rfl rfl

variable (onward : Onward) (evaluator : Evaluator)

theorem same_invoke (method : Method) (values : List Value) :
    SameButCall place
      ((invoke onward evaluator method place ⟨values, [], place⟩ >>= fun walk =>
        Run.ofExcept (walk.result place)) world)
      ((invoke onward evaluator method default ⟨values, [], default⟩ >>= fun walk =>
        Run.ofExcept (walk.result default)) world) := by
  by_cases few : values.length < method.arity
  · rw [invoke_few _ _ _ _ _ few, invoke_few _ _ _ _ _ few]
    exact .fault _ _ world rfl rfl rfl
  · rw [invoke_enough _ _ _ _ _ (Nat.not_lt.mp few), invoke_enough _ _ _ _ _ (Nat.not_lt.mp few)]
    -- The routine knows nothing of the place.
    have params : Walk.params ⟨values, [], place⟩ method =
        Walk.params ⟨values, [], default⟩ method := rfl
    have rest : Walk.rest ⟨values, [], place⟩ method =
        Walk.rest ⟨values, [], default⟩ method := rfl
    rw [params, rest]
    simp only [bind_assoc]
    generalize perform onward evaluator _ _ = run
    simp only [Bind.bind, EStateM.bind]
    cases run world with
    | ok done after => exact same_settle place after method values done
    | error halt after => exact .same _

theorem same_resolve (name : String) (values : List Value) :
    SameButCall place
      ((resolve onward evaluator name place ⟨values, [], place⟩ >>= fun walk =>
        Run.ofExcept (walk.result place)) world)
      ((resolve onward evaluator name default ⟨values, [], default⟩ >>= fun walk =>
        Run.ofExcept (walk.result default)) world) := by
  simp only [Bind.bind, EStateM.bind]
  cases called : evaluator.called? world.env name with
  | some method =>
      rw [resolve_called _ _ _ _ _ _ method called, resolve_called _ _ _ _ _ _ method called]
      exact same_invoke place world onward evaluator method values
  | none =>
      cases seen : evaluator.seen? world.env name with
      | some value =>
          rw [resolve_seen _ _ _ _ _ _ value seen, resolve_seen _ _ _ _ _ _ value seen]
          exact same_result place world _
      | none =>
          rw [resolve_unknown _ _ _ _ _ _ seen called, resolve_unknown _ _ _ _ _ _ seen called]
          exact .fault _ _ world rfl rfl rfl

end

/-- A call by the host and the text of that call end alike, in every environment: with the same
value or the same fault, and in the same world. The one thing that tells them apart is the place of
a fault that the call itself has put there. -/
theorem call_as_text (name : String) (isName : IsName name) (args : List Literal) :
    ∃ place, parse (callText name args) =
        .ok (.chain (.identifier name place :: args.map Literal.expr)) ∧
      ∀ (evaluator : Evaluator) (world : World),
        SameButCall place (evaluator.evaluateSource (callText name args) world)
          (evaluator.call name (args.map Literal.value) world) := by
  obtain ⟨place, parsed⟩ := parse_callText name isName args
  refine ⟨place, parsed, ?_⟩
  intro evaluator world
  have written : ∀ arg walk, walkTerm evaluator.onward evaluator (Literal.expr arg) walk =
      pure (walk.add arg.value) := by
    rintro (s | n | ⟨x, finite⟩) walk <;> rfl
  have handed : ∀ (arg : Literal) walk, walkTerm evaluator.onward evaluator (.stub arg.value) walk =
      pure (walk.add arg.value) := fun _ _ => rfl
  have text : evaluator.evaluateSource (callText name args) =
      evaluator.evaluate (.chain (.identifier name place :: args.map Literal.expr)) := by
    simp only [Evaluator.evaluateSource, parsed]
  have call : evaluator.call name (args.map Literal.value) = evaluator.evaluate
      (.chain (.identifier name default :: args.map fun arg => .stub arg.value)) := by
    rw [Evaluator.call, Expr.call, List.map_map]
    rfl
  rw [text, call, evaluator.evaluate_args name place args _ written,
    evaluator.evaluate_args name default args _ handed]
  exact same_resolve place world _ evaluator name _

theorem call_as_text_sum :
    callText "+" [.int 1, .text "\""] = "+ 1 \"\\\"\"" ∧
    ∃ place, ∀ (evaluator : Evaluator) (world : World),
      SameButCall place (evaluator.evaluateSource (callText "+" [.int 1, .text "\""]) world)
        (evaluator.call "+" [.int 1, .text "\""] world) := by
  have isName : IsName "+" := ⟨⟨.endOfInput, "", ⟨1, 1⟩⟩, by cbv⟩
  obtain ⟨place, _, same⟩ := call_as_text "+" isName [.int 1, .text "\""]
  exact ⟨by decide, place, same⟩

end ChainScript
