import ChainScript.Prelude
import ChainScript.Proofs.Calls

/-!
Parentheses around a complete call. A part of a chain that reduces to one value by itself, and
that takes no rest, never touches what stands to its right. So it can be put into a group, and a
group of that kind can be opened.
-/

namespace ChainScript

/-- A walk over some more values, with the same options. The place of the last option counts only
as long as an option is pending. -/
structure Walk.Over (more : List Value) (walk longer : Walk) : Prop where
  values : longer.values = walk.values ++ more
  options : longer.options = walk.options
  optionPlace : walk.options ≠ [] → longer.optionPlace = walk.optionPlace

/-- Ends of two walks: the second is over some more values, or both were halted alike. -/
inductive EndsOver (more : List Value) :
    EStateM.Result Halt World Walk → EStateM.Result Halt World Walk → Prop where
  | ok (walk longer : Walk) (world : World) (above : walk.Over more longer) :
      EndsOver more (.ok walk world) (.ok longer world)
  | error (halt : Halt) (world : World) : EndsOver more (.error halt world) (.error halt world)

section

variable {more : List Value} {walk longer : Walk}

namespace Walk.Over

theorem start (p q : Position) : (Walk.start p).Over [] (Walk.start q) :=
  ⟨rfl, rfl, fun pending => absurd rfl pending⟩

theorem add (above : walk.Over more longer) (value : Value) :
    (walk.add value).Over more (longer.add value) :=
  ⟨congrArg (value :: ·) above.values, above.options, above.optionPlace⟩

theorem result (above : walk.Over [] longer) (place : Position) :
    longer.result place = walk.result place := by
  obtain ⟨values, options, optionPlace⟩ := walk
  obtain ⟨values', options', optionPlace'⟩ := longer
  obtain ⟨same, pending, place'⟩ := above
  obtain rfl : values = values' := by simpa using same.symm
  obtain rfl : options = options' := pending.symm
  cases options with
  | nil => rcases values with _ | ⟨value, _ | ⟨second, rest⟩⟩ <;> rfl
  | cons first rest =>
      obtain rfl : optionPlace' = optionPlace := place' (List.cons_ne_nil _ _)
      rfl

end Walk.Over

/-! One term. -/

theorem takeOption_over (above : walk.Over more longer) (name : String) (place : Position)
    (world : World) (fits : more = [] ∨ walk.values ≠ []) :
    EndsOver more (Run.ofExcept (walk.takeOption name place) world)
      (Run.ofExcept (longer.takeOption name place) world) := by
  obtain ⟨values, options, optionPlace⟩ := walk
  obtain ⟨values', options', optionPlace'⟩ := longer
  obtain ⟨same, pending, _⟩ := above
  obtain rfl : values' = values ++ more := same
  obtain rfl : options = options' := pending.symm
  cases values with
  | nil =>
      obtain rfl : more = [] := fits.resolve_right fun nonempty => nonempty rfl
      exact .error _ world
  | cons value rest =>
      simp only [Walk.takeOption, List.cons_append]
      cases options.lookup name with
      | some old => exact .error _ world
      | none => exact .ok _ _ world ⟨rfl, rfl, fun _ => rfl⟩

theorem invoke_over (onward : Onward) (evaluator : Evaluator) (method : Method)
    (place : Position) (above : walk.Over more longer) (world : World)
    (fits : more = [] ∨ (method.takesRest = false ∧ method.arity ≤ walk.values.length)) :
    EndsOver more (invoke onward evaluator method place walk world)
      (invoke onward evaluator method place longer world) := by
  have count : method.arity ≤ walk.values.length ∨
      more = [] ∧ walk.values.length < method.arity := by
    rcases fits with nothing | ⟨_, enough⟩
    · by_cases few : walk.values.length < method.arity
      · exact .inr ⟨nothing, few⟩
      · exact .inl (Nat.not_lt.mp few)
    · exact .inl enough
  rcases count with enough | ⟨rfl, few⟩
  · have enough' : method.arity ≤ longer.values.length := by
      rw [above.values, List.length_append]
      omega
    have params : longer.params method = walk.params method := by
      rw [Walk.params, above.values, List.take_append_of_le_length enough, Walk.params]
    have left : longer.values.drop method.arity = walk.values.drop method.arity ++ more := by
      rw [above.values, List.drop_append_of_le_length enough]
    have rest : longer.rest method = walk.rest method := by
      rcases fits with rfl | ⟨noRest, _⟩
      · simp only [Walk.rest, left, List.append_nil]
      · simp only [Walk.rest, noRest, Bool.false_eq_true, if_false]
    have behind (value : Value) :
        (walk.behindCall method value).Over more (longer.behindCall method value) := by
      refine ⟨?_, rfl, fun pending => absurd rfl pending⟩
      rcases fits with rfl | ⟨noRest, _⟩
      · simp only [Walk.behindCall, left, List.append_nil]
      · simp only [Walk.behindCall, left, noRest, Bool.false_eq_true, if_false, List.cons_append]
    rw [invoke_enough _ _ _ _ _ enough, invoke_enough _ _ _ _ _ enough', params, rest,
      above.options]
    simp only [Bind.bind, EStateM.bind]
    -- Both calls do the same routine, so they differ only in what they leave behind.
    cases perform onward evaluator (method.body (walk.params method) (walk.rest method))
        ⟨walk.options, []⟩ world with
    | error halt after => exact .error halt after
    | ok done after =>
        obtain ⟨result, options⟩ := done
        cases result with
        | error fault => exact .error _ after
        | ok value =>
            simp only [settle]
            cases options.unused with
            | nil => exact .ok _ _ after (behind value)
            | cons name names => exact .error _ after
  · have length : longer.values.length = walk.values.length := by
      rw [above.values, List.append_nil]
    rw [invoke_few _ _ _ _ _ few, invoke_few _ _ _ _ longer (length ▸ few), length]
    exact .error _ world

theorem resolve_over (onward : Onward) (evaluator : Evaluator) (name : String) (place : Position)
    (above : walk.Over more longer) (world : World)
    (fits : more = [] ∨
      (∃ after last, resolve onward evaluator name place walk world = .ok after last) ∧
        ∀ method, evaluator.called? world.env name = some method → method.takesRest = false) :
    EndsOver more (resolve onward evaluator name place walk world)
      (resolve onward evaluator name place longer world) := by
  cases seen : evaluator.seen? world.env name with
  | some value =>
      rw [resolve_seen _ _ _ _ _ _ value seen, resolve_seen _ _ _ _ _ _ value seen]
      exact .ok _ _ world (above.add value)
  | none =>
      cases called : evaluator.called? world.env name with
      | none =>
          rw [resolve_unknown _ _ _ _ _ _ seen called, resolve_unknown _ _ _ _ _ _ seen called]
          exact .error _ world
      | some method =>
          rw [resolve_called _ _ _ _ _ _ method called] at fits ⊢
          rw [resolve_called _ _ _ _ _ _ method called]
          apply invoke_over onward evaluator method place above world
          rcases fits with nothing | ⟨⟨after, last, succeeds⟩, noRest⟩
          · exact .inl nothing
          · refine .inr ⟨noRest method called, Nat.not_lt.mp fun few => ?_⟩
            rw [invoke_few _ _ _ _ _ few] at succeeds
            cases succeeds

theorem walkTerm_over (onward : Onward) (evaluator : Evaluator) (term : Expr)
    (above : walk.Over more longer) (world : World)
    (fits : more = [] ∨ (∃ after last, walkTerm onward evaluator term walk world = .ok after last) ∧
      ∀ name place method, term = .identifier name place →
        evaluator.called? world.env name = some method → method.takesRest = false) :
    EndsOver more (walkTerm onward evaluator term walk world)
      (walkTerm onward evaluator term longer world) := by
  have adds (e : Expr) :
      EndsOver more
        ((do let value ← evaluateTerm onward evaluator e; pure (walk.add value) : Run Walk) world)
        ((do let value ← evaluateTerm onward evaluator e; pure (longer.add value) : Run Walk)
          world) := by
    simp only [Bind.bind, EStateM.bind]
    cases evaluateTerm onward evaluator e world with
    | ok value after => exact .ok _ _ after (above.add value)
    | error halt after => exact .error halt after
  cases term with
  | identifier name place =>
      apply resolve_over onward evaluator name place above world
      rcases fits with nothing | ⟨succeeds, noRest⟩
      · exact .inl nothing
      · exact .inr ⟨succeeds, fun method => noRest name place method rfl⟩
  | option name place =>
      apply takeOption_over above name place world
      rcases fits with nothing | ⟨⟨after, last, succeeds⟩, _⟩
      · exact .inl nothing
      · refine .inr fun empty => ?_
        simp only [walkTerm, Walk.takeOption, empty] at succeeds
        cases succeeds
  | text s => exact adds _
  | number n => exact adds _
  | deferred body => exact adds _
  | chain terms => exact adds _
  | block body => exact adds _
  | stub value => exact adds _

/-! Many terms. -/

-- By induction on the terms, the last one first: behind a step that succeeds the walks are again
-- one over the other.
theorem walkTerms_over (onward : Onward) (evaluator : Evaluator) (terms : List Expr)
    (above : walk.Over more longer) (world : World)
    (fits : more = [] ∨
      (∃ after last, walkTerms onward evaluator walk terms world = .ok after last) ∧
        ∀ method ∈ directCalls onward evaluator walk terms world, method.takesRest = false) :
    EndsOver more (walkTerms onward evaluator walk terms world)
      (walkTerms onward evaluator longer terms world) := by
  induction terms with
  | nil => exact .ok walk longer world above
  | cons term rest ih =>
      simp only [walkTerms_cons, Bind.bind, EStateM.bind, directCalls, behindRun] at fits ⊢
      have behind := ih (by
        rcases fits with nothing | ⟨⟨after, last, succeeds⟩, noRest⟩
        · exact .inl nothing
        · refine .inr ⟨?_, fun method member => noRest method (List.mem_append_left _ member)⟩
          cases walked : walkTerms onward evaluator walk rest world with
          | ok middle later => exact ⟨middle, later, rfl⟩
          | error halt later => simp [walked] at succeeds)
      generalize walked : walkTerms onward evaluator walk rest world = result at behind fits ⊢
      generalize walkTerms onward evaluator longer rest world = other at behind ⊢
      cases behind with
      | error halt later => exact .error halt later
      | ok middle middle' later above =>
          apply walkTerm_over onward evaluator term above later
          rcases fits with nothing | ⟨succeeds, noRest⟩
          · exact .inl nothing
          · refine .inr ⟨succeeds, ?_⟩
            rintro name place method rfl called
            exact noRest method (List.mem_append_right _ (by simp [called]))

end

theorem EndsOver.exists_of_ok {more : List Value} {left right : EStateM.Result Halt World Walk}
    (ends : EndsOver more left right) (walk : Walk) (world : World) (ok : left = .ok walk world) :
    ∃ longer, right = .ok longer world ∧ walk.Over more longer := by
  cases ends with
  | ok _ longer _ above =>
      cases ok
      exact ⟨longer, rfl, above⟩
  | error halt world => cases ok

/-! Groups. -/

theorem firstPosition?_append (terms behind : List Expr) :
    Expr.firstPosition? (terms ++ behind) =
      (Expr.firstPosition? terms <|> Expr.firstPosition? behind) := by
  induction terms with
  | nil => rfl
  | cons term rest ih =>
      simp only [List.cons_append, Expr.firstPosition?]
      cases term.position? with
      | some place => rfl
      | none => exact ih

/-- A group has its place where its first word has it, so a chain does not start elsewhere. -/
theorem chainPlace_grouped (before segment behind : List Expr) :
    Expr.chainPlace (before ++ [.block (.chain segment)] ++ behind) =
      Expr.chainPlace (before ++ segment ++ behind) := by
  have group : Expr.firstPosition? [.block (.chain segment)] = Expr.firstPosition? segment := by
    simp only [Expr.firstPosition?, Expr.position?]
    cases Expr.firstPosition? segment <;> rfl
  simp only [Expr.chainPlace, firstPosition?_append, group]

/-- Walked through behind other terms, a part that is complete by itself and the group of it leave
the same: its value before the values that were there. -/
theorem segment_walks (evaluator : Evaluator) (segment : List Expr) (right : Walk)
    (settled : right.options = []) (middle last : World) (value : Value)
    (complete : evaluator.evaluate (.chain segment) middle = .ok value last)
    (noRest : ∀ method ∈ evaluator.directCalls segment middle, method.takesRest = false) :
    ∃ flat, walkTerms evaluator.onward evaluator right segment middle = .ok flat last ∧
      walkTerms evaluator.onward evaluator right [.block (.chain segment)] middle =
        .ok (right.add value) last ∧
      flat.Over [] (right.add value) := by
  obtain ⟨own, ownWalk, ownOptions, ownValues⟩ :=
    evaluator.evaluate_chain_ok segment value middle last complete
  have start : (Walk.start (Expr.chainPlace segment)).Over right.values right :=
    ⟨rfl, settled, fun pending => absurd rfl pending⟩
  obtain ⟨flat, flatWalk, above⟩ :=
    (walkTerms_over evaluator.onward evaluator segment start middle
      (.inr ⟨⟨own, last, ownWalk⟩, noRest⟩)).exists_of_ok own last ownWalk
  have noOptions : flat.options = [] := above.options.trans ownOptions
  refine ⟨flat, flatWalk, ?_, ?_⟩
  · rw [Evaluator.evaluate_eq_evaluateTerm] at complete
    have group : evaluateTerm evaluator.onward evaluator (.block (.chain segment)) middle =
        .ok value last := complete
    rw [walkTerms_cons]
    simp [walkTerms, walkTerm, Bind.bind, EStateM.bind, Pure.pure, EStateM.pure, group]
  · constructor
    · simp [Walk.add, above.values, ownValues]
    · exact settled.trans noOptions.symm
    · exact fun pending => absurd noOptions pending

/-- A complete part of a chain is as good as a group. Where the terms behind it leave no options
pending, and it has a value by itself without any of its own words calling a method that takes the
rest, the chain ends in the same way whether there are parentheses around that part or not: in the
same world with the same value, or with the same fault at the same place. -/
theorem evaluate_grouped (evaluator : Evaluator) (before segment behind : List Expr)
    (world middle last : World) (walk : Walk) (value : Value)
    (walked : evaluator.walkChain behind world = .ok walk middle) (settled : walk.options = [])
    (complete : evaluator.evaluate (.chain segment) middle = .ok value last)
    (noRest : ∀ method ∈ evaluator.directCalls segment middle, method.takesRest = false) :
    evaluator.evaluate (.chain (before ++ segment ++ behind)) world =
      evaluator.evaluate (.chain (before ++ [.block (.chain segment)] ++ behind)) world := by
  simp only [Evaluator.evaluate_chain, Evaluator.walkChain, chainPlace_grouped]
  generalize Expr.chainPlace (before ++ segment ++ behind) = place
  -- Wherever the chain starts, the walk through its last terms is the same.
  obtain ⟨right, rightWalk, overRight⟩ :=
    (walkTerms_over evaluator.onward evaluator behind (Walk.Over.start _ place) world
      (.inl rfl)).exists_of_ok walk middle walked
  obtain ⟨flat, flatWalk, groupWalk, same⟩ := segment_walks evaluator segment right
    (overRight.options.trans settled) middle last value complete noRest
  have ends := walkTerms_over evaluator.onward evaluator before same last (.inl rfl)
  simp only [List.append_assoc, walkTerms_append, Bind.bind, EStateM.bind, rightWalk, flatWalk,
    groupWalk]
  generalize walkTerms evaluator.onward evaluator flat before last = left at ends ⊢
  generalize walkTerms evaluator.onward evaluator (right.add value) before last = other at ends ⊢
  cases ends with
  | ok walk longer world above => simp only [above.result place]
  | error halt world => rfl

open ChainScript.Expr in
theorem evaluate_grouped_product :
    ∃ walk middle last,
      Evaluator.walkChain {} [number (.int 4)] { env := Prelude.environment } = .ok walk middle ∧
      walk.options = [] ∧
      Evaluator.evaluate {} (.chain [identifier "*" ⟨2, 1⟩, number (.int 2), number (.int 3)])
        middle = .ok (.int 6) last ∧
      (∀ method ∈ Evaluator.directCalls {} [identifier "*" ⟨2, 1⟩, number (.int 2),
        number (.int 3)] middle, method.takesRest = false) ∧
      Evaluator.evaluate {} (.chain ([identifier "-" ⟨0, 1⟩] ++ [identifier "*" ⟨2, 1⟩,
          number (.int 2), number (.int 3)] ++ [number (.int 4)])) { env := Prelude.environment } =
        Evaluator.evaluate {} (.chain ([identifier "-" ⟨0, 1⟩] ++ [.block (.chain
          [identifier "*" ⟨2, 1⟩, number (.int 2), number (.int 3)])] ++ [number (.int 4)]))
          { env := Prelude.environment } := by
  have walked : Evaluator.walkChain {} [number (.int 4)] { env := Prelude.environment } =
      .ok ⟨[.int 4], [], default⟩ { env := Prelude.environment } := rfl
  have complete : Evaluator.evaluate {} (.chain [identifier "*" ⟨2, 1⟩, number (.int 2),
      number (.int 3)]) { env := Prelude.environment } =
        .ok (.int 6) { env := Prelude.environment } :=
    Evaluator.evaluate_call {} "*" ⟨2, 1⟩ _ _ ⟨"*", 2, false, Prelude.arithmeticBody .mul⟩
      (pure (.int 6)) _ rfl rfl rfl rfl
  have calls : Evaluator.directCalls {} [identifier "*" ⟨2, 1⟩, number (.int 2),
      number (.int 3)] { env := Prelude.environment } =
        [⟨"*", 2, false, Prelude.arithmeticBody .mul⟩] := rfl
  have noRest : ∀ method ∈ Evaluator.directCalls {} [identifier "*" ⟨2, 1⟩, number (.int 2),
      number (.int 3)] { env := Prelude.environment }, method.takesRest = false := by
    simp [calls]
  exact ⟨_, _, _, walked, rfl, complete, noRest, evaluate_grouped {} _ _ _ _ _ _ _ _ walked rfl
    complete noRest⟩

end ChainScript
