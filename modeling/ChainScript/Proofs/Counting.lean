import ChainScript.Proofs.Deliveries
import ChainScript.Proofs.Faults

/-!
Counting values. Where methods always succeed, ask for every option and leave the environment alone,
what becomes of a chain is decided by how many values there are, whatever they are.
-/

namespace ChainScript

/-! What is counted. -/

namespace Expr

def adds : Expr → Nat
  | .option _ _ => 0
  | _ => 1

def firstOption? : List Expr → Option Position
  | [] => none
  | .option _ place :: _ => some place
  | _ :: right => firstOption? right

/-- The names of the options in a chain, but not of those in its groups. -/
def optionNames (terms : List Expr) : List String :=
  terms.filterMap fun
    | .option name _ => some name
    | _ => none

end Expr

namespace Evaluator

variable (evaluator : Evaluator) (env : Environment)

def takes (term : Expr) (count : Nat) : Nat :=
  match term with
  | .option _ _ => 1
  | .identifier name _ =>
      match evaluator.called? env name with
      | some method => if method.takesRest then count else method.arity
      | none => 0
  | _ => 0

def lack? (term : Expr) (count : Nat) : Option Fault :=
  match term with
  | .option name place => if count = 0 then some (.missingOptionValue name place) else none
  | .identifier name place =>
      match evaluator.called? env name with
      | some method =>
          if count < method.arity then some (.arity method.name method.arity count place)
          else none
      | none => none
  | _ => none

/-- How many values there are once the terms are behind, or the fault of the rightmost term that
needs more than there are. -/
def tally : List Expr → Except Fault Nat
  | [] => .ok 0
  | term :: right => do
      let count ← tally right
      match evaluator.lack? env term count with
      | some fault => .error fault
      | none => .ok (count - evaluator.takes env term count + term.adds)

def loose : List Expr → List String
  | [] => []
  | .option name _ :: right => name :: loose right
  | .identifier name _ :: right =>
      match evaluator.called? env name with
      | some _ => []
      | none => loose right
  | _ :: right => loose right

/-- The fault of a chain, by counting alone, or none if it has a value. -/
def verdict (terms : List Expr) : Option Fault :=
  match evaluator.tally env terms with
  | .error fault => some fault
  | .ok count =>
      match evaluator.loose env terms with
      | [] => if count = 1 then none else some (.unconsumed count (Expr.chainPlace terms))
      | names =>
          some (.danglingOptions (sortedNames names)
            ((Expr.firstOption? terms).getD (Expr.chainPlace terms)))

end Evaluator

/-! Where counting is enough. -/

/-- Whether a method always succeeds, asks for all options that it is given as long as they have
these names, and leaves the environment as it is. -/
structure Method.Obliging (method : Method) (evaluator : Evaluator) (env : Environment)
    (names : List String) : Prop where
  succeeds : ∀ params rest options world, world.env = env → params.length = method.arity →
    (method.takesRest = false → rest = []) → (∀ name ∈ options.map Prod.fst, name ∈ names) →
    ∃ value left after,
      perform evaluator.onward evaluator (method.body params rest) ⟨options, []⟩ world =
        .ok (.ok value, left) after ∧
      ∀ name ∈ options.map Prod.fst, name ∈ left.asked
  keeps : ∀ params rest options world done after, world.env = env →
    perform evaluator.onward evaluator (method.body params rest) ⟨options, []⟩ world =
      .ok done after → after.env = env

/-- Whether nothing but the number of values can go wrong in a chain. -/
structure Evaluator.Dependable (evaluator : Evaluator) (terms : List Expr) (world : World) :
    Prop where
  methods : ∀ name method, world.env.method? name = some method →
    method.Obliging evaluator world.env (Expr.optionNames terms)
  words : ∀ name place, .identifier name place ∈ terms →
    evaluator.called? world.env name = none → (evaluator.seen? world.env name).isSome
  plain : ∀ left term right walk after, terms = left ++ term :: right → term.IsPlain →
    evaluator.walkBehind terms right world = .ok walk after →
    ∃ value last, evaluator.evaluate term after = .ok value last
  apart : ∀ left name place between place' right,
    terms = left ++ .option name place :: (between ++ .option name place' :: right) →
    ∃ word there, .identifier word there ∈ between ∧
      (evaluator.called? world.env word).isSome

/-! The environment. -/

/-- An environment that stays as it is, whatever comes of a run. -/
def keeping (env : Environment) : FaultInvariant where
  toSetting := .everywhere (fun world => world.env = env) fun method =>
    ∃ name, env.method? name = some method
  fails _ := True
  answers _ := True
  callable_fine _ name _ here found := ⟨name, here ▸ found⟩
  complains _ := trivial
  catches _ _ := trivial
  attributes _ _ _ _ _ := trivial
  objects _ _ _ _ := trivial
  unconsumed _ _ _ _ _ := trivial

section

variable {onward : Onward} {evaluator : Evaluator} {env : Environment}
  (keeps : ∀ name method, env.method? name = some method →
    ∀ params rest options world done after, world.env = env →
      perform onward evaluator (method.body params rest) ⟨options, []⟩ world = .ok done after →
      after.env = env)

include keeps

theorem methodsAnswer_keeping (inner : OnwardLog Empty) :
    (keeping env).onRuns.MethodsAnswer onward inner evaluator := by
  rintro method ⟨name, found⟩ params rest options world here _ _ _ _
  refine ⟨Course.among_true _, fun done after ended _ => ?_⟩
  have still := keeps name method found params rest options world done after here ended
  exact ⟨still, fun value _ => value.quotes_true⟩

theorem evaluateTerm_keeps (e : Expr) (value : Value) (world after : World)
    (here : world.env = env) (ended : evaluateTerm onward evaluator e world = .ok value after) :
    after.env = env := by
  have holds := RunInvariant.evaluateTerm_holds (methodsAnswer_keeping keeps .blank)
    (quoting_true evaluator.scope) e trivial world here
  exact ((holds fun _ _ => trivial).goes value after ended rfl).1

theorem walkTerms_keeps (start : Walk) (terms : List Expr) (walk : Walk) (world after : World)
    (here : world.env = env)
    (walked : walkTerms onward evaluator start terms world = .ok walk after) :
    after.env = env := by
  have carries : (keeping env).onRuns.Carries start :=
    .of_all Value.quotes_true (fun _ => trivial) start
  have holds := RunInvariant.walkTerms_holds (methodsAnswer_keeping keeps .blank)
    (quoting_true evaluator.scope) start carries terms (fun _ _ => trivial) world here
  exact ((holds fun _ _ => trivial).goes walk after walked rfl).1

end

/-! One term. -/

namespace Expr

theorem mem_optionNames (terms : List Expr) (name : String) (place : Position)
    (found : .option name place ∈ terms) : name ∈ optionNames terms :=
  List.mem_filterMap.mpr ⟨_, found, rfl⟩

theorem firstOption?_of_isPlain (term : Expr) (right : List Expr) (plain : term.IsPlain) :
    firstOption? (term :: right) = firstOption? right := by
  cases term <;> first | rfl | cases plain

end Expr

namespace Evaluator

section

variable (evaluator : Evaluator) (env : Environment)

theorem loose_of_isPlain (term : Expr) (right : List Expr) (plain : term.IsPlain) :
    evaluator.loose env (term :: right) = evaluator.loose env right := by
  cases term <;> first | rfl | cases plain

theorem mem_loose (terms : List Expr) (name : String) (waits : name ∈ evaluator.loose env terms) :
    ∃ between place right, terms = between ++ .option name place :: right ∧
      ∀ word there, .identifier word there ∈ between → evaluator.called? env word = none := by
  induction terms with
  | nil => cases waits
  | cons term right ih =>
      have further (silent : ∀ word there, .identifier word there = term →
            evaluator.called? env word = none)
          (waits : name ∈ evaluator.loose env right) :
          ∃ between place behind, term :: right = between ++ .option name place :: behind ∧
            ∀ word there, .identifier word there ∈ between →
              evaluator.called? env word = none := by
        obtain ⟨between, place, behind, rfl, quiet⟩ := ih waits
        refine ⟨term :: between, place, behind, rfl, ?_⟩
        intro word there found
        rcases List.mem_cons.mp found with same | later
        · exact silent word there same
        · exact quiet word there later
      cases term with
      | option key place =>
          rcases List.mem_cons.mp waits with rfl | waits
          · exact ⟨[], place, right, rfl, fun _ _ found => by cases found⟩
          · exact further (fun _ _ other => by cases other) waits
      | identifier word there =>
          cases called : evaluator.called? env word with
          | some method => simp [loose, called] at waits
          | none =>
              refine further ?_ (by simpa [loose, called] using waits)
              rintro _ _ ⟨⟩
              exact called
      | _ => exact further (fun _ _ other => by cases other) waits

end

end Evaluator

/-- Whether a walk carries just what has been counted for a part of a chain. -/
structure Walk.Counted (walk : Walk) (evaluator : Evaluator) (env : Environment)
    (start : Position) (right : List Expr) (count : Nat) : Prop where
  values : walk.values.length = count
  options : walk.options.map Prod.fst = evaluator.loose env right
  optionPlace : walk.optionPlace = (Expr.firstOption? right).getD start

namespace Evaluator

section

variable {evaluator : Evaluator} {terms left right : List Expr} {term : Expr} {world : World}
  {start : Position} {walk : Walk} {after : World} {count : Nat}

theorem walkTerm_lacks (values : walk.values.length = count) (here : after.env = world.env)
    (fault : Fault) (lacks : evaluator.lack? world.env term count = some fault) :
    walkTerm evaluator.onward evaluator term walk after = .error (.fault fault) after := by
  cases term with
  | option name place =>
      simp only [lack?] at lacks
      split at lacks
      · next few =>
          cases lacks
          have nothing : walk.values = [] := List.eq_nil_of_length_eq_zero (values.trans few)
          simp only [walkTerm, Walk.takeOption, nothing]
          rfl
      · cases lacks
  | identifier name place =>
      simp only [lack?] at lacks
      cases called : evaluator.called? world.env name with
      | none => simp [called] at lacks
      | some method =>
          simp only [called] at lacks
          split at lacks
          · next few =>
              cases lacks
              rw [walkTerm, resolve_called _ _ _ _ _ _ method (here.symm ▸ called),
                invoke_few _ _ _ _ _ (values.symm ▸ few), values]
              rfl
          · cases lacks
  | _ => cases lacks

variable (dependable : evaluator.Dependable terms world)

include dependable

theorem Dependable.fresh (name : String) (place : Position)
    (split : terms = left ++ .option name place :: right)
    (counted : walk.Counted evaluator world.env start right count) :
    walk.options.lookup name = none := by
  rw [lookup_eq_none_iff, counted.options]
  intro waits
  obtain ⟨between, place', behind, rfl, quiet⟩ := evaluator.mem_loose _ right name waits
  obtain ⟨word, there, found, called⟩ :=
    dependable.apart left name place between place' behind split
  simp [quiet word there found] at called

theorem option_counts (name : String) (place : Position)
    (split : terms = left ++ .option name place :: right)
    (counted : walk.Counted evaluator world.env start right count) (enough : count ≠ 0) :
    ∃ next, walkTerm evaluator.onward evaluator (.option name place) walk after = .ok next after ∧
      next.Counted evaluator world.env start (.option name place :: right) (count - 1) := by
  have fresh := dependable.fresh name place split counted
  have nonempty : walk.values ≠ [] := by
    intro empty
    exact enough (by rw [← counted.values, empty, List.length_nil])
  obtain ⟨nearest, others, values⟩ := List.exists_cons_of_ne_nil nonempty
  refine ⟨⟨others, (name, nearest) :: walk.options, place⟩, ?_, ?_, ?_, rfl⟩
  · simp only [walkTerm, Walk.takeOption, values, fresh]
    rfl
  · rw [← counted.values, values, List.length_cons, Nat.add_sub_cancel]
  · simp only [List.map_cons, counted.options, loose]

theorem call_counts (name : String) (place : Position) (method : Method)
    (split : terms = left ++ .identifier name place :: right) (here : after.env = world.env)
    (counted : walk.Counted evaluator world.env start right count)
    (called : evaluator.called? world.env name = some method) (enough : method.arity ≤ count) :
    ∃ next last,
      walkTerm evaluator.onward evaluator (.identifier name place) walk after = .ok next last ∧
      last.env = world.env ∧
      next.Counted evaluator world.env start (.identifier name place :: right)
        (count - (if method.takesRest then count else method.arity) + 1) := by
  have obliging := dependable.methods name method (evaluator.method?_of_called? _ _ _ called)
  have there : method.arity ≤ walk.values.length := counted.values.symm ▸ enough
  have params : (walk.params method).length = method.arity := by
    rw [Walk.params, List.length_take, Nat.min_eq_left there]
  have rest : method.takesRest = false → walk.rest method = [] := by
    intro leaves
    simp [Walk.rest, leaves]
  -- What waits was written in this chain, so the method is one that asks for it.
  have known : ∀ key ∈ walk.options.map Prod.fst, key ∈ Expr.optionNames terms := by
    intro key waits
    rw [counted.options] at waits
    obtain ⟨between, there, behind, rfl, _⟩ := evaluator.mem_loose _ right key waits
    exact Expr.mem_optionNames terms key there (by simp [split])
  obtain ⟨value, options, last, performed, asked⟩ :=
    obliging.succeeds _ _ _ after here params rest known
  have given : options.given = walk.options := perform_given _ _ _ _ _ _ _ performed
  have unused : options.unused = [] := options.unused_eq_nil_iff.mpr (given.symm ▸ asked)
  refine ⟨walk.behindCall method value, last, ?_, ?_, ?_, ?_, ?_⟩
  · simp only [walkTerm, resolve_called _ _ _ _ _ _ method (here.symm ▸ called),
      invoke_enough _ _ _ _ _ there, Bind.bind, EStateM.bind, performed, settle, unused]
    rfl
  · exact obliging.keeps _ _ _ _ _ _ here performed
  · rw [← counted.values]
    cases takes : method.takesRest <;> simp [Walk.behindCall, takes]
  · simp [Walk.behindCall, loose, called]
  · exact counted.optionPlace

theorem word_counts (name : String) (place : Position)
    (split : terms = left ++ .identifier name place :: right) (here : after.env = world.env)
    (counted : walk.Counted evaluator world.env start right count)
    (silent : evaluator.called? world.env name = none) :
    ∃ next,
      walkTerm evaluator.onward evaluator (.identifier name place) walk after = .ok next after ∧
      next.Counted evaluator world.env start (.identifier name place :: right) (count + 1) := by
  obtain ⟨value, seen⟩ := Option.isSome_iff_exists.mp
    (dependable.words name place (by simp [split]) silent)
  refine ⟨walk.add value, resolve_seen _ _ _ _ _ _ value (here.symm ▸ seen), ?_, ?_, ?_⟩
  · simp [Walk.add, counted.values]
  · simp [Walk.add, counted.options, loose, silent]
  · exact counted.optionPlace

theorem plain_counts (plain : term.IsPlain) (split : terms = left ++ term :: right)
    (reached : evaluator.walkBehind terms right world = .ok walk after)
    (here : after.env = world.env)
    (counted : walk.Counted evaluator world.env start right count) :
    ∃ next last, walkTerm evaluator.onward evaluator term walk after = .ok next last ∧
      last.env = world.env ∧
      next.Counted evaluator world.env start (term :: right) (count + 1) := by
  obtain ⟨value, last, evaluated⟩ := dependable.plain left term right walk after split plain reached
  rw [evaluate_eq_evaluateTerm] at evaluated
  refine ⟨walk.add value, last, ?_, ?_, ?_, ?_, ?_⟩
  · rw [walkTerm_plain _ _ _ _ plain]
    simp only [Bind.bind, EStateM.bind, evaluated]
    rfl
  · have keeps := fun name method found => (dependable.methods name method found).keeps
    exact evaluateTerm_keeps keeps term value after last here evaluated
  · simp [Walk.add, counted.values]
  · rw [loose_of_isPlain _ _ _ _ plain]
    exact counted.options
  · rw [Expr.firstOption?_of_isPlain _ _ plain]
    exact counted.optionPlace

theorem walkTerm_counts (split : terms = left ++ term :: right)
    (reached : evaluator.walkBehind terms right world = .ok walk after)
    (here : after.env = world.env)
    (counted : walk.Counted evaluator world.env start right count)
    (enough : evaluator.lack? world.env term count = none) :
    ∃ next last, walkTerm evaluator.onward evaluator term walk after = .ok next last ∧
      last.env = world.env ∧
      next.Counted evaluator world.env start (term :: right)
        (count - evaluator.takes world.env term count + term.adds) := by
  have plainly (plain : term.IsPlain) := plain_counts dependable plain split reached here counted
  cases term with
  | option name place =>
      have nonzero : count ≠ 0 := by
        intro zero
        simp [lack?, zero] at enough
      obtain ⟨next, goes, counted⟩ := option_counts dependable name place split counted nonzero
      exact ⟨next, after, goes, here, counted⟩
  | identifier name place =>
      cases called : evaluator.called? world.env name with
      | none =>
          obtain ⟨next, goes, counted⟩ :=
            word_counts dependable name place split here counted called
          refine ⟨next, after, goes, here, ?_⟩
          simp only [takes, called]
          exact counted
      | some method =>
          have arity : method.arity ≤ count := by
            simpa [lack?, called] using enough
          obtain ⟨next, last, goes, still, counted⟩ :=
            call_counts dependable name place method split here counted called arity
          refine ⟨next, last, goes, still, ?_⟩
          simp only [takes, called]
          exact counted
  | _ => exact plainly trivial

end

/-! The chain. -/

section

variable {evaluator : Evaluator} {terms : List Expr} {world : World}
  (dependable : evaluator.Dependable terms world)

include dependable

-- By induction on the terms that the walk has passed: what has been counted for them is what the
-- walk carries, or tells the fault that has ended it.
theorem walkBehind_tallied (left right : List Expr) (split : terms = left ++ right) :
    match evaluator.tally world.env right with
    | .error fault => ∃ after, after.env = world.env ∧
        evaluator.walkBehind terms right world = .error (.fault fault) after
    | .ok count => ∃ walk after, after.env = world.env ∧
        evaluator.walkBehind terms right world = .ok walk after ∧
        walk.Counted evaluator world.env (Expr.chainPlace terms) right count := by
  induction right generalizing left with
  | nil => exact ⟨_, world, rfl, rfl, rfl, rfl, rfl⟩
  | cons term right ih =>
      have sooner := ih (left ++ [term]) (by simp [split])
      have step : evaluator.walkBehind terms (term :: right) =
          evaluator.walkBehind terms right >>= walkTerm evaluator.onward evaluator term :=
        walkTerms_cons _ _ _ _ _
      rw [tally, step]
      cases tallied : evaluator.tally world.env right with
      | error fault =>
          rw [tallied] at sooner
          obtain ⟨after, here, stopped⟩ := sooner
          refine ⟨after, here, ?_⟩
          simp only [Bind.bind, EStateM.bind, stopped]
      | ok count =>
          rw [tallied] at sooner
          obtain ⟨walk, after, here, reached, counted⟩ := sooner
          simp only [Bind.bind, Except.bind, EStateM.bind, reached]
          cases lacks : evaluator.lack? world.env term count with
          | some fault => exact ⟨after, here, walkTerm_lacks counted.values here fault lacks⟩
          | none =>
              obtain ⟨next, last, goes, still, counted⟩ :=
                walkTerm_counts dependable split reached here counted lacks
              exact ⟨next, last, still, goes, counted⟩

theorem evaluate_verdict :
    match evaluator.verdict world.env terms with
    | some fault => ∃ after, after.env = world.env ∧
        evaluator.evaluate (.chain terms) world = .error (.fault fault) after
    | none => ∃ walk value after, after.env = world.env ∧
        evaluator.walkBehind terms terms world = .ok walk after ∧ walk.values = [value] ∧
        evaluator.evaluate (.chain terms) world = .ok value after := by
  have walked := walkBehind_tallied dependable [] terms rfl
  have whole : evaluator.walkChain terms = evaluator.walkBehind terms terms := rfl
  rw [verdict, evaluate_chain, whole]
  cases tallied : evaluator.tally world.env terms with
  | error fault =>
      rw [tallied] at walked
      obtain ⟨after, here, stopped⟩ := walked
      refine ⟨after, here, ?_⟩
      simp only [Bind.bind, EStateM.bind, stopped]
  | ok count =>
      rw [tallied] at walked
      obtain ⟨⟨values, options, place⟩, after, here, reached, counted⟩ := walked
      obtain ⟨length, names, optionPlace⟩ := counted
      simp only [Bind.bind, EStateM.bind, reached]
      cases loose : evaluator.loose world.env terms with
      | cons name others =>
          have waiting : options ≠ [] := by
            rintro rfl
            exact absurd names (by simp [loose])
          obtain ⟨first, later, rfl⟩ := List.exists_cons_of_ne_nil waiting
          refine ⟨after, here, ?_⟩
          simp only [Walk.result, names, loose, ← optionPlace]
          rfl
      | nil =>
          obtain rfl : options = [] := List.map_eq_nil_iff.mp (names.trans loose)
          by_cases single : count = 1
          · obtain ⟨value, rfl⟩ := List.length_eq_one_iff.mp (length.trans single)
            rw [if_pos single]
            exact ⟨_, value, after, here, rfl, rfl, rfl⟩
          · have several : values.length ≠ 1 := fun one => single (length.symm.trans one)
            rw [if_neg single]
            refine ⟨after, here, ?_⟩
            rw [Walk.result_unconsumed _ _ rfl several]
            simp only [length]
            rfl

end

end Evaluator

end ChainScript
