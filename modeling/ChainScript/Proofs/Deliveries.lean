import ChainScript.Prelude
import ChainScript.Proofs.Asking

/-!
Where options go. An option waits for the nearest method to its left, with the value that was
nearest to its right. What waits at a call is just what stands in front of the next call to the
right, and a chain that succeeds has handed over all of its options to methods that asked for them.

Methods are routines here, which ask for options and leave them as they are. A method that
overwrites the options of its own call has no routine.
-/

namespace ChainScript

/-! One term. -/

inductive Went (onward : Onward) (evaluator : Evaluator) (walk : Walk) (world : World) :
    Expr → Walk → World → Prop where
  | value (term : Expr) (value : Value) (after : World)
      (plain : ∀ name place, term ≠ .option name place)
      (silent : ∀ name place, term = .identifier name place →
        evaluator.called? world.env name = none) :
      Went onward evaluator walk world term (walk.add value) after
  | option (name : String) (place : Position) (nearest : Value) (others : List Value)
      (values : walk.values = nearest :: others) (fresh : walk.options.lookup name = none) :
      Went onward evaluator walk world (.option name place)
        ⟨others, (name, nearest) :: walk.options, place⟩ world
  /-- A call takes all options that wait, and has asked for each of them. -/
  | call (name : String) (place : Position) (method : Method) (answer : Value) (options : Options)
      (after : World) (called : evaluator.called? world.env name = some method)
      (performed : perform onward evaluator
        (method.body (walk.params method) (walk.rest method)) ⟨walk.options, []⟩ world =
          .ok (.ok answer, options) after)
      (used : options.unused = []) :
      Went onward evaluator walk world (.identifier name place) (walk.behindCall method answer)
        after

section

variable {onward : Onward} {evaluator : Evaluator} {walk next : Walk} {world after : World}

theorem went_of_invoke (name : String) (place : Position) (method : Method)
    (called : evaluator.called? world.env name = some method)
    (invoked : invoke onward evaluator method place walk world = .ok next after) :
    Went onward evaluator walk world (.identifier name place) next after := by
  rcases Nat.lt_or_ge walk.values.length method.arity with few | enough
  · rw [invoke_few _ _ _ _ _ few] at invoked
    cases invoked
  · rw [invoke_enough _ _ _ _ _ enough] at invoked
    obtain ⟨⟨result, options⟩, middle, performed, settled⟩ := ok_of_bind invoked
    cases result with
    | error cause => cases settled
    | ok answer =>
        cases unused : options.unused with
        | nil =>
            simp only [settle, unused] at settled
            cases settled
            exact .call name place method answer options after called performed unused
        | cons first others =>
            simp only [settle, unused] at settled
            cases settled

theorem walkTerm_went (term : Expr)
    (walked : walkTerm onward evaluator term walk world = .ok next after) :
    Went onward evaluator walk world term next after := by
  cases term with
  | identifier name place =>
      simp only [walkTerm] at walked
      obtain ⟨method, called, invoked⟩ | ⟨value, called, added⟩ | ⟨_, failed⟩ :=
        resolve_cases onward evaluator name place walk world
      · rw [invoked] at walked
        exact went_of_invoke name place method called walked
      · rw [added] at walked
        cases walked
        apply Went.value
        · intro _ _ other
          cases other
        · rintro _ _ ⟨⟩
          exact called
      · rw [failed] at walked
        cases walked
  | option name place =>
      simp only [walkTerm, Walk.takeOption] at walked
      split at walked
      · cases walked
      · next nearest others values =>
          split at walked
          · cases walked
          · next fresh =>
              cases walked
              exact .option name place nearest others values fresh
  | _ =>
      obtain ⟨value, middle, _, added⟩ := ok_of_bind walked
      cases added
      apply Went.value
      · intro _ _ other
        cases other
      · intro _ _ other
        cases other

end

/-! What waits. -/

namespace Evaluator

variable (evaluator : Evaluator) (terms : List Expr) (world : World)

/-- The walk through a chain as far as only the terms in front of `behind` are left. -/
def walkBehind (behind : List Expr) : Run Walk :=
  walkTerms evaluator.onward evaluator (.start (Expr.chainPlace terms)) behind

def nearest? (behind : List Expr) : Option Value :=
  match evaluator.walkBehind terms behind world with
  | .ok walk _ => walk.values.head?
  | .error _ _ => none

def methodAt? (term : Expr) (behind : List Expr) : Option Method :=
  match term, evaluator.walkBehind terms behind world with
  | .identifier name _, .ok _ after => evaluator.called? after.env name
  | _, _ => none

def Silent : List Expr → List Expr → Prop
  | [], _ => True
  | term :: part, behind =>
      evaluator.methodAt? terms world term (part ++ behind) = none ∧ Silent part behind

/-- What waits for a call: the options with no call between them and the end of the walk, each
with the value that was nearest to it. -/
def Waiting (behind : List Expr) (name : String) (value : Value) : Prop :=
  ∃ between place right, behind = between ++ .option name place :: right ∧
    evaluator.Silent terms world between (.option name place :: right) ∧
    evaluator.nearest? terms world right = some value

/-- What becomes of an option: the nearest word to its left that calls a method, and no other, hands
it over with the value that was nearest to it, and the method asks for it. -/
def Delivered (left : List Expr) (name : String) (place : Position) (right : List Expr) : Prop :=
  ∃ far caller callPlace between method walk after nearest answer options later,
    left = far ++ .identifier caller callPlace :: between ∧
    evaluator.Silent terms world between (.option name place :: right) ∧
    (∀ far' term between', left = far' ++ term :: between' →
      evaluator.Silent terms world between' (.option name place :: right) →
      evaluator.methodAt? terms world term (between' ++ .option name place :: right) ≠ none →
      between = between') ∧
    evaluator.walkBehind terms (between ++ .option name place :: right) world = .ok walk after ∧
    evaluator.called? after.env caller = some method ∧
    evaluator.nearest? terms world right = some nearest ∧
    walk.options.lookup name = some nearest ∧
    perform evaluator.onward evaluator (method.body (walk.params method) (walk.rest method))
      ⟨walk.options, []⟩ after = .ok (.ok answer, options) later ∧
    name ∈ options.asked

section

variable {evaluator terms world} {behind : List Expr} {walk next : Walk} {after last : World}

theorem walkBehind_cons (term : Expr)
    (walked : evaluator.walkBehind terms (term :: behind) world = .ok next last) :
    ∃ walk after, evaluator.walkBehind terms behind world = .ok walk after ∧
      Went evaluator.onward evaluator walk after term next last := by
  rw [walkBehind, walkTerms_cons] at walked
  obtain ⟨walk, after, sooner, goes⟩ := ok_of_bind walked
  exact ⟨walk, after, sooner, walkTerm_went term goes⟩

theorem walkBehind_append (part : List Expr)
    (walked : evaluator.walkBehind terms (part ++ behind) world = .ok next last) :
    ∃ walk after, evaluator.walkBehind terms behind world = .ok walk after := by
  rw [walkBehind, walkTerms_append] at walked
  obtain ⟨walk, after, sooner, _⟩ := ok_of_bind walked
  exact ⟨walk, after, sooner⟩

theorem methodAt?_identifier (walked : evaluator.walkBehind terms behind world = .ok walk after)
    (name : String) (place : Position) :
    evaluator.methodAt? terms world (.identifier name place) behind =
      evaluator.called? after.env name := by
  simp only [methodAt?, walked]

theorem nearest?_eq (walked : evaluator.walkBehind terms behind world = .ok walk after) :
    evaluator.nearest? terms world behind = walk.values.head? := by
  simp only [nearest?, walked]

theorem waiting_cons (term : Expr) (behind : List Expr) (name : String) (value : Value) :
    evaluator.Waiting terms world (term :: behind) name value ↔
      (∃ place, term = .option name place ∧ evaluator.nearest? terms world behind = some value) ∨
        (evaluator.methodAt? terms world term behind = none ∧
          evaluator.Waiting terms world behind name value) := by
  constructor
  · rintro ⟨between, place, right, split, silent, nearest⟩
    cases between with
    | nil =>
        cases split
        exact .inl ⟨place, rfl, nearest⟩
    | cons first between =>
        cases split
        exact .inr ⟨silent.1, between, place, right, rfl, silent.2, nearest⟩
  · rintro (⟨place, rfl, nearest⟩ | ⟨quiet, between, place, right, rfl, silent, nearest⟩)
    · exact ⟨[], place, behind, rfl, trivial, nearest⟩
    · exact ⟨term :: between, place, right, rfl, ⟨quiet, silent⟩, nearest⟩

-- By induction on the terms that the walk has passed, with one case for each thing that a term can
-- do. An option of a name that waits already would have ended the walk.
theorem lookup_options_iff (walked : evaluator.walkBehind terms behind world = .ok walk after)
    (name : String) (value : Value) :
    walk.options.lookup name = some value ↔ evaluator.Waiting terms world behind name value := by
  induction behind generalizing walk after with
  | nil =>
      cases walked
      constructor
      · intro found
        cases found
      · rintro ⟨between, _, _, split, _⟩
        cases between <;> cases split
  | cons term behind ih =>
      obtain ⟨middle, earlier, sooner, went⟩ := walkBehind_cons term walked
      have waits := ih sooner
      rw [waiting_cons]
      cases went with
      | value term added after plain silent =>
          have quiet : evaluator.methodAt? terms world term behind = none := by
            cases term with
            | identifier word place =>
                rw [methodAt?_identifier sooner]
                exact silent word place rfl
            | _ => rfl
          simp [plain, quiet, ← waits, Walk.add]
      | option key place nearest others values fresh =>
          have head := nearest?_eq sooner
          rw [values] at head
          have quiet : evaluator.methodAt? terms world (.option key place) behind = none := rfl
          by_cases same : name = key
          · subst same
            have unnamed : ¬ evaluator.Waiting terms world behind name value := by
              rw [← waits, fresh]
              exact (Option.some_ne_none value).symm
            simp [head, unnamed]
          · have other : (name == key) = false := beq_eq_false_iff_ne.mpr same
            simp [List.lookup_cons, other, waits, quiet, Ne.symm same]
      | call word place method answer options after called performed used =>
          have calls : evaluator.methodAt? terms world (.identifier word place) behind =
              some method := (methodAt?_identifier sooner word place).trans called
          simp [Walk.behindCall, calls]

theorem options_distinct (walked : evaluator.walkBehind terms behind world = .ok walk after) :
    (walk.options.map Prod.fst).Nodup := by
  induction behind generalizing walk after with
  | nil =>
      cases walked
      exact .nil
  | cons term behind ih =>
      obtain ⟨middle, earlier, sooner, went⟩ := walkBehind_cons term walked
      have distinct := ih sooner
      cases went with
      | value term value after plain silent => exact distinct
      | option key place nearest others values fresh =>
          exact List.nodup_cons.mpr ⟨(lookup_eq_none_iff _ key).mp fresh, distinct⟩
      | call word place method answer options after called performed used => exact .nil

theorem exists_caller (part : List Expr) (loud : ¬ evaluator.Silent terms world part behind) :
    ∃ far term between, part = far ++ term :: between ∧
      evaluator.Silent terms world between behind ∧
      evaluator.methodAt? terms world term (between ++ behind) ≠ none := by
  induction part with
  | nil => exact absurd trivial loud
  | cons term part ih =>
      by_cases silent : evaluator.Silent terms world part behind
      · exact ⟨[], term, part, rfl, silent, fun quiet => loud ⟨quiet, silent⟩⟩
      · obtain ⟨far, caller, between, rfl, rest⟩ := ih silent
        exact ⟨term :: far, caller, between, rfl, rest⟩

theorem methodAt?_of_silent (front : List Expr) (term : Expr) (part : List Expr)
    (silent : evaluator.Silent terms world (front ++ term :: part) behind) :
    evaluator.methodAt? terms world term (part ++ behind) = none := by
  induction front with
  | nil => exact silent.1
  | cons first front ih => exact ih silent.2

theorem caller_unique (far far' : List Expr) (term term' : Expr) (between between' : List Expr)
    (same : far ++ term :: between = far' ++ term' :: between')
    (silent : evaluator.Silent terms world between behind)
    (calls : evaluator.methodAt? terms world term (between ++ behind) ≠ none)
    (silent' : evaluator.Silent terms world between' behind)
    (calls' : evaluator.methodAt? terms world term' (between' ++ behind) ≠ none) :
    between = between' := by
  rcases List.append_eq_append_iff.mp same with ⟨more, _, split⟩ | ⟨more, _, split⟩
  · cases more with
    | nil => exact (List.cons.inj split).2
    | cons first more =>
        obtain ⟨-, rfl⟩ := List.cons.inj split
        exact absurd (methodAt?_of_silent more term' between' silent) calls'
  · cases more with
    | nil => exact (List.cons.inj split).2.symm
    | cons first more =>
        obtain ⟨-, rfl⟩ := List.cons.inj split
        exact absurd (methodAt?_of_silent more term between silent') calls

/-- A term that ends the walk ends the chain, whatever stands in front of it. -/
theorem evaluate_stopped (left : List Expr) (term : Expr) (halt : Halt)
    (split : terms = left ++ term :: behind)
    (walked : evaluator.walkBehind terms behind world = .ok walk after)
    (stops : walkTerm evaluator.onward evaluator term walk after = .error halt last) :
    evaluator.evaluate (.chain terms) world = .error halt last := by
  have reached : evaluator.walkBehind terms (term :: behind) world = .error halt last := by
    rw [walkBehind, walkTerms_cons]
    simp only [walkBehind] at walked
    simp only [Bind.bind, EStateM.bind, walked, stops]
  have whole : evaluator.walkChain terms world = .error halt last := by
    have start : evaluator.walkChain terms =
        evaluator.walkBehind terms (left ++ term :: behind) := by
      rw [← split]
      rfl
    rw [start, walkBehind, walkTerms_append]
    simp only [walkBehind] at reached
    simp only [Bind.bind, EStateM.bind, reached]
  rw [evaluate_chain]
  simp only [Bind.bind, EStateM.bind, whole]

theorem asked_of_unused (method : Method) (params rest : List Value) (name : String)
    (value : Value) (answer : Except Fault Value) (options : Options)
    (performed : perform evaluator.onward evaluator (method.body params rest) ⟨walk.options, []⟩
      after = .ok (answer, options) last)
    (used : options.unused = []) (given : walk.options.lookup name = some value) :
    name ∈ options.asked := by
  have same : options.given = walk.options := perform_given _ _ _ _ _ _ _ performed
  apply options.unused_eq_nil_iff.mp used
  rw [same, ← isSome_lookup_iff, given]
  rfl

theorem nearest?_of_option (name : String) (place : Position) (right : List Expr)
    (walked : evaluator.walkBehind terms (.option name place :: right) world = .ok next last) :
    ∃ nearest, evaluator.nearest? terms world right = some nearest := by
  obtain ⟨walk, after, sooner, went⟩ := walkBehind_cons _ walked
  cases went with
  | value _ _ _ plain _ => exact absurd rfl (plain name place)
  | option _ _ nearest others values fresh =>
      refine ⟨nearest, ?_⟩
      rw [nearest?_eq sooner, values]
      rfl

theorem call_of_methodAt? (term : Expr)
    (walked : evaluator.walkBehind terms (term :: behind) world = .ok next last)
    (calls : evaluator.methodAt? terms world term behind ≠ none) :
    ∃ caller place method walk after answer options, term = .identifier caller place ∧
      evaluator.walkBehind terms behind world = .ok walk after ∧
      evaluator.called? after.env caller = some method ∧
      perform evaluator.onward evaluator (method.body (walk.params method) (walk.rest method))
        ⟨walk.options, []⟩ after = .ok (.ok answer, options) last ∧
      options.unused = [] := by
  obtain ⟨walk, after, sooner, went⟩ := walkBehind_cons term walked
  cases went with
  | value _ _ _ _ silent =>
      cases term with
      | identifier caller place =>
          rw [methodAt?_identifier sooner] at calls
          exact absurd (silent caller place rfl) calls
      | _ => exact absurd rfl calls
  | option _ _ _ _ _ _ => exact absurd rfl calls
  | call caller place method answer options _ called performed used =>
      exact ⟨caller, place, method, walk, after, answer, options, rfl, sooner, called, performed,
        used⟩

theorem exists_caller_of_option (left : List Expr) (name : String) (place : Position)
    (right : List Expr) (nearest : Value)
    (walked : evaluator.walkBehind terms (left ++ .option name place :: right) world =
      .ok walk last)
    (nothing : walk.options = []) (near : evaluator.nearest? terms world right = some nearest) :
    ∃ far term between, left = far ++ term :: between ∧
      evaluator.Silent terms world between (.option name place :: right) ∧
      evaluator.methodAt? terms world term (between ++ .option name place :: right) ≠ none := by
  apply exists_caller
  intro silent
  have waits := (lookup_options_iff walked name nearest).mpr
    ⟨left, place, right, rfl, silent, near⟩
  rw [nothing] at waits
  cases waits

theorem option_delivered (left : List Expr) (name : String) (place : Position)
    (right : List Expr) (split : terms = left ++ .option name place :: right) (result : Value)
    (succeeds : evaluator.evaluate (.chain terms) world = .ok result last) :
    evaluator.Delivered terms world left name place right := by
  obtain ⟨walk, walked, nothing, _⟩ := evaluator.evaluate_chain_ok terms result world last succeeds
  have whole : evaluator.walkBehind terms (left ++ .option name place :: right) world =
      .ok walk last := by
    rw [← split]
    exact walked
  obtain ⟨_, _, passed⟩ := walkBehind_append left whole
  obtain ⟨nearest, near⟩ := nearest?_of_option name place right passed
  obtain ⟨far, term, between, rfl, silent, calls⟩ :=
    exists_caller_of_option left name place right nearest whole nothing near
  rw [List.append_assoc, List.cons_append] at whole
  obtain ⟨_, later, through⟩ := walkBehind_append far whole
  obtain ⟨caller, callPlace, method, call, after, answer, options, rfl, reached, called, performed,
    used⟩ := call_of_methodAt? term through calls
  have waits := (lookup_options_iff reached name nearest).mpr
    ⟨between, place, right, rfl, silent, near⟩
  have asked := asked_of_unused method _ _ name nearest _ options performed used waits
  have only := fun far' term between' same silent' calls' =>
    caller_unique far far' _ term between between' same silent calls silent' calls'
  exact ⟨far, caller, callPlace, between, method, call, after, nearest, answer, options, later, rfl,
    silent, only, reached, called, near, waits, performed, asked⟩

/-! Options that are in the way. -/

theorem option_missing (left : List Expr) (name : String) (place : Position)
    (split : terms = left ++ .option name place :: behind)
    (walked : evaluator.walkBehind terms behind world = .ok walk after)
    (nothing : walk.values = []) :
    evaluator.evaluate (.chain terms) world =
      .error (.fault (.missingOptionValue name place)) after := by
  apply evaluate_stopped left (.option name place) _ split walked
  simp only [walkTerm, Walk.takeOption, nothing]
  rfl

theorem option_duplicate (left : List Expr) (name : String) (place : Position)
    (nearest value : Value) (others : List Value)
    (split : terms = left ++ .option name place :: behind)
    (walked : evaluator.walkBehind terms behind world = .ok walk after)
    (values : walk.values = nearest :: others)
    (waits : evaluator.Waiting terms world behind name value) :
    evaluator.evaluate (.chain terms) world =
      .error (.fault (.duplicateOption name place)) after := by
  have pending := (lookup_options_iff walked name value).mpr waits
  apply evaluate_stopped left (.option name place) _ split walked
  simp only [walkTerm, Walk.takeOption, values, pending]
  rfl

theorem options_unused (left : List Expr) (caller : String) (place : Position) (method : Method)
    (answer : Value) (options : Options)
    (split : terms = left ++ .identifier caller place :: behind)
    (walked : evaluator.walkBehind terms behind world = .ok walk after)
    (called : evaluator.called? after.env caller = some method)
    (enough : method.arity ≤ walk.values.length)
    (performed : perform evaluator.onward evaluator
      (method.body (walk.params method) (walk.rest method)) ⟨walk.options, []⟩ after =
        .ok (.ok answer, options) last)
    (unasked : ∃ name, (walk.options.lookup name).isSome ∧ name ∉ options.asked) :
    ∃ names, evaluator.evaluate (.chain terms) world =
        .error (.fault (.unusedOptions method.name names place)) last ∧
      ListsExactly names fun name =>
        (walk.options.lookup name).isSome ∧ name ∉ options.asked := by
  have same : options.given = walk.options := perform_given _ _ _ _ _ _ _ performed
  have lists : ListsExactly options.unused fun name =>
      (walk.options.lookup name).isSome ∧ name ∉ options.asked :=
    same ▸ options.unused_exact (same ▸ options_distinct walked)
  refine ⟨options.unused, ?_, lists⟩
  apply evaluate_stopped left (.identifier caller place) _ split walked
  simp only [walkTerm, resolve_called _ _ _ _ _ _ method called, invoke_enough _ _ _ _ _ enough,
    Bind.bind, EStateM.bind, performed, settle]
  cases unused : options.unused with
  | nil =>
      obtain ⟨name, given⟩ := unasked
      rw [unused] at lists
      exact absurd ((lists.exact name).mpr given) List.not_mem_nil
  | cons first others => rfl

theorem options_dangling (walked : evaluator.walkChain terms world = .ok walk last)
    (waiting : walk.options ≠ []) :
    ∃ names, evaluator.evaluate (.chain terms) world =
        .error (.fault (.danglingOptions names walk.optionPlace)) last ∧
      ListsExactly names fun name => ∃ value, evaluator.Waiting terms world terms name value := by
  have reached : evaluator.walkBehind terms terms world = .ok walk last := walked
  refine ⟨sortedNames (walk.options.map Prod.fst), ?_,
    (sortedNames_exact _ (options_distinct reached)).congr ?_⟩
  · rw [evaluate_chain]
    simp only [Bind.bind, EStateM.bind, walked, Walk.result]
    split
    · next empty _ => exact absurd empty waiting
    · next empty _ => exact absurd empty waiting
    · rfl
  · intro name
    rw [← isSome_lookup_iff, Option.isSome_iff_exists]
    exact exists_congr fun value => lookup_options_iff reached name value

end

end Evaluator

/-- No option is lost or goes to the wrong call. At every point of the walk through a chain the
options that have been met and wait are those with no call behind them, each with the value that was
nearest to it; a call is handed all of them. If the chain has a value, each of its options was
delivered. If an option has no value, or waits already under its name, the chain fails there; so it
does at a call that leaves names of its options unasked, and at the end if options are left. What
counts as unasked does not depend on the order of the questions or on names that were not given. All
this is told of methods that deal with their options by asking. -/
theorem evaluate_deliveries (evaluator : Evaluator) (terms : List Expr) (world : World) :
    (∀ behind walk after, evaluator.walkBehind terms behind world = .ok walk after →
      ∀ name value, walk.options.lookup name = some value ↔
        evaluator.Waiting terms world behind name value) ∧
    (∀ result last, evaluator.evaluate (.chain terms) world = .ok result last →
      ∀ left name place right, terms = left ++ .option name place :: right →
        evaluator.Delivered terms world left name place right) ∧
    (∀ left name place right walk after, terms = left ++ .option name place :: right →
      evaluator.walkBehind terms right world = .ok walk after →
      (walk.values = [] →
        evaluator.evaluate (.chain terms) world =
          .error (.fault (.missingOptionValue name place)) after) ∧
      ∀ nearest others value, walk.values = nearest :: others →
        evaluator.Waiting terms world right name value →
          evaluator.evaluate (.chain terms) world =
            .error (.fault (.duplicateOption name place)) after) ∧
    (∀ left caller place behind walk after method answer options last,
      terms = left ++ .identifier caller place :: behind →
      evaluator.walkBehind terms behind world = .ok walk after →
      evaluator.called? after.env caller = some method → method.arity ≤ walk.values.length →
      perform evaluator.onward evaluator (method.body (walk.params method) (walk.rest method))
        ⟨walk.options, []⟩ after = .ok (.ok answer, options) last →
      (∃ name, (walk.options.lookup name).isSome ∧ name ∉ options.asked) →
        ∃ names, evaluator.evaluate (.chain terms) world =
            .error (.fault (.unusedOptions method.name names place)) last ∧
          ListsExactly names fun name =>
            (walk.options.lookup name).isSome ∧ name ∉ options.asked) ∧
    (∀ walk last, evaluator.walkChain terms world = .ok walk last → walk.options ≠ [] →
      ∃ names, evaluator.evaluate (.chain terms) world =
          .error (.fault (.danglingOptions names walk.optionPlace)) last ∧
        ListsExactly names fun name => ∃ value, evaluator.Waiting terms world terms name value) ∧
    (∀ (given : Bindings) (names : List String), (given.map Prod.fst).Nodup →
      ListsExactly (Options.askAll ⟨given, []⟩ names).unused fun name =>
        (given.lookup name).isSome ∧ name ∉ names) := by
  refine ⟨?_, ?_, ?_, ?_, ?_, ?_⟩
  · intro behind walk after walked name value
    exact Evaluator.lookup_options_iff walked name value
  · intro result last succeeds left name place right split
    exact Evaluator.option_delivered left name place right split result succeeds
  · intro left name place right walk after split walked
    constructor
    · exact Evaluator.option_missing left name place split walked
    · intro nearest others value values waits
      exact Evaluator.option_duplicate left name place nearest value others split walked values
        waits
  · intro left caller place behind walk after method answer options last split walked called enough
      performed unasked
    exact Evaluator.options_unused left caller place method answer options split walked called
      enough performed unasked
  · intro walk last walked waiting
    exact Evaluator.options_dangling walked waiting
  · intro given names distinct
    exact Options.unused_askAll given names distinct

def World.initial : World := { env := Prelude.environment }

theorem evaluate_join :
    Evaluator.evaluate {} (.chain [.identifier "join" ⟨0, 1⟩, .option "sep" ⟨5, 1⟩, .text "-",
      .text "a", .text "b"]) .initial = .ok (.text "a-b") .initial := by
  have unused : Options.unused ⟨[("sep", .text "-")], ["sep"]⟩ = [] := by
    simp [Options.unused, sortedNames]
  have invoked : invoke (Evaluator.onward {}) {} ⟨"join", 0, true, Prelude.joinBody⟩ ⟨0, 1⟩
      ⟨[.text "a", .text "b"], [("sep", .text "-")], ⟨5, 1⟩⟩ .initial =
        .ok ⟨[.text "a-b"], [], ⟨5, 1⟩⟩ .initial := calc
    _ = settle ⟨"join", 0, true, Prelude.joinBody⟩ ⟨0, 1⟩
          ⟨[.text "a", .text "b"], [("sep", .text "-")], ⟨5, 1⟩⟩
          (.ok (.text "a-b"), ⟨[("sep", .text "-")], ["sep"]⟩) .initial := by
      rw [invoke_enough _ _ _ _ _ (Nat.zero_le _)]
      rfl
    _ = _ := by
      simp only [settle, unused]
      rfl
  have walked : Evaluator.walkChain {} [.identifier "join" ⟨0, 1⟩, .option "sep" ⟨5, 1⟩,
      .text "-", .text "a", .text "b"] .initial =
        invoke (Evaluator.onward {}) {} ⟨"join", 0, true, Prelude.joinBody⟩ ⟨0, 1⟩
          ⟨[.text "a", .text "b"], [("sep", .text "-")], ⟨5, 1⟩⟩ .initial := rfl
  rw [Evaluator.evaluate_chain]
  simp only [Bind.bind, EStateM.bind, walked, invoked]
  rfl

/-- `join --sep "-" "a" "b"`, and chains with an option that has no value, is given twice, is not
asked for, or has no method to its left. -/
theorem evaluate_deliveries_join :
    Evaluator.Delivered {} [.identifier "join" ⟨0, 1⟩, .option "sep" ⟨5, 1⟩, .text "-", .text "a",
        .text "b"] .initial [.identifier "join" ⟨0, 1⟩] "sep" ⟨5, 1⟩
      [.text "-", .text "a", .text "b"] ∧
    Evaluator.evaluate {} (.chain [.option "sep" ⟨0, 1⟩]) .initial =
      .error (.fault (.missingOptionValue "sep" ⟨0, 1⟩)) .initial ∧
    Evaluator.evaluate {} (.chain [.option "sep" ⟨0, 1⟩, .text "-", .option "sep" ⟨10, 1⟩,
        .text "-"]) .initial =
      .error (.fault (.duplicateOption "sep" ⟨0, 1⟩)) .initial ∧
    (∃ names, Evaluator.evaluate {} (.chain [.identifier "list" ⟨0, 1⟩, .option "sep" ⟨5, 1⟩,
          .text "-"]) .initial = .error (.fault (.unusedOptions "list" names ⟨0, 1⟩)) .initial ∧
      "sep" ∈ names) ∧
    (∃ names, Evaluator.evaluate {} (.chain [.option "sep" ⟨0, 1⟩, .text "-"]) .initial =
        .error (.fault (.danglingOptions names ⟨0, 1⟩)) .initial ∧ "sep" ∈ names) ∧
    "b" ∈ (Options.askAll ⟨[("a", .empty), ("b", .empty)], []⟩ ["c", "a"]).unused := by
  refine ⟨?_, ?_, ?_, ?_, ?_, ?_⟩
  · exact (evaluate_deliveries {} _ .initial).2.1 _ _ evaluate_join [.identifier "join" ⟨0, 1⟩]
      "sep" ⟨5, 1⟩ _ rfl
  · exact ((evaluate_deliveries {} _ .initial).2.2.1 [] "sep" ⟨0, 1⟩ [] _ _ rfl rfl).1 rfl
  · exact ((evaluate_deliveries {} _ .initial).2.2.1 [] "sep" ⟨0, 1⟩ _ _ _ rfl rfl).2 _ _
      (.text "-") rfl ⟨[.text "-"], ⟨10, 1⟩, [.text "-"], rfl, ⟨rfl, trivial⟩, rfl⟩
  · obtain ⟨names, ended, lists⟩ := (evaluate_deliveries {} [.identifier "list" ⟨0, 1⟩,
      .option "sep" ⟨5, 1⟩, .text "-"] .initial).2.2.2.1 [] "list" ⟨0, 1⟩ _ _ _
        ⟨"list", 0, true, Prelude.listBody⟩ (.list []) ⟨[("sep", .text "-")], []⟩ _ rfl rfl rfl
        (Nat.zero_le _) rfl ⟨"sep", rfl, List.not_mem_nil⟩
    exact ⟨names, ended, (lists.exact "sep").mpr ⟨rfl, List.not_mem_nil⟩⟩
  · obtain ⟨names, ended, lists⟩ := (evaluate_deliveries {} [.option "sep" ⟨0, 1⟩, .text "-"]
      .initial).2.2.2.2.1 ⟨[], [("sep", .text "-")], ⟨0, 1⟩⟩ _ rfl (List.cons_ne_nil _ _)
    exact ⟨names, ended, (lists.exact "sep").mpr
      ⟨.text "-", [], ⟨0, 1⟩, [.text "-"], rfl, trivial, rfl⟩⟩
  · exact (((evaluate_deliveries {} [] .initial).2.2.2.2.2 [("a", .empty), ("b", .empty)] ["c", "a"]
      (by decide)).exact "b").mpr ⟨rfl, by decide⟩

end ChainScript
