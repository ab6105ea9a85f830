import ChainScript.Proofs.Counting

/-!
Accounts of values. Where counting decides what becomes of a chain, it also tells where each value
goes. A value that is added goes to one term to its left and to no other, or it is left in the end.
-/

namespace ChainScript

/-! Where values come from. -/

namespace Expr

/-- All values that the terms add. Each is told by its origin, the part of the chain that begins
with the term that has added it. -/
def added : List Expr → List (List Expr)
  | [] => []
  | term :: right => List.replicate term.adds (term :: right) ++ added right

theorem added_nodup (terms : List Expr) : (added terms).Nodup := by
  have shorter (terms : List Expr) :
      ∀ origin ∈ added terms, origin.length ≤ terms.length := by
    induction terms with
    | nil => simp [added]
    | cons term right ih =>
        intro origin found
        rcases List.mem_append.mp found with here | later
        · exact Nat.le_of_eq (congrArg List.length (List.eq_of_mem_replicate here))
        · exact Nat.le_succ_of_le (ih origin later)
  induction terms with
  | nil => exact .nil
  | cons term right ih =>
      refine List.nodup_append.mpr ⟨?_, ih, ?_⟩
      · cases term <;> simp [adds]
      · rintro origin here _ later rfl
        have long := shorter right origin later
        rw [List.eq_of_mem_replicate here, List.length_cons] at long
        omega

end Expr

namespace Evaluator

section

variable (evaluator : Evaluator) (env : Environment)

/-- The origins of the values that there are once the terms are behind, nearest first. -/
def origins : List Expr → List (List Expr)
  | [] => []
  | term :: right =>
      List.replicate term.adds (term :: right) ++
        (origins right).drop (evaluator.takes env term (origins right).length)

def taken (term : Expr) (right : List Expr) : List (List Expr) :=
  (evaluator.origins env right).take
    (evaluator.takes env term (evaluator.origins env right).length)

def consumed : List Expr → List (List Expr)
  | [] => []
  | term :: right => evaluator.taken env term right ++ consumed right

theorem length_origins (terms : List Expr) (count : Nat)
    (tallied : evaluator.tally env terms = .ok count) :
    (evaluator.origins env terms).length = count := by
  induction terms generalizing count with
  | nil =>
      cases tallied
      rfl
  | cons term right ih =>
      rw [tally] at tallied
      cases sooner : evaluator.tally env right with
      | error fault =>
          rw [sooner] at tallied
          cases tallied
      | ok before =>
          simp only [sooner, Bind.bind, Except.bind] at tallied
          split at tallied
          · cases tallied
          · cases tallied
            rw [origins, List.length_append, List.length_replicate, List.length_drop,
              ih before sooner, Nat.add_comm]

theorem conserved (terms : List Expr) :
    (evaluator.consumed env terms ++ evaluator.origins env terms).Perm (Expr.added terms) := by
  induction terms with
  | nil => exact .refl _
  | cons term right ih =>
      have parts : evaluator.taken env term right ++ (evaluator.origins env right).drop
          (evaluator.takes env term (evaluator.origins env right).length) =
            evaluator.origins env right := List.take_append_drop _ _
      rw [← parts] at ih
      simp only [consumed, origins, Expr.added, List.append_assoc]
      generalize evaluator.taken env term right = front at ih ⊢
      generalize (evaluator.origins env right).drop _ = back at ih ⊢
      generalize evaluator.consumed env right = before at ih ⊢
      have later : (before ++ (front ++ (List.replicate term.adds (term :: right) ++ back))).Perm
          (before ++ (List.replicate term.adds (term :: right) ++ (front ++ back))) :=
        (List.perm_append_comm_assoc _ _ _).append_left before
      calc
        List.Perm _ (before ++ (front ++ (List.replicate term.adds (term :: right) ++ back))) :=
          List.perm_append_comm_assoc _ _ _
        List.Perm _ (before ++ (List.replicate term.adds (term :: right) ++ (front ++ back))) :=
          later
        List.Perm _ (List.replicate term.adds (term :: right) ++ (before ++ (front ++ back))) :=
          List.perm_append_comm_assoc _ _ _
        List.Perm _ (List.replicate term.adds (term :: right) ++ Expr.added right) :=
          ih.append_left _

end

section

variable {evaluator : Evaluator} {terms left right : List Expr} {world : World} {walk next : Walk}
  {after last : World} (dependable : evaluator.Dependable terms world)

include dependable

theorem Dependable.env_eq (reached : evaluator.walkBehind terms right world = .ok walk after) :
    after.env = world.env :=
  walkTerms_keeps (fun name method found => (dependable.methods name method found).keeps) _ right
    walk world after rfl reached

-- By induction on the terms that the walk has passed, with one case for each thing that a term can
-- do: the origins are taken off and put on just as the values are.
theorem values_origins (reached : evaluator.walkBehind terms right world = .ok walk after) :
    walk.values.map some =
      (evaluator.origins world.env right).map (evaluator.nearest? terms world) := by
  induction right generalizing walk after with
  | nil =>
      cases reached
      rfl
  | cons term right ih =>
      obtain ⟨earlier, middle, sooner, went⟩ := walkBehind_cons term reached
      have here := dependable.env_eq sooner
      have carried := ih sooner
      have head := nearest?_eq reached
      cases went with
      | value term value after plain silent =>
          have nothing (count : Nat) : evaluator.takes world.env term count = 0 := by
            cases term with
            | identifier name place => simp [takes, here ▸ silent name place rfl]
            | option name place => exact absurd rfl (plain name place)
            | _ => rfl
          have one : term.adds = 1 := by
            cases term with
            | option name place => exact absurd rfl (plain name place)
            | _ => rfl
          simp [origins, nothing, one, head, ← carried, Walk.add]
      | option name place nearest others values fresh =>
          rw [values] at carried
          simp [origins, takes, Expr.adds, ← carried]
      | call name place method answer options after called performed used =>
          have calls : evaluator.called? world.env name = some method := here ▸ called
          cases rest : method.takesRest <;>
            simp [origins, takes, calls, rest, Expr.adds, List.map_drop, head, ← carried,
              Walk.behindCall]

theorem arguments_origins (name : String) (place : Position) (method : Method)
    (reached : evaluator.walkBehind terms right world = .ok walk after)
    (called : evaluator.called? world.env name = some method) :
    (walk.params method ++ walk.rest method).map some =
      (evaluator.taken world.env (.identifier name place) right).map
        (evaluator.nearest? terms world) := by
  have carried := values_origins dependable reached
  cases rest : method.takesRest <;>
    simp [taken, takes, called, rest, List.map_take, ← carried, Walk.params, Walk.rest]

theorem option_origin (name : String) (place : Position)
    (reached : evaluator.walkBehind terms (.option name place :: right) world = .ok next last) :
    ∃ walk after value, evaluator.walkBehind terms right world = .ok walk after ∧
      next.options = (name, value) :: walk.options ∧
      [some value] = (evaluator.taken world.env (.option name place) right).map
        (evaluator.nearest? terms world) := by
  obtain ⟨walk, after, sooner, went⟩ := walkBehind_cons _ reached
  have carried := values_origins dependable sooner
  cases went with
  | value _ _ _ plain _ => exact absurd rfl (plain name place)
  | option _ _ nearest others values fresh =>
      refine ⟨walk, _, nearest, sooner, rfl, ?_⟩
      rw [values] at carried
      simp [taken, takes, List.map_take, ← carried]

end

structure Accounted (evaluator : Evaluator) (terms : List Expr) (world : World) : Prop where
  kept : ∀ right walk after, evaluator.walkBehind terms right world = .ok walk after →
    after.env = world.env
  counted : ∀ right count, evaluator.tally world.env right = .ok count →
    (evaluator.origins world.env right).length = count
  /-- The walk carries, at every point, the values that are there by counting. -/
  carried : ∀ right walk after, evaluator.walkBehind terms right world = .ok walk after →
    walk.values.map some =
      (evaluator.origins world.env right).map (evaluator.nearest? terms world)
  handed : ∀ name place method right walk after,
    evaluator.walkBehind terms right world = .ok walk after →
    evaluator.called? world.env name = some method →
    (walk.params method ++ walk.rest method).map some =
      (evaluator.taken world.env (.identifier name place) right).map
        (evaluator.nearest? terms world)
  named : ∀ name place right next last,
    evaluator.walkBehind terms (.option name place :: right) world = .ok next last →
    ∃ walk after value, evaluator.walkBehind terms right world = .ok walk after ∧
      next.options = (name, value) :: walk.options ∧
      [some value] = (evaluator.taken world.env (.option name place) right).map
        (evaluator.nearest? terms world)
  conserved : ∀ right,
    (evaluator.consumed world.env right ++ evaluator.origins world.env right).Perm
      (Expr.added right)
  distinct : ∀ right, (Expr.added right).Nodup

end Evaluator

/-- Where methods always succeed, ask for all options and leave the environment alone, the number of
values decides. The chain fails at the rightmost term that needs more values than there are, else by
options with no call to their left, else if not just one value is left. Otherwise that value is the
value of the chain. No value is lost or doubled on the way: each one that is added goes to one
method or one option, or it is left in the end. -/
theorem evaluate_counted (evaluator : Evaluator) (terms : List Expr) (world : World)
    (dependable : evaluator.Dependable terms world) :
    (match evaluator.verdict world.env terms with
      | some fault => ∃ after, after.env = world.env ∧
          evaluator.evaluate (.chain terms) world = .error (.fault fault) after
      | none => ∃ value after, after.env = world.env ∧
          evaluator.evaluate (.chain terms) world = .ok value after ∧
          (evaluator.origins world.env terms).map (evaluator.nearest? terms world) =
            [some value]) ∧
    evaluator.Accounted terms world := by
  constructor
  · have decided := Evaluator.evaluate_verdict dependable
    cases verdict : evaluator.verdict world.env terms with
    | some fault =>
        rw [verdict] at decided
        exact decided
    | none =>
        rw [verdict] at decided
        obtain ⟨walk, value, after, here, reached, single, ended⟩ := decided
        have carried := Evaluator.values_origins dependable reached
        rw [single] at carried
        exact ⟨value, after, here, ended, carried.symm⟩
  · constructor
    · intro right walk after reached
      exact dependable.env_eq reached
    · exact evaluator.length_origins world.env
    · intro right walk after reached
      exact Evaluator.values_origins dependable reached
    · intro name place method right walk after reached called
      exact Evaluator.arguments_origins dependable name place method reached called
    · intro name place right next last reached
      exact Evaluator.option_origin dependable name place reached
    · exact evaluator.conserved world.env
    · exact Expr.added_nodup

def Method.lister (name : String) (arity : Nat) (takesRest : Bool) (option : String) : Method where
  name := name
  arity := arity
  takesRest := takesRest
  body params rest := .option option fun _ => .answer (.list (params ++ rest))

theorem Method.lister_obliging (name : String) (arity : Nat) (takesRest : Bool) (option : String)
    (evaluator : Evaluator) (env : Environment) (names : List String)
    (only : ∀ key ∈ names, key = option) :
    (Method.lister name arity takesRest option).Obliging evaluator env names where
  succeeds := by
    intro params rest options world _ _ _ known
    refine ⟨.list (params ++ rest), ⟨options, [option]⟩, world, rfl, ?_⟩
    intro key given
    exact List.mem_singleton.mpr (only key (known key given))
  keeps := by
    intro params rest options world done after here performed
    cases performed
    exact here

/-- A world with a method for pairs and one for lists of any length. -/
def World.listers : World where
  env := { top := { methods := [.lister "pair" 2 false "n", .lister "all" 0 true "n"] } }

theorem World.method?_listers (name : String) (method : Method)
    (found : World.listers.env.method? name = some method) :
    method = .lister "pair" 2 false "n" ∨ method = .lister "all" 0 true "n" := by
  obtain ⟨frame, top, here⟩ := List.exists_of_findSome?_eq_some found
  obtain rfl : frame = World.listers.env.top := List.mem_singleton.mp top
  simpa [World.listers] using List.mem_of_find?_eq_some here

theorem World.listers_dependable (terms : List Expr)
    (known : ∀ term ∈ terms, (∃ n, term = .number (.int n)) ∨
      (∃ place, term = .identifier "pair" place) ∨ (∃ place, term = .identifier "all" place) ∨
      ∃ place, term = .option "n" place)
    (once : (Expr.optionNames terms).length ≤ 1) : Evaluator.Dependable {} terms .listers where
  methods := by
    intro name method found
    have only : ∀ key ∈ Expr.optionNames terms, key = "n" := by
      intro key given
      obtain ⟨term, member, named⟩ := List.mem_filterMap.mp given
      rcases known term member with ⟨_, rfl⟩ | ⟨_, rfl⟩ | ⟨_, rfl⟩ | ⟨_, rfl⟩ <;> cases named
      rfl
    rcases World.method?_listers name method found with rfl | rfl
    · exact Method.lister_obliging _ _ _ _ _ _ _ only
    · exact Method.lister_obliging _ _ _ _ _ _ _ only
  words := by
    intro name place member silent
    rcases known _ member with ⟨_, other⟩ | ⟨_, same⟩ | ⟨_, same⟩ | ⟨_, other⟩
    · cases other
    · cases same
      cases silent
    · cases same
      cases silent
    · cases other
  plain := by
    rintro left term right walk after rfl plain reached
    rcases known term (by simp) with ⟨n, rfl⟩ | ⟨_, rfl⟩ | ⟨_, rfl⟩ | ⟨_, rfl⟩
    · exact ⟨.int n, after, rfl⟩
    · cases plain
    · cases plain
    · cases plain
  apart := by
    rintro left name place between place' right rfl
    simp only [Expr.optionNames, List.filterMap_append, List.filterMap_cons, List.length_append,
      List.length_cons] at once
    omega

/-- `pair 1 all --n 5 2 3`, and with too few values for the pair, or with a value too many. -/
theorem evaluate_counted_pair :
    (∃ value after, Evaluator.evaluate {} (.chain [.identifier "pair" ⟨0, 1⟩, .number (.int 1),
      .identifier "all" ⟨7, 1⟩, .option "n" ⟨11, 1⟩, .number (.int 5), .number (.int 2),
      .number (.int 3)]) .listers = .ok value after) ∧
    (∃ after, Evaluator.evaluate {} (.chain [.identifier "pair" ⟨0, 1⟩, .option "n" ⟨5, 1⟩,
      .number (.int 5), .number (.int 2)]) .listers =
        .error (.fault (.arity "pair" 2 1 ⟨0, 1⟩)) after) ∧
    ∃ after, Evaluator.evaluate {} (.chain [.identifier "pair" ⟨0, 1⟩, .number (.int 1),
      .number (.int 2), .number (.int 3)]) .listers =
        .error (.fault (.unconsumed 2 ⟨0, 1⟩)) after := by
  refine ⟨?_, ?_, ?_⟩
  · obtain ⟨value, after, _, ended, _⟩ := (evaluate_counted {} [.identifier "pair" ⟨0, 1⟩,
      .number (.int 1), .identifier "all" ⟨7, 1⟩, .option "n" ⟨11, 1⟩, .number (.int 5),
      .number (.int 2), .number (.int 3)] .listers
      (World.listers_dependable _ (by simp) (by decide))).1
    exact ⟨value, after, ended⟩
  · obtain ⟨after, _, ended⟩ := (evaluate_counted {} [.identifier "pair" ⟨0, 1⟩,
      .option "n" ⟨5, 1⟩, .number (.int 5), .number (.int 2)] .listers
      (World.listers_dependable _ (by simp) (by decide))).1
    exact ⟨after, ended⟩
  · obtain ⟨after, _, ended⟩ := (evaluate_counted {} [.identifier "pair" ⟨0, 1⟩,
      .number (.int 1), .number (.int 2), .number (.int 3)] .listers
      (World.listers_dependable _ (by simp) (by decide))).1
    exact ⟨after, ended⟩

end ChainScript
