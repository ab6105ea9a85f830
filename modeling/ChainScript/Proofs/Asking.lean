import ChainScript.Proofs.Calls

/-!
Options that a method asks for. Which names are reported as unused depends only on what was given
and what was asked for, and a routine can do nothing to its options but ask. That is a limit of
routines as they are modelled: a host could write a method that overwrites its options or reads
which of them are unused, and nothing here is about such a method.
-/

namespace ChainScript

/-! Lists of names. -/

/-- Whether names are listed in order, without repetitions, and are just those with a property. -/
structure ListsExactly (names : List String) (holds : String → Prop) : Prop where
  sorted : names.Pairwise (· < ·)
  exact : ∀ name, name ∈ names ↔ holds name

theorem ListsExactly.congr {names : List String} {holds holds' : String → Prop}
    (lists : ListsExactly names holds) (same : ∀ name, holds name ↔ holds' name) :
    ListsExactly names holds' :=
  ⟨lists.sorted, fun name => (lists.exact name).trans (same name)⟩

theorem isSome_lookup_iff (bindings : Bindings) (name : String) :
    (bindings.lookup name).isSome ↔ name ∈ bindings.map Prod.fst := by
  induction bindings with
  | nil => simp
  | cons binding rest ih =>
      obtain ⟨key, value⟩ := binding
      simp only [List.lookup_cons, List.map_cons, List.mem_cons, ← ih]
      cases same : name == key with
      | true => simp [beq_iff_eq.mp same]
      | false => simp [beq_eq_false_iff_ne.mp same]

theorem lookup_eq_none_iff (bindings : Bindings) (name : String) :
    bindings.lookup name = none ↔ name ∉ bindings.map Prod.fst := by
  rw [← isSome_lookup_iff, Option.not_isSome_iff_eq_none]

theorem pairwise_sortedNames (names : List String) : (sortedNames names).Pairwise (· ≤ ·) := by
  have ordered : (sortedNames names).Pairwise fun a b => decide (a ≤ b) = true := by
    apply List.pairwise_mergeSort
    · intro a b c first second
      exact decide_eq_true
        (String.le_trans (of_decide_eq_true first) (of_decide_eq_true second))
    · intro a b
      simp [String.le_total a b]
  exact ordered.imp of_decide_eq_true

theorem sortedNames_exact (names : List String) (distinct : names.Nodup) :
    ListsExactly (sortedNames names) (· ∈ names) where
  sorted := by
    have apart : (sortedNames names).Nodup := (List.mergeSort_perm names _).nodup_iff.mpr distinct
    refine (pairwise_sortedNames names).imp₂ ?_ apart
    intro a b below different
    refine Decidable.byContradiction fun above => different ?_
    exact String.le_antisymm below (String.not_lt.mp above)
  exact name := (List.mergeSort_perm names _).mem_iff

/-- The order of names does not matter once they are sorted. -/
theorem sortedNames_perm {names others : List String} (moved : names.Perm others) :
    sortedNames names = sortedNames others := by
  have same : (sortedNames names).Perm (sortedNames others) := calc
    List.Perm _ names := List.mergeSort_perm names _
    List.Perm _ others := moved
    List.Perm _ (sortedNames others) := (List.mergeSort_perm others _).symm
  apply same.eq_of_pairwise
  · exact fun _ _ _ _ below above => String.le_antisymm below above
  · exact pairwise_sortedNames names
  · exact pairwise_sortedNames others

/-! Options and what is asked for. -/

namespace Options

def Unasked (options : Options) (name : String) : Prop :=
  (options.given.lookup name).isSome ∧ name ∉ options.asked

theorem unused_exact (options : Options) (distinct : (options.given.map Prod.fst).Nodup) :
    ListsExactly options.unused options.Unasked where
  sorted := (sortedNames_exact _ (distinct.filter _)).sorted
  exact name := by
    rw [unused, (sortedNames_exact _ (distinct.filter _)).exact, List.mem_filter, Unasked,
      isSome_lookup_iff]
    simp

/-- No option is left unused just if each one that was given was asked for. -/
theorem unused_eq_nil_iff (options : Options) :
    options.unused = [] ↔ ∀ name ∈ options.given.map Prod.fst, name ∈ options.asked := by
  rw [unused, sortedNames, ← List.length_eq_zero_iff, List.length_mergeSort,
    List.length_eq_zero_iff, List.filter_eq_nil_iff]
  simp

def askAll (options : Options) (names : List String) : Options :=
  names.foldl ask options

theorem given_askAll (options : Options) (names : List String) :
    (options.askAll names).given = options.given := by
  induction names generalizing options with
  | nil => rfl
  | cons name rest ih => exact ih (options.ask name)

theorem mem_asked_askAll (options : Options) (names : List String) (name : String) :
    name ∈ (options.askAll names).asked ↔ name ∈ names ∨ name ∈ options.asked := by
  induction names generalizing options with
  | nil => simp [askAll]
  | cons first rest ih =>
      have step := ih (options.ask first)
      simp only [ask, List.mem_cons] at step
      rw [List.mem_cons, or_assoc, or_left_comm]
      exact step

theorem unused_askAll (given : Bindings) (names : List String)
    (distinct : (given.map Prod.fst).Nodup) :
    ListsExactly (Options.askAll ⟨given, []⟩ names).unused fun name =>
      (given.lookup name).isSome ∧ name ∉ names := by
  have same : (Options.askAll ⟨given, []⟩ names).given = given := given_askAll _ _
  apply ((Options.askAll ⟨given, []⟩ names).unused_exact (same.symm ▸ distinct)).congr
  intro name
  simp [Unasked, same, mem_asked_askAll]

end Options

theorem ok_of_bind {α β : Type} {run : Run α} {next : α → Run β} {world last : World} {b : β}
    (ended : (run >>= next) world = .ok b last) :
    ∃ a after, run world = .ok a after ∧ next a after = .ok b last := by
  simp only [Bind.bind, EStateM.bind] at ended
  cases first : run world with
  | ok a after =>
      rw [first] at ended
      exact ⟨a, after, rfl, ended⟩
  | error halt after =>
      rw [first] at ended
      cases ended

theorem inFrame_ok {α : Type} {run : Run α} {world last : World} {a : α}
    (ended : Run.inFrame run world = .ok a last) :
    ∃ after, run { world with env := world.env.push } = .ok a after := by
  simp only [Run.inFrame] at ended
  split at ended
  · next b after inside =>
      obtain ⟨_, _, _, same⟩ := ok_of_bind ended
      cases same
      exact ⟨after, inside⟩
  · obtain ⟨_, _, _, thrown⟩ := ok_of_bind ended
    cases thrown

theorem perform_given (onward : Onward) (evaluator : Evaluator) (routine : Routine)
    (options : Options) (world after : World) (done : Except Fault Value × Options)
    (performed : perform onward evaluator routine options world = .ok done after) :
    done.2.given = options.given := by
  induction routine generalizing options world after done with
  | finish result =>
      cases performed
      rfl
  | panic text => cases performed
  | option name next ih => exact ih _ (options.ask name) _ _ _ performed
  | optionCount next ih => exact ih _ _ _ _ _ performed
  | caller next ih => exact ih _ _ _ _ _ performed
  | register converter next ih | push next ih | pop next ih =>
      obtain ⟨_, _, _, goes⟩ := ok_of_bind performed
      exact ih _ _ _ _ goes
  | inFrame inner next inside ih =>
      obtain ⟨middle, _, framed, goes⟩ := ok_of_bind performed
      obtain ⟨_, within⟩ := inFrame_ok framed
      exact (ih _ _ _ _ _ goes).trans (inside _ _ _ _ within)
  | define name arity takesRest body next _ ih =>
      obtain ⟨_, _, _, goes⟩ := ok_of_bind performed
      exact ih _ _ _ _ _ goes
  | _ =>
      next ih =>
        obtain ⟨_, _, _, goes⟩ := ok_of_bind performed
        exact ih _ _ _ _ _ goes

end ChainScript
