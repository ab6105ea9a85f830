import ChainScript.Proofs.IntegerRounding
import ChainScript.Proofs.Operands

/-!
Comparing. Order and equality are told by different methods, but where two values have an order, all
six words tell one and the same. Two texts have an order, and two numbers unless one is NaN.
-/

namespace ChainScript.Prelude

open Numeral (extent?)

/-! The order of two values. -/

/-- The order of two numbers, integers by themselves and all others as doubles. -/
def Operand.order? : Operand → Operand → Option Ordering
  | .int a, .int b => some (compare a.toInt b.toInt)
  | left, right => floatOrder left.toFloat right.toFloat

def order? : Value → Value → Option Ordering
  | .text s, .text t => some (compare s t)
  | left, right =>
      match operand? left, operand? right with
      | some x, some y => x.order? y
      | _, _ => none

inductive Comparable : Value → Value → Prop where
  | texts (s t : String) : Comparable (.text s) (.text t)
  | numbers (x y : Operand) (number : x.toFloat.isNaN = false) (number' : y.toFloat.isNaN = false) :
      Comparable x.value y.value

/-- One of the two values at least is no number, and one no text. -/
structure Unlike (left right : Value) : Prop where
  number : operand? left = none ∨ operand? right = none
  text : (isText left && isText right) = false

theorem texts_numbers_or_unlike (left right : Value) :
    (∃ s t, left = .text s ∧ right = .text t) ∨
      (∃ x y : Operand, left = x.value ∧ right = y.value) ∨ Unlike left right := by
  by_cases texts : (isText left && isText right) = true
  · left
    rw [Bool.and_eq_true] at texts
    cases left <;> cases texts.1
    cases right <;> cases texts.2
    exact ⟨_, _, rfl, rfl⟩
  · right
    simp only [← operand?_eq_some_iff]
    cases known : operand? left with
    | none => exact .inr ⟨.inl known, by simpa using texts⟩
    | some x =>
        cases known' : operand? right with
        | none => exact .inr ⟨.inr known', by simpa using texts⟩
        | some y => exact .inl ⟨x, y, rfl, rfl⟩

theorem order?_value (x y : Operand) : order? x.value y.value = x.order? y := by
  cases x <;> cases y <;> rfl

theorem not_unlike_value (x y : Operand) : ¬ Unlike x.value y.value := by
  intro unlike
  rcases unlike.number with other | other
  · cases x <;> cases other
  · cases y <;> cases other

theorem order?_of_unlike (left right : Value) (unlike : Unlike left right) :
    order? left right = none := by
  have nothing : (match operand? left, operand? right with
      | some x, some y => x.order? y
      | _, _ => none) = none := by
    rcases unlike.number with other | other <;> rw [other]
    cases operand? left <;> rfl
  rw [order?, nothing]
  rintro s t rfl rfl
  cases unlike.text

theorem floatOrder_swap (x y : Float) : floatOrder y x = (floatOrder x y).map Ordering.swap := by
  rw [Numeral.floatOrder_eq_orderOf, Numeral.floatOrder_eq_orderOf, Numeral.orderOf_swap]

theorem isSome_floatOrder_iff (x y : Float) :
    (floatOrder x y).isSome ↔ x.isNaN = false ∧ y.isNaN = false := by
  rw [Numeral.floatOrder_eq_orderOf, Numeral.isNaN_eq_false_iff, Numeral.isNaN_eq_false_iff]
  cases extent? x <;> cases extent? y <;> simp [Numeral.orderOf]

theorem beq_eq_floatOrder (x y : Float) : (x == y) = (floatOrder x y == some .eq) := by
  rw [Numeral.beq_eq_orderOf, Numeral.floatOrder_eq_orderOf]

theorem isNaN_toFloat_int (n : Int64) : (Operand.int n).toFloat.isNaN = false := by
  obtain ⟨q, near⟩ := Numeral.ofInteger_nearest n
  exact (Numeral.isNaN_eq_false_iff _).mpr ⟨_, near.value⟩

namespace Operand

variable (x y : Operand)

theorem order?_swap : y.order? x = (x.order? y).map Ordering.swap := by
  cases x with
  | int a =>
      cases y with
      | int b => exact congrArg some Std.OrientedCmp.eq_swap
      | float y => exact floatOrder_swap _ _
  | float x => cases y <;> exact floatOrder_swap _ _

theorem isSome_order?_iff :
    (x.order? y).isSome ↔ x.toFloat.isNaN = false ∧ y.toFloat.isNaN = false := by
  cases x with
  | int a =>
      cases y with
      | int b => exact iff_of_true rfl ⟨isNaN_toFloat_int a, isNaN_toFloat_int b⟩
      | float y => exact isSome_floatOrder_iff _ _
  | float x => cases y <;> exact isSome_floatOrder_iff _ _

theorem equal_value : equal x.value y.value = (x.order? y == some .eq) := by
  cases x with
  | int a =>
      cases y with
      | int b =>
          have same : equal (.int a) (.int b) = (a == b) := rfl
          rw [value, value, same, order?, Bool.eq_iff_iff, beq_iff_eq, beq_iff_eq, Option.some_inj,
            Int.compare_eq_eq, Int64.toInt_inj]
      | float y => exact beq_eq_floatOrder _ _
  | float x => cases y <;> exact beq_eq_floatOrder _ _

end Operand

section

variable (left right : Value)

theorem comparable_iff : Comparable left right ↔ (order? left right).isSome := by
  constructor
  · intro comparable
    cases comparable with
    | texts s t => rfl
    | numbers x y number number' =>
        rw [order?_value]
        exact (x.isSome_order?_iff y).mpr ⟨number, number'⟩
  · intro ordered
    rcases texts_numbers_or_unlike left right with
      ⟨s, t, rfl, rfl⟩ | ⟨x, y, rfl, rfl⟩ | unlike
    · exact .texts s t
    · rw [order?_value, x.isSome_order?_iff y] at ordered
      exact .numbers x y ordered.1 ordered.2
    · rw [order?_of_unlike left right unlike] at ordered
      cases ordered

theorem order?_swap : order? right left = (order? left right).map Ordering.swap := by
  rcases texts_numbers_or_unlike left right with
    ⟨s, t, rfl, rfl⟩ | ⟨x, y, rfl, rfl⟩ | unlike
  · exact congrArg some Std.OrientedCmp.eq_swap
  · rw [order?_value, order?_value, x.order?_swap y]
  · have back : Unlike right left := ⟨unlike.number.symm, by rw [Bool.and_comm, unlike.text]⟩
    rw [order?_of_unlike left right unlike, order?_of_unlike right left back]
    rfl

theorem equal_of_order (told : Ordering) (ordered : order? left right = some told) :
    equal left right = told.isEq := by
  rcases texts_numbers_or_unlike left right with
    ⟨s, t, rfl, rfl⟩ | ⟨x, y, rfl, rfl⟩ | unlike
  · obtain rfl := Option.some.inj ordered
    have same : equal (.text s) (.text t) = (s == t) := rfl
    rw [same, Bool.eq_iff_iff, beq_iff_eq, Ordering.isEq_iff_eq_eq,
      Std.LawfulEqCmp.compare_eq_iff_eq]
  · rw [order?_value] at ordered
    rw [x.equal_value y, ordered]
    cases told <;> rfl
  · rw [order?_of_unlike left right unlike] at ordered
    cases ordered

end

/-! The six words. -/

def Comparison.method (comparison : Comparison) : Method :=
  ⟨comparison.symbol, 2, false, comparisonBody comparison⟩

theorem Comparison.mem_methods (comparison : Comparison) :
    comparison.method ∈ comparisonMethods := by
  cases comparison <;> simp [comparisonMethods, Comparison.method]

section

variable (onward : Onward) (evaluator : Evaluator) (world : World) (options : Options)
  (left right : Value)

theorem perform_order_value (x y : Operand) (next : Option Ordering → Routine) :
    perform onward evaluator (order x.value y.value next) options world =
      perform onward evaluator (next (x.order? y)) options world := by
  cases x <;> cases y <;> rfl

theorem perform_order_unlike (next : Option Ordering → Routine) (floats : FloatsOfPrelude world.env)
    (unlike : Unlike left right) :
    ∃ complaint, perform onward evaluator (order left right next) options world =
      .ok (.error (.complaint complaint), options) world := by
  have asked : order left right next = operand left fun x => operand right fun y =>
      next (floatOrder x.toFloat y.toFloat) := by
    rw [order]
    · rintro s t rfl rfl
      cases unlike.text
    · rintro a b rfl rfl
      cases unlike.number <;> contradiction
  rw [asked]
  cases known : operand? left with
  | none => exact ⟨_, perform_operand_refused world onward evaluator left _ options floats known⟩
  | some x =>
      obtain rfl := (operand?_eq_some_iff left x).mp known
      have other := unlike.number.resolve_left (by simp [known])
      rw [perform_operand]
      exact ⟨_, perform_operand_refused world onward evaluator right _ options floats other⟩

theorem perform_ordered (comparison : Comparison) (told : Ordering)
    (ordered : order? left right = some told) :
    perform onward evaluator (comparisonBody comparison [left, right] []) options world =
      .ok (.ok (.bool (comparison.holds told)), options) world := by
  rcases texts_numbers_or_unlike left right with
    ⟨s, t, rfl, rfl⟩ | ⟨x, y, rfl, rfl⟩ | unlike
  · obtain rfl := Option.some.inj ordered
    rfl
  · rw [order?_value] at ordered
    rw [comparisonBody, perform_order_value, ordered]
    rfl
  · rw [order?_of_unlike left right unlike] at ordered
    cases ordered

theorem perform_unordered (comparison : Comparison)
    (floats : Unlike left right → FloatsOfPrelude world.env)
    (unordered : order? left right = none) :
    ∃ complaint, perform onward evaluator (comparisonBody comparison [left, right] []) options
      world = .ok (.error (.complaint complaint), options) world := by
  rcases texts_numbers_or_unlike left right with
    ⟨s, t, rfl, rfl⟩ | ⟨x, y, rfl, rfl⟩ | unlike
  · cases unordered
  · rw [order?_value] at unordered
    rw [comparisonBody, perform_order_value, unordered]
    exact ⟨_, rfl⟩
  · rw [comparisonBody]
    exact perform_order_unlike onward evaluator world options left right _ (floats unlike) unlike

end

/-- What the six words come to where they stand for the methods of the prelude. -/
structure Tells (world : World)
    (run : String → Value → Value → EStateM.Result Halt World Value) : Prop where
  ordered : ∀ (comparison : Comparison) left right told, order? left right = some told →
    run comparison.symbol left right = .ok (.bool (comparison.holds told)) world
  unordered : ∀ (comparison : Comparison) left right, order? left right = none →
    (Unlike left right → FloatsOfPrelude world.env) →
      Fails world (run comparison.symbol left right)
  equality : ∀ left right, run "==" left right = .ok (.bool (equal left right)) world
  inequality : ∀ left right, run "!=" left right = .ok (.bool (!equal left right)) world

section

variable (evaluator : Evaluator) (world : World)
  (builtin : ∀ method ∈ comparisonMethods,
    evaluator.called? world.env method.name = some method)
  (spelling : Spelling evaluator) (place : Position)

include builtin

theorem tells : Tells world fun name left right => spelling.run name place world left right where
  ordered comparison left right told ordered :=
    spelling.run_answered comparison.method place world left right (.ok _)
      (builtin _ comparison.mem_methods) rfl
      (perform_ordered _ _ _ _ _ _ comparison told ordered)
  unordered comparison left right unordered floats := by
    obtain ⟨complaint, answers⟩ := perform_unordered evaluator.onward evaluator world ⟨[], []⟩ left
      right comparison floats unordered
    have ends := spelling.run_answered comparison.method place world left right (.error complaint)
      (builtin _ comparison.mem_methods) rfl answers
    exact ⟨_, ends⟩
  equality left right :=
    spelling.run_answered ⟨"==", 2, false, equalBody⟩ place world left right (.ok _)
      (builtin _ (by simp [comparisonMethods])) rfl rfl
  inequality left right :=
    spelling.run_answered ⟨"!=", 2, false, unequalBody⟩ place world left right (.ok _)
      (builtin _ (by simp [comparisonMethods])) rfl rfl

end

/-- How the words go together, if `run` tells what comes of each on two values. -/
structure Coherent (world : World)
    (run : String → Value → Value → EStateM.Result Halt World Value) : Prop where
  compared : ∀ a b, Comparable a b → ∀ comparison : Comparison,
    (∃ v, run comparison.symbol a b = .ok (.bool v) world) ∧
      ∃ v, run comparison.symbol b a = .ok (.bool v) world
  refused : ∀ a b, ¬ Comparable a b → ∀ comparison : Comparison,
    Fails world (run comparison.symbol a b) ∧ Fails world (run comparison.symbol b a)
  one_of_three : ∀ a b, Comparable a b → ∃ told : Ordering,
    run "<" a b = .ok (.bool told.isLT) world ∧ run "==" a b = .ok (.bool told.isEq) world ∧
      run ">" a b = .ok (.bool told.isGT) world
  atMost : ∀ a b v, run ">" a b = .ok (.bool v) world → run "<=" a b = .ok (.bool (!v)) world
  atLeast : ∀ a b v, run "<" a b = .ok (.bool v) world → run ">=" a b = .ok (.bool (!v)) world
  unequal : ∀ a b, ∃ v, run "==" a b = .ok (.bool v) world ∧ run "!=" a b = .ok (.bool (!v)) world
  swapped : ∀ a b v, run "<" a b = .ok (.bool v) world → run ">" b a = .ok (.bool v) world

theorem Tells.order_of_answer {run : String → Value → Value → EStateM.Result Halt World Value}
    {world : World} (tells : Tells world run) (comparison : Comparison) (left right : Value)
    (v : Bool) (floats : Unlike left right → FloatsOfPrelude world.env)
    (answered : run comparison.symbol left right = .ok (.bool v) world) :
    ∃ told, order? left right = some told ∧ comparison.holds told = v := by
  cases ordered : order? left right with
  | none =>
      obtain ⟨fault, failed⟩ := tells.unordered comparison left right ordered floats
      rw [answered] at failed
      cases failed
  | some told =>
      have answer := tells.ordered comparison left right told ordered
      rw [answered] at answer
      cases answer
      exact ⟨told, rfl, rfl⟩

theorem Tells.coherent {run : String → Value → Value → EStateM.Result Halt World Value}
    {world : World} (tells : Tells world run) (floats : FloatsOfPrelude world.env) :
    Coherent world run where
  compared a b comparable comparison := by
    obtain ⟨told, ordered⟩ := Option.isSome_iff_exists.mp ((comparable_iff a b).mp comparable)
    have back : order? b a = some told.swap := by rw [order?_swap, ordered, Option.map_some]
    exact ⟨⟨_, tells.ordered comparison a b told ordered⟩,
      ⟨_, tells.ordered comparison b a told.swap back⟩⟩
  refused a b incomparable comparison := by
    have unordered : order? a b = none := by
      rwa [comparable_iff, Option.not_isSome_iff_eq_none] at incomparable
    have back : order? b a = none := by rw [order?_swap, unordered, Option.map_none]
    exact ⟨tells.unordered comparison a b unordered fun _ => floats,
      tells.unordered comparison b a back fun _ => floats⟩
  one_of_three a b comparable := by
    obtain ⟨told, ordered⟩ := Option.isSome_iff_exists.mp ((comparable_iff a b).mp comparable)
    refine ⟨told, tells.ordered .lt a b told ordered, ?_, tells.ordered .gt a b told ordered⟩
    rw [tells.equality, equal_of_order a b told ordered]
  atMost a b v answered := by
    obtain ⟨told, ordered, rfl⟩ := tells.order_of_answer .gt a b v (fun _ => floats) answered
    refine (tells.ordered .le a b told ordered).trans ?_
    cases told <;> rfl
  atLeast a b v answered := by
    obtain ⟨told, ordered, rfl⟩ := tells.order_of_answer .lt a b v (fun _ => floats) answered
    refine (tells.ordered .ge a b told ordered).trans ?_
    cases told <;> rfl
  unequal a b := ⟨equal a b, tells.equality a b, tells.inequality a b⟩
  swapped a b v answered := by
    obtain ⟨told, ordered, rfl⟩ := tells.order_of_answer .lt a b v (fun _ => floats) answered
    have back : order? b a = some told.swap := by rw [order?_swap, ordered, Option.map_some]
    refine (tells.ordered .gt b a told.swap back).trans ?_
    cases told <;> rfl

/-- The six comparisons are coherent. Where their words stand for the methods of the prelude and all
converters to doubles are of the prelude, the four that need an order succeed for the values that
have one, and fail together for all others, in either order of operands. Where they succeed, the
values are less, equal or greater, each exclusively, and the other words are negations of these. -/
theorem comparisons_coherent (evaluator : Evaluator) (world : World)
    (builtin : ∀ method ∈ comparisonMethods,
      evaluator.called? world.env method.name = some method)
    (floats : FloatsOfPrelude world.env) (spelling : Spelling evaluator) (place : Position) :
    Coherent world fun name left right => spelling.run name place world left right :=
  (tells evaluator world builtin spelling place).coherent floats

theorem called?_comparisons : ∀ method ∈ comparisonMethods,
    Evaluator.called? {} World.initial.env method.name = some method := by
  simp only [comparisonMethods, List.map, List.cons_append, List.nil_append, List.forall_mem_cons]
  exact ⟨rfl, rfl, rfl, rfl, rfl, rfl, by simp⟩

/-- An integer and a double next to it, and a text that has no order with a number. -/
theorem comparisons_coherent_mixed :
    let run (name : String) := (@Spelling.literals {}).run name ⟨0, 1⟩ World.initial
    (∀ method ∈ comparisonMethods,
      Evaluator.called? {} World.initial.env method.name = some method) ∧
    FloatsOfPrelude World.initial.env ∧
    run "<" (.int 2) (.float 2.5) = .ok (.bool true) .initial ∧
    run ">=" (.int 2) (.float 2.5) = .ok (.bool false) .initial ∧
    run ">" (.float 2.5) (.int 2) = .ok (.bool true) .initial ∧
    Fails .initial (run "<" (.text "a") (.int 2)) ∧
    Fails .initial (run "<" (.int 2) (.text "a")) := by
  have builtin := called?_comparisons
  have floats : FloatsOfPrelude World.initial.env := by
    have known : World.initial.env.converters = converters := rfl
    simp [FloatsOfPrelude, known, converters, textToName]
  have coherent := comparisons_coherent {} .initial builtin floats .literals ⟨0, 1⟩
  have ordered : order? (.int 2) (.float 2.5) = some .lt := by decide +kernel
  have incomparable : ¬ Comparable (.text "a") (.int 2) := by
    rw [comparable_iff]
    exact Bool.false_ne_true
  have less := (tells {} .initial builtin .literals ⟨0, 1⟩).ordered .lt _ _ _ ordered
  have refused := coherent.refused _ _ incomparable .lt
  exact ⟨builtin, floats, less, coherent.atLeast _ _ _ less, coherent.swapped _ _ _ less, refused⟩

end ChainScript.Prelude
