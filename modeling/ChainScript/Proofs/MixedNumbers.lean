import ChainScript.Proofs.Comparing

/-!
Integers beside doubles. An integer is compared with a double as the nearest double to it, and with
an integer by itself. So the order of numbers is transitive, but two integers that are not doubles
can be equal to one double.
-/

namespace ChainScript.Numeral

/-! What the nearest double tells about an integer. -/

namespace Nearest

variable {n : Int} {x : Float} {q : ℚ} (near : Nearest n x q) (p : ℚ)

include near

theorem isValue : IsValue q := ⟨x, near.value⟩

theorem lt_of_lt (value : IsValue p) (above : q < p) : n < p := by
  by_contra below
  have distance := near.nearest p value
  rw [abs_of_pos (by linarith), abs_of_nonneg (by linarith)] at distance
  linarith

theorem gt_of_gt (value : IsValue p) (below : p < q) : p < n := by
  by_contra above
  have distance := near.nearest p value
  rw [abs_of_neg (by linarith), abs_of_nonpos (by linarith)] at distance
  linarith

theorem eq_of_isValue (value : IsValue n) : q = n := by
  have distance := near.nearest n value
  rw [sub_self, abs_zero] at distance
  exact (sub_eq_zero.mp (abs_nonpos_iff.mp distance)).symm

theorem lt_iff (value : IsValue p) : q < p ↔ n < p ∧ p ≠ q := by
  constructor
  · intro above
    exact ⟨near.lt_of_lt p value above, above.ne'⟩
  · rintro ⟨above, other⟩
    by_contra below
    have lower := near.gt_of_gt p value (lt_of_le_of_ne (not_lt.mp below) other)
    linarith

theorem gt_iff (value : IsValue p) : p < q ↔ p < n ∧ p ≠ q := by
  constructor
  · intro below
    exact ⟨near.gt_of_gt p value below, below.ne⟩
  · rintro ⟨below, other⟩
    by_contra above
    have upper := near.lt_of_lt p value (lt_of_le_of_ne (not_lt.mp above) other.symm)
    linarith

theorem le_of_lt {k : Int} {y : Float} (near' : Nearest k y p) (less : n < k) : q ≤ p := by
  by_contra below
  rw [not_le] at below
  have order : (n : ℚ) < k := by exact_mod_cast less
  have lower := near.gt_of_gt p near'.isValue below
  have upper := near'.lt_of_lt q near.isValue below
  have distance := near.nearest p near'.isValue
  have distance' := near'.nearest q near.isValue
  rw [abs_of_neg (by linarith), abs_of_pos (by linarith)] at distance
  rw [abs_of_pos (by linarith), abs_of_neg (by linarith)] at distance'
  linarith

end Nearest

/-- All integers of at most 53 bits are values of doubles, and so is 2 ^ 53. -/
theorem isValue_small (n : Int) (small : n.natAbs ≤ 2 ^ 53) : IsValue n := by
  rw [isValue_iff, ← Int.cast_abs, Int.abs_eq_natAbs, Int.cast_natCast]
  rcases Nat.eq_zero_or_pos n.natAbs with zero | positive
  · left
    exact_mod_cast Int.natAbs_eq_zero.mp zero
  · right
    rcases Nat.lt_or_ge n.natAbs (2 ^ 53) with few | most
    · have bits : n.natAbs.log2 < 53 := (Nat.log2_lt (by omega)).mpr few
      refine ⟨_, _, canonical_shifted n.natAbs positive few, ?_⟩
      rw [show (n.natAbs.log2 - 52 : Int) = -((52 - n.natAbs.log2 : Nat) : Int) by omega,
        shifted_value]
    · have top : n.natAbs = 2 ^ 53 := by omega
      refine ⟨2 ^ 52, 1, ⟨⟨by omega, by omega, by omega, .inl le_rfl⟩, by omega⟩, ?_⟩
      rw [top]
      norm_num

end ChainScript.Numeral

namespace ChainScript.Prelude

open Numeral (Extent IsValue Nearest extent? number ofInteger ofInteger_nearest)

/-! The order of numbers. -/

theorem order?_doubles (x y : Float) (a b : Extent) (left : extent? x = some a)
    (right : extent? y = some b) : order? (.float x) (.float y) = some (cmp a b) := by
  have order : order? (.float x) (.float y) = floatOrder x y := rfl
  rw [order, Numeral.floatOrder_eq_orderOf, left, right, Numeral.orderOf]

theorem order?_mixed (n : Int64) (x : Float) (p q : ℚ) (near : Nearest n.toInt (ofInteger n) p)
    (known : extent? x = some (number q)) : order? (.int n) (.float x) = some (cmp p q) := by
  have order : order? (.int n) (.float x) = order? (.float (ofInteger n)) (.float x) := rfl
  rw [order, order?_doubles _ _ _ _ near.value known, Numeral.cmp_number]

namespace Operand

variable (x y z : Operand)

theorem integers_or_orderOf :
    (∃ m n, x = .int m ∧ y = .int n) ∨
      x.order? y = Numeral.orderOf (extent? x.toFloat) (extent? y.toFloat) := by
  cases x with
  | int m =>
      cases y with
      | int n => exact .inl ⟨m, n, rfl, rfl⟩
      | float y => exact .inr (Numeral.floatOrder_eq_orderOf _ _)
  | float x => cases y <;> exact .inr (Numeral.floatOrder_eq_orderOf _ _)

theorem extents_of_less (less : x.order? y = some .lt) :
    ∃ a b, extent? x.toFloat = some a ∧ extent? y.toFloat = some b ∧ a ≤ b ∧
      (a < b ∨ ∃ m n, x = .int m ∧ y = .int n) := by
  rcases x.integers_or_orderOf y with ⟨m, n, rfl, rfl⟩ | doubles
  · obtain ⟨p, near⟩ := ofInteger_nearest m
    obtain ⟨q, near'⟩ := ofInteger_nearest n
    rw [order?, Option.some_inj, Int.compare_eq_lt] at less
    refine ⟨number p, number q, near.value, near'.value, ?_, .inr ⟨m, n, rfl, rfl⟩⟩
    rw [← not_lt, Numeral.number_lt_number, not_lt]
    exact near.le_of_lt q near' less
  · rw [doubles, Numeral.orderOf_eq_some_iff] at less
    obtain ⟨a, b, left, right, compared⟩ := less
    have below := (cmp_eq_lt_iff a b).mp compared
    exact ⟨a, b, left, right, below.le, .inl below⟩

theorem less_of_extents (a b : Extent) (left : extent? x.toFloat = some a)
    (right : extent? y.toFloat = some b) (less : a < b) : x.order? y = some .lt := by
  rcases x.integers_or_orderOf y with ⟨m, n, rfl, rfl⟩ | doubles
  · obtain ⟨p, near⟩ := ofInteger_nearest m
    obtain ⟨q, near'⟩ := ofInteger_nearest n
    obtain rfl : number p = a := Option.some.inj (near.value.symm.trans left)
    obtain rfl : number q = b := Option.some.inj (near'.value.symm.trans right)
    rw [Numeral.number_lt_number] at less
    rw [order?, Option.some_inj, Int.compare_eq_lt]
    by_contra above
    rcases (not_lt.mp above).lt_or_eq with more | same
    · exact absurd (near'.le_of_lt p near more) (not_le.mpr less)
    · rw [Int64.toInt_inj.mp same, left] at right
      exact less.ne ((Numeral.number_inj p q).mp (Option.some.inj right))
  · rw [doubles, Numeral.orderOf_eq_some_iff]
    exact ⟨a, b, left, right, (cmp_eq_lt_iff a b).mpr less⟩

theorem less_trans (first : x.order? y = some .lt) (second : y.order? z = some .lt) :
    x.order? z = some .lt := by
  obtain ⟨a, b, left, middle, below, strict⟩ := x.extents_of_less y first
  obtain ⟨b', c, middle', right, below', strict'⟩ := y.extents_of_less z second
  obtain rfl := Option.some.inj (middle.symm.trans middle')
  rcases strict with less | ⟨k, m, rfl, rfl⟩
  · exact x.less_of_extents z a c left right (less.trans_le below')
  · rcases strict' with less | ⟨_, n, _, rfl⟩
    · exact (int k).less_of_extents z a c left right (below.trans_lt less)
    · simp only [order?, Option.some_inj, Int.compare_eq_lt] at first second ⊢
      exact first.trans second

theorem extent_of_same (same : x.order? y = some .eq) :
    ∃ a, extent? x.toFloat = some a ∧ extent? y.toFloat = some a := by
  rcases x.integers_or_orderOf y with ⟨m, n, rfl, rfl⟩ | doubles
  · obtain ⟨p, near⟩ := ofInteger_nearest m
    rw [order?, Option.some_inj, Int.compare_eq_eq, Int64.toInt_inj] at same
    exact ⟨number p, near.value, same ▸ near.value⟩
  · rw [doubles, ← beq_iff_eq, ← Numeral.beq_eq_orderOf, Numeral.beq_iff_extent] at same
    exact same

theorem same_trans (first : x.order? y = some .eq) (second : y.order? z = some .eq) :
    x.order? z = some .eq ∨ ∃ m w n, x = .int m ∧ y = .float w ∧ z = .int n ∧ m ≠ n ∧
      ¬ (IsValue m.toInt ∧ IsValue n.toInt) := by
  obtain ⟨a, left, middle⟩ := x.extent_of_same y first
  obtain ⟨b, middle', right⟩ := y.extent_of_same z second
  obtain rfl := Option.some.inj (middle.symm.trans middle')
  rcases x.integers_or_orderOf z with ⟨m, n, rfl, rfl⟩ | doubles
  · cases y with
    | int k =>
        left
        simp only [order?, Option.some_inj, Int.compare_eq_eq] at first second ⊢
        exact first.trans second
    | float w =>
        by_cases same : m = n
        · left
          rw [order?, same, Option.some_inj, Int.compare_eq_eq]
        · refine .inr ⟨m, w, n, rfl, rfl, rfl, same, ?_⟩
          rintro ⟨value, value'⟩
          obtain ⟨p, near⟩ := ofInteger_nearest m
          obtain ⟨q, near'⟩ := ofInteger_nearest n
          have one : number p = number q :=
            Option.some.inj (((near.value.symm.trans left).trans right.symm).trans near'.value)
          rw [Numeral.number_inj, near.eq_of_isValue value, near'.eq_of_isValue value',
            Int.cast_inj, Int64.toInt_inj] at one
          exact same one
  · left
    rw [doubles, Numeral.orderOf_eq_some_iff]
    exact ⟨a, a, left, right, (cmp_eq_eq_iff a a).mpr rfl⟩

end Operand

/-! The words. -/

section

variable {α : Type} [LinearOrder α] (a b : α)

theorem isLT_cmp : (cmp a b).isLT = decide (a < b) := by
  rw [Bool.eq_iff_iff, Ordering.isLT_iff_eq_lt, cmp_eq_lt_iff, decide_eq_true_iff]

theorem isEq_cmp : (cmp a b).isEq = decide (a = b) := by
  rw [Bool.eq_iff_iff, Ordering.isEq_iff_eq_eq, cmp_eq_eq_iff, decide_eq_true_iff]

end

/-- How numbers are compared, if `run` tells what comes of each word on two values. -/
structure ByNearest (world : World)
    (run : String → Value → Value → EStateM.Result Halt World Value) : Prop where
  mixed : ∀ n : Int64, ∃ p, Nearest n.toInt (ofInteger n) p ∧
    ∀ x q, extent? x = some (number q) →
      run "==" (.int n) (.float x) = .ok (.bool (decide (p = q))) world ∧
        run "==" (.float x) (.int n) = .ok (.bool (decide (p = q))) world ∧
        run "<" (.int n) (.float x) = .ok (.bool (decide (n.toInt < q ∧ q ≠ p))) world ∧
        run "<" (.float x) (.int n) = .ok (.bool (decide (q < n.toInt ∧ q ≠ p))) world
  byValue : ∀ n : Int64, IsValue n.toInt ↔ ∀ x q, extent? x = some (number q) →
    run "==" (.int n) (.float x) = .ok (.bool (decide (n.toInt = q))) world ∧
      run "<" (.int n) (.float x) = .ok (.bool (decide (n.toInt < q))) world
  small : ∀ n : Int64, n.toInt.natAbs ≤ 2 ^ 53 → IsValue n.toInt
  integers : ∀ m n : Int64,
    run "==" (.int m) (.int n) = .ok (.bool (decide (m.toInt = n.toInt))) world ∧
      run "<" (.int m) (.int n) = .ok (.bool (decide (m.toInt < n.toInt))) world
  doubles : ∀ x y a b, extent? x = some a → extent? y = some b →
    run "==" (.float x) (.float y) = .ok (.bool (decide (a = b))) world ∧
      run "<" (.float x) (.float y) = .ok (.bool (decide (a < b))) world
  less_trans : ∀ x y z : Operand, run "<" x.value y.value = .ok (.bool true) world →
    run "<" y.value z.value = .ok (.bool true) world →
      run "<" x.value z.value = .ok (.bool true) world
  equal_trans : ∀ x y z : Operand, run "==" x.value y.value = .ok (.bool true) world →
    run "==" y.value z.value = .ok (.bool true) world →
      run "==" x.value z.value = .ok (.bool true) world ∨
        ∃ m w n, x = .int m ∧ y = .float w ∧ z = .int n ∧ m ≠ n ∧
          ¬ (IsValue m.toInt ∧ IsValue n.toInt)

section

variable {world : World} {run : String → Value → Value → EStateM.Result Halt World Value}
  (tells : Tells world run)

include tells

theorem Tells.told (left right : Value) (told : Ordering)
    (ordered : order? left right = some told) :
    run "==" left right = .ok (.bool told.isEq) world ∧
      run "<" left right = .ok (.bool told.isLT) world := by
  rw [tells.equality, equal_of_order left right told ordered]
  exact ⟨rfl, tells.ordered .lt left right told ordered⟩

theorem Tells.less_iff (x y : Operand) :
    run "<" x.value y.value = .ok (.bool true) world ↔ x.order? y = some .lt := by
  rw [← order?_value]
  constructor
  · intro answered
    obtain ⟨told, ordered, less⟩ := tells.order_of_answer .lt _ _ _
      (fun unlike => absurd unlike (not_unlike_value x y)) answered
    rw [ordered, Option.some_inj]
    exact Ordering.isLT_iff_eq_lt.mp less
  · intro ordered
    exact (tells.told _ _ _ ordered).2

theorem Tells.equal_iff (x y : Operand) :
    run "==" x.value y.value = .ok (.bool true) world ↔ x.order? y = some .eq := by
  rw [tells.equality, x.equal_value y]
  simp

theorem Tells.byNearest : ByNearest world run where
  mixed n := by
    obtain ⟨p, near⟩ := ofInteger_nearest n
    refine ⟨p, near, fun x q known => ?_⟩
    have value : IsValue q := ⟨x, known⟩
    have ordered := order?_mixed n x p q near known
    have back : order? (.float x) (.int n) = some (cmp q p) := by
      rw [order?_swap, ordered, Option.map_some, cmp_swap]
    obtain ⟨equal, less⟩ := tells.told _ _ _ ordered
    obtain ⟨equal', less'⟩ := tells.told _ _ _ back
    rw [isEq_cmp] at equal equal'
    rw [isLT_cmp] at less less'
    refine ⟨equal, ?_, ?_, ?_⟩
    · rw [equal']
      simp only [eq_comm]
    · rw [less]
      simp only [near.lt_iff q value]
    · rw [less']
      simp only [near.gt_iff q value]
  byValue n := by
    obtain ⟨p, near⟩ := ofInteger_nearest n
    constructor
    · intro value x q known
      have ordered := order?_mixed n x p q near known
      rw [near.eq_of_isValue value] at ordered
      obtain ⟨equal, less⟩ := tells.told _ _ _ ordered
      rw [isEq_cmp] at equal
      rw [isLT_cmp] at less
      exact ⟨equal, less⟩
    · intro exact
      have equal := (tells.told _ _ _ (order?_mixed n _ p p near near.value)).1
      have same := (exact (ofInteger n) p near.value).1
      rw [isEq_cmp, decide_eq_true rfl, same] at equal
      simp only [EStateM.Result.ok.injEq, Value.bool.injEq, and_true, decide_eq_true_iff] at equal
      rw [equal]
      exact near.isValue
  small n small := Numeral.isValue_small n.toInt small
  integers m n := by
    have ordered : order? (.int m) (.int n) = some (cmp m.toInt n.toInt) := by
      rw [cmp_eq_compare]
      rfl
    obtain ⟨equal, less⟩ := tells.told _ _ _ ordered
    rw [isEq_cmp] at equal
    rw [isLT_cmp] at less
    exact ⟨equal, less⟩
  doubles x y a b left right := by
    obtain ⟨equal, less⟩ := tells.told _ _ _ (order?_doubles x y a b left right)
    rw [isEq_cmp] at equal
    rw [isLT_cmp] at less
    exact ⟨equal, less⟩
  less_trans x y z first second := by
    rw [tells.less_iff] at first second ⊢
    exact x.less_trans y z first second
  equal_trans x y z first second := by
    rw [tells.equal_iff] at first second ⊢
    exact x.same_trans y z first second

end

/-- An integer is compared with a double as the nearest double to it. Wherever the words stand for
the methods of the prelude, an integer is equal to its nearest double and less than the greater
doubles but this one. It is compared with all doubles by value just if it is the value of a double,
as all integers up to 2 ^ 53 in size are. The order is transitive, and equality is unless it goes
from one integer by a double to another integer. -/
theorem numbers_by_nearest (evaluator : Evaluator) (world : World)
    (builtin : ∀ method ∈ comparisonMethods,
      evaluator.called? world.env method.name = some method)
    (spelling : Spelling evaluator) (place : Position) :
    ByNearest world fun name left right => spelling.run name place world left right :=
  (tells evaluator world builtin spelling place).byNearest

theorem extent_even : extent? 9007199254740992.0 = some (number 9007199254740992) := by
  have made : (9007199254740992.0 : Float) = ofInteger 9007199254740992 := by decide +kernel
  obtain ⟨p, near⟩ := ofInteger_nearest 9007199254740992
  have value := Numeral.isValue_small (9007199254740992 : Int64).toInt (by decide)
  rw [made, near.value, near.eq_of_isValue value]
  rfl

/-- The integer 2 ^ 53 + 1 is equal to the double 2 ^ 53, and is not greater. -/
theorem numbers_by_nearest_even :
    let run (name : String) := (@Spelling.literals {}).run name ⟨0, 1⟩ World.initial
    (∀ method ∈ comparisonMethods,
      Evaluator.called? {} World.initial.env method.name = some method) ∧
    run "==" (.int 9007199254740993) (.float 9007199254740992.0) = .ok (.bool true) .initial ∧
    run "<" (.float 9007199254740992.0) (.int 9007199254740993) = .ok (.bool false) .initial := by
  have comparing := numbers_by_nearest {} .initial called?_comparisons .literals ⟨0, 1⟩
  obtain ⟨p, near, compared⟩ := comparing.mixed 9007199254740993
  have same : ofInteger 9007199254740993 = 9007199254740992.0 := by decide +kernel
  have known : (9007199254740992 : ℚ) = p := by
    rw [← Numeral.number_inj, ← Option.some_inj, ← extent_even, ← same, near.value]
  obtain ⟨equal, _, _, less⟩ := compared 9007199254740992.0 _ extent_even
  rw [known] at equal less
  refine ⟨called?_comparisons, equal.trans (by rw [decide_eq_true rfl]), less.trans ?_⟩
  simp

theorem parse_equality (source left right : String) (m n : Number) (p q r : Position)
    (scanned : scan source = [.ok ⟨.identifier, "==", .start⟩, .ok ⟨.number m, left, p⟩,
      .ok ⟨.number n, right, q⟩, .ok ⟨.endOfInput, "", r⟩]) :
    parse source = .ok (.chain [.identifier "==" .start, .number m, .number n]) := by
  simp only [parse, tokens, scanned]
  rfl

/-- An integer can be equal to a double of another value, and equality is not transitive then. -/
theorem integer_equal_to_neighbour :
    extent? 9007199254740992.0 = some (number 9007199254740992) ∧
    ((9007199254740993 : Int64).toInt : ℚ) ≠ 9007199254740992 ∧
    Evaluator.evaluateSource {} "== 9007199254740993 9007199254740992.0" .initial =
      .ok (.bool true) .initial ∧
    Evaluator.evaluateSource {} "== 9007199254740992.0 9007199254740992" .initial =
      .ok (.bool true) .initial ∧
    Evaluator.evaluateSource {} "== 9007199254740993 9007199254740992" .initial =
      .ok (.bool false) .initial := by
  have told (left right : Value) (source : String) (read : parse source = .ok (.chain
      (.identifier "==" .start :: [left, right].map (@Spelling.literals {}).term))) :
      Evaluator.evaluateSource {} source .initial = .ok (.bool (equal left right)) .initial := by
    rw [Evaluator.evaluateSource, read]
    exact (tells {} .initial called?_comparisons .literals .start).equality left right
  have rounded : equal (.int 9007199254740993) (.float 9007199254740992.0) = true := by
    decide +kernel
  have exact : equal (.float 9007199254740992.0) (.int 9007199254740992) = true := by
    decide +kernel
  refine ⟨extent_even, by decide, ?_, ?_, ?_⟩
  · rw [← rounded]
    exact told _ _ _ (parse_equality _ "9007199254740993" "9007199254740992.0" _ _ ⟨3, 1⟩ ⟨20, 1⟩
      ⟨38, 1⟩ (by decide +kernel))
  · rw [← exact]
    exact told _ _ _ (parse_equality _ "9007199254740992.0" "9007199254740992" _ _ ⟨3, 1⟩ ⟨22, 1⟩
      ⟨38, 1⟩ (by decide +kernel))
  · exact told (.int 9007199254740993) (.int 9007199254740992) _ (parse_equality _
      "9007199254740993" "9007199254740992" _ _ ⟨3, 1⟩ ⟨20, 1⟩ ⟨36, 1⟩ (by decide +kernel))

end ChainScript.Prelude
