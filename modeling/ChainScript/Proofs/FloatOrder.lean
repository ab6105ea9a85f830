import ChainScript.Prelude.Comparison
import ChainScript.Proofs.Binary64

/-!
The order of doubles. Comparing sign, exponent and significand comes to comparing exact values,
where an infinity lies beyond all numbers and NaN has no value. So doubles are equal if their values
are, and that is if they are one double or both zero.
-/

namespace ChainScript.Numeral

open Float.Model (UnpackedFloat)
open Float.Model.UnpackedFloat

abbrev Extent := WithBot (WithTop ℚ)

def number (q : ℚ) : Extent := (q : WithTop ℚ)

/-- The exact value, which is a number for finite doubles. Only NaN has none. -/
def extentOf : UnpackedFloat → Option Extent
  | .notANumber => none
  | .infinity .negative => some ⊥
  | .infinity .positive => some ⊤
  | .zero _ => some (number 0)
  | .finite .negative m e _ => some (number (-(m * 2 ^ e)))
  | .finite .positive m e _ => some (number (m * 2 ^ e))

def extent? (x : Float) : Option Extent := extentOf x.toModel.unpack

def orderOf : Option Extent → Option Extent → Option Ordering
  | some a, some b => some (cmp a b)
  | _, _ => none

/-! Exponents come before significands. -/

section

variable (m n : Nat) (e f : Int)

theorem scaled_lt_of_exponent (left : Canonical m e) (right : Canonical n f) (less : e < f) :
    (m : ℚ) * 2 ^ e < n * 2 ^ f := by
  have full : 2 ^ 52 ≤ n := right.full.resolve_right (by have := left.least; omega)
  obtain ⟨k, rfl⟩ : ∃ k : Nat, f = e + 1 + k := ⟨(f - e - 1).toNat, by omega⟩
  have short : (m : ℚ) < 2 ^ 53 := by exact_mod_cast left.short
  have bits : (2 : ℚ) ^ 52 ≤ n := by exact_mod_cast full
  have step : (0 : ℚ) < 2 ^ e := by positivity
  have steps : (1 : ℚ) ≤ 2 ^ k := one_le_pow₀ (by norm_num)
  calc
    (m : ℚ) * 2 ^ e < 2 ^ 53 * 2 ^ e := by gcongr
    _ = 2 ^ 52 * 2 ^ (e + 1) * 1 := by rw [zpow_add₀ (by norm_num)]; ring
    _ ≤ n * 2 ^ (e + 1) * 2 ^ k := by gcongr
    _ = n * 2 ^ (e + 1 + k) := by
        rw [zpow_add₀ (by norm_num) (e + 1) k, zpow_natCast, mul_assoc]

theorem cmp_scaled (left : Canonical m e) (right : Canonical n f) :
    cmp ((m : ℚ) * 2 ^ e) (n * 2 ^ f) = (compare e f).then (compare m n) := by
  rcases Int.lt_trichotomy e f with less | rfl | more
  · rw [Int.compare_eq_lt.mpr less, Ordering.lt_then, cmp_eq_lt_iff]
    exact scaled_lt_of_exponent m n e f left right less
  · have step : (0 : ℚ) < 2 ^ e := by positivity
    have exponents : compare e e = .eq := Int.compare_eq_eq.mpr rfl
    rw [exponents, Ordering.eq_then]
    rcases Nat.lt_trichotomy m n with less | rfl | more
    · rw [Nat.compare_eq_lt.mpr less, cmp_eq_lt_iff]
      have : (m : ℚ) < n := by exact_mod_cast less
      gcongr
    · rw [Nat.compare_eq_eq.mpr rfl, cmp_eq_eq_iff]
    · rw [Nat.compare_eq_gt.mpr more, cmp_eq_gt_iff]
      have : (n : ℚ) < m := by exact_mod_cast more
      gcongr
  · rw [Int.compare_eq_gt.mpr more, Ordering.gt_then, cmp_eq_gt_iff]
    exact scaled_lt_of_exponent n m f e right left more

end

theorem cmp_neg (p q : ℚ) : cmp (-p) (-q) = (cmp p q).swap := by
  rw [cmp_swap]
  simp only [cmp, cmpUsing, neg_lt_neg_iff]

@[simp] theorem number_lt_number (p q : ℚ) : number p < number q ↔ p < q := by
  rw [number, number, WithBot.coe_lt_coe, WithTop.coe_lt_coe]

@[simp] theorem number_inj (p q : ℚ) : number p = number q ↔ p = q := by
  rw [number, number, WithBot.coe_inj, WithTop.coe_inj]

theorem cmp_number (p q : ℚ) : cmp (number p) (number q) = cmp p q := by
  simp only [cmp, cmpUsing, number_lt_number]

theorem compare_eq_orderOf (x y : Float) :
    x.toModel.unpack.compare y.toModel.unpack = orderOf (extent? x) (extent? y) := by
  have canonical := canonical_of_unpack x.toModel
  have canonical' := canonical_of_unpack y.toModel
  have positive (m : Nat) (e : Int) (nonzero : 0 < m) : (0 : ℚ) < m * 2 ^ e := by positivity
  simp only [extent?]
  cases left : x.toModel.unpack with
  | notANumber => rfl
  | infinity s =>
      cases right : y.toModel.unpack with
      | notANumber => cases s <;> rfl
      | infinity t => cases s <;> cases t <;> rfl
      | zero t => cases s <;> rfl
      | finite t n f more => cases s <;> cases t <;> rfl
  | zero s =>
      cases right : y.toModel.unpack with
      | notANumber => rfl
      | infinity t => cases t <;> rfl
      | zero t => simp [UnpackedFloat.compare, extentOf, orderOf]
      | finite t n f more =>
          have size := positive n f more
          cases t
          · simp only [UnpackedFloat.compare, extentOf, orderOf, cmp_number, Option.some.injEq]
            exact ((cmp_eq_gt_iff _ _).mpr (neg_neg_of_pos size)).symm
          · simp only [UnpackedFloat.compare, extentOf, orderOf, cmp_number, Option.some.injEq]
            exact ((cmp_eq_lt_iff _ _).mpr size).symm
  | finite s m e nonzero =>
      have size := positive m e nonzero
      cases right : y.toModel.unpack with
      | notANumber => cases s <;> rfl
      | infinity t => cases s <;> cases t <;> rfl
      | zero t =>
          cases s
          · simp only [UnpackedFloat.compare, extentOf, orderOf, cmp_number, Option.some.injEq]
            exact ((cmp_eq_lt_iff _ _).mpr (neg_neg_of_pos size)).symm
          · simp only [UnpackedFloat.compare, extentOf, orderOf, cmp_number, Option.some.injEq]
            exact ((cmp_eq_gt_iff _ _).mpr size).symm
      | finite t n f more =>
          have size' := positive n f more
          have both := cmp_scaled m n e f (canonical s m e nonzero left)
            (canonical' t n f more right)
          cases s <;> cases t <;>
            simp only [UnpackedFloat.compare, extentOf, orderOf, cmp_number, Option.some.injEq]
          · rw [cmp_neg, both]
          · exact ((cmp_eq_lt_iff _ _).mpr (by linarith)).symm
          · exact ((cmp_eq_gt_iff _ _).mpr (by linarith)).symm
          · exact both.symm

/-! Order and equality. -/

theorem orderOf_swap (a b : Option Extent) : orderOf b a = (orderOf a b).map Ordering.swap := by
  cases a <;> cases b <;> simp [orderOf, cmp_swap]

theorem orderOf_eq_some_iff (a b : Option Extent) (told : Ordering) :
    orderOf a b = some told ↔ ∃ s t, a = some s ∧ b = some t ∧ cmp s t = told := by
  cases a <;> cases b <;> simp [orderOf]

theorem isNaN_iff (x : Float) : x.isNaN = true ↔ extent? x = none := by
  have unpacked : x.isNaN = x.toModel.unpack.isNaN := rfl
  rw [unpacked, extent?]
  cases x.toModel.unpack with
  | notANumber => exact iff_of_true rfl rfl
  | infinity s => cases s <;> simp [UnpackedFloat.isNaN, extentOf]
  | zero s => simp [UnpackedFloat.isNaN, extentOf]
  | finite s m e nonzero => cases s <;> simp [UnpackedFloat.isNaN, extentOf]

theorem isNaN_eq_false_iff (x : Float) : x.isNaN = false ↔ ∃ a, extent? x = some a := by
  rw [← Bool.not_eq_true, isNaN_iff, ← ne_eq, Option.ne_none_iff_exists']

variable (x y : Float)

theorem lt_iff_orderOf : x < y ↔ orderOf (extent? x) (extent? y) = some .lt := by
  have modelled : (x < y) = (decide (x.toModel < y.toModel) = true) := rfl
  have compared : (x.toModel < y.toModel) =
      ((x.toModel.unpack.compare y.toModel.unpack == some .lt) = true) := rfl
  rw [modelled, decide_eq_true_iff, compared, compare_eq_orderOf, beq_iff_eq]

theorem beq_eq_orderOf : (x == y) = (orderOf (extent? x) (extent? y) == some .eq) := by
  have compared : (x == y) = (x.toModel.unpack.compare y.toModel.unpack == some .eq) := rfl
  rw [compared, compare_eq_orderOf]

theorem floatOrder_eq_orderOf : Prelude.floatOrder x y = orderOf (extent? x) (extent? y) := by
  simp only [Prelude.floatOrder, lt_iff_orderOf, beq_eq_orderOf,
    orderOf_swap (extent? x) (extent? y)]
  rcases orderOf (extent? x) (extent? y) with _ | order
  · rfl
  · cases order <;> rfl

theorem beq_iff_extent : (x == y) = true ↔ ∃ a, extent? x = some a ∧ extent? y = some a := by
  rw [beq_eq_orderOf, beq_iff_eq, orderOf_eq_some_iff]
  simp only [cmp_eq_eq_iff]
  constructor
  · rintro ⟨s, t, left, right, rfl⟩
    exact ⟨s, left, right⟩
  · rintro ⟨s, left, right⟩
    exact ⟨s, s, left, right, rfl⟩

/-- Equal doubles are one double, but for the two zeros. -/
theorem eq_of_beq (equal : (x == y) = true) (nonzero : extent? x ≠ some (number 0)) : x = y := by
  have compared : x.toModel.unpack.compare y.toModel.unpack = some .eq := by
    rwa [compare_eq_orderOf, ← beq_iff_eq, ← beq_eq_orderOf]
  apply eq_of_unpack
  rw [extent?] at nonzero
  cases left : x.toModel.unpack with
  | notANumber => simp [left, UnpackedFloat.compare] at compared
  | zero s => exact absurd (congrArg extentOf left) nonzero
  | infinity s =>
      cases right : y.toModel.unpack with
      | infinity t => cases s <;> cases t <;> simp_all [UnpackedFloat.compare, compare]
      | _ => cases s <;> simp_all [UnpackedFloat.compare]
  | finite s m e nonzero =>
      cases right : y.toModel.unpack with
      | finite t n f more =>
          rw [left, right] at compared
          cases s <;> cases t <;>
            simp [UnpackedFloat.compare, Ordering.then_eq_eq] at compared
          all_goals
            obtain ⟨rfl, rfl⟩ := compared
            rfl
      | infinity t => cases s <;> cases t <;> simp_all [UnpackedFloat.compare]
      | _ => cases s <;> simp_all [UnpackedFloat.compare]

end ChainScript.Numeral
