import ChainScript.Proofs.Binary64

/-!
Which decimals are too large for a double. The largest double is (2 ^ 53 - 1) * 2 ^ 971, and the
next step of its grid would be 2 ^ 1024. A decimal rounds to an infinity from the middle between the
two on, and to a finite double below.
-/

namespace ChainScript.Numeral

open Float.Model (UnpackedFloat totalExponent Format)
open Float.Model.Format (binary64)
open Float.Model.UnpackedFloat

def overflowBound : Nat := (2 ^ 54 - 1) * 2 ^ 970

/-! Twice a mantissa, with the bit that is next. -/

/-- An extended mantissa in halves, without what is left below. -/
def halves (extended : ExtendedMantissa) : Nat :=
  2 * extended.mantissa + extended.roundBit.toNat

theorem halves_shiftRightOne (extended : ExtendedMantissa) :
    halves extended.shiftRightOne = halves extended / 2 := by
  obtain ⟨m, round, sticky⟩ := extended
  rcases Nat.mod_two_eq_zero_or_one m with even | odd <;> cases round <;>
    simp [halves, ExtendedMantissa.shiftRightOne, *] <;> omega

theorem halves_shiftRight (extended : ExtendedMantissa) (k : Nat) :
    halves (extended >>> k) = halves extended / 2 ^ k := by
  induction k with
  | zero => simp [HShiftRight.hShiftRight, Nat.repeat]
  | succ k ih =>
      have step : extended >>> (k + 1) = (extended >>> k).shiftRightOne := rfl
      rw [step, halves_shiftRightOne, ih, Nat.div_div_eq_div_mul, ← Nat.pow_succ]

theorem halves_ofMantissaAndAccuracy (m num den : Nat) (proper : num < den) :
    halves (.ofMantissaAndAccuracy m (accuracyOfFraction num den)) = 2 * m + 2 * num / den := by
  by_cases exact : num = 0
  · simp [accuracyOfFraction, exact, halves, ExtendedMantissa.ofMantissaAndAccuracy]
  · rw [accuracyOfFraction, if_neg exact]
    rcases Nat.lt_trichotomy (2 * num) den with less | same | more
    · rw [Nat.compare_eq_lt.mpr less, Nat.div_eq_of_lt less]
      rfl
    · rw [Nat.compare_eq_eq.mpr same, same, Nat.div_self (by omega)]
      rfl
    · have once : 2 * num / den = 1 := Nat.div_eq_of_lt_le (by omega) (by omega)
      rw [Nat.compare_eq_gt.mpr more, once]
      rfl

theorem halves_quotient (num den : Nat) (positive : 0 < den) :
    halves (.ofMantissaAndAccuracy (num / den) (accuracyOfFraction (num % den) den)) =
      2 * num / den := by
  rw [halves_ofMantissaAndAccuracy _ _ _ (Nat.mod_lt _ positive)]
  conv_rhs => rw [← Nat.div_add_mod num den, Nat.mul_add, Nat.mul_left_comm,
    Nat.mul_add_div positive]

theorem carries_iff (extended : ExtendedMantissa) :
    2 ^ 53 ≤ extended.roundedMantissa ↔ 2 ^ 54 - 1 ≤ halves extended := by
  obtain ⟨m, round, sticky⟩ := extended
  cases round <;> cases sticky <;>
    simp only [halves, ExtendedMantissa.roundedMantissa, ExtendedMantissa.accuracy,
      Accuracy.roundToNearestEven, Bool.toNat_true, Bool.toNat_false] <;> omega

/-! What packing leaves finite. -/

theorem isFinite_packComponents (sign : Sign) (exponent : BitVec 11) (fraction : BitVec 52)
    (below : exponent ≠ -1#11) :
    (UnpackedFloat.unpack binary64 (packComponents binary64 sign exponent fraction)).isFinite =
      true := by
  by_cases low : exponent = 0#11
  · subst low
    by_cases zero : fraction = 0#52
    · subst zero
      have unpacked := unpack_packedZero sign
      rw [packedZero] at unpacked
      exact congrArg UnpackedFloat.isFinite unpacked
    · rw [unpack_subnormal sign fraction (toNat_ne_zero fraction zero)]
      rfl
  · rw [unpack_normal sign exponent fraction low below]
    rfl

theorem isFinite_pack (m : Nat) (e : Int) (positive : 0 < m) :
    (Float.Model.pack (.finite .positive m e positive)).unpack.isFinite = true ↔ e ≤ 971 := by
  by_cases large : 971 < e
  · rw [unpack_pack_large m e positive large]
    exact iff_of_false Bool.false_ne_true (by omega)
  · have field : BitVec.ofNat 11 (e + 1075).toNat ≠ -1#11 := by
      intro same
      have numbers := congrArg BitVec.toNat same
      have ones : (-1#11).toNat = 2047 := rfl
      rw [BitVec.toNat_ofNat, ones] at numbers
      omega
    have bits : (Float.Model.pack (.finite .positive m e positive)).unpack =
        UnpackedFloat.unpack binary64
          (UnpackedFloat.pack binary64 (.finite .positive m e positive)) := rfl
    rw [bits, pack_finite, if_neg (by omega)]
    refine iff_of_true ?_ (by omega)
    split
    · exact isFinite_packComponents _ _ _ field
    · exact isFinite_packComponents _ _ _ (by decide)

theorem infinite_pack (m : Nat) (e : Int) (positive : 0 < m)
    (past : (Float.Model.pack (.finite .positive m e positive)).unpack.isFinite ≠ true) :
    (Float.Model.pack (.finite .positive m e positive)).unpack = .infinity .positive := by
  rw [ne_eq, isFinite_pack] at past
  exact unpack_pack_large m e positive (by omega)

/-! Which values stay finite. -/

/-- The double for m * 2 ^ e, with what is known of the bits below. -/
def rounded (m : Nat) (e : Int) (accuracy : Accuracy) : UnpackedFloat :=
  (Float.Model.pack (roundWithAccuracy binary64 .positive m e accuracy)).unpack

theorem isFinite_rounded (m : Nat) (e : Int) (accuracy : Accuracy) (extended : ExtendedMantissa)
    (target : Int) (first : shiftToTargetExponent binary64 m e accuracy = (extended, target)) :
    (rounded m e accuracy).isFinite = true ↔
      extended.roundedMantissa = 0 ∨ target < 971 ∨
        target = 971 ∧ extended.roundedMantissa < 2 ^ 53 := by
  rw [rounded]
  rcases roundWithAccuracy_shifted .positive m e accuracy extended target first with
    ⟨zero, value⟩ | ⟨short, positive, value⟩ | ⟨full, positive, value⟩
  · rw [value, unpack_zero]
    exact iff_of_true rfl (.inl zero)
  · rw [value, isFinite_pack]
    have nonzero : extended.roundedMantissa ≠ 0 := by omega
    omega
  · rw [value, isFinite_pack]
    omega

theorem infinite_rounded (m : Nat) (e : Int) (accuracy : Accuracy)
    (past : (rounded m e accuracy).isFinite ≠ true) :
    rounded m e accuracy = .infinity .positive := by
  rw [rounded] at past ⊢
  rcases roundWithAccuracy_shifted .positive m e accuracy _ _
      (shiftToTargetExponent_eq m e accuracy) with
    ⟨_, value⟩ | ⟨_, positive, value⟩ | ⟨_, positive, value⟩
  · rw [value, unpack_zero] at past
    exact absurd rfl past
  · rw [value] at past ⊢
    exact infinite_pack _ _ positive past
  · rw [value] at past ⊢
    exact infinite_pack _ _ positive past

section

variable (m : Nat) (e : Int) (accuracy : Accuracy) (fine : e ≤ 0)

include fine

theorem isFinite_of_few_bits (few : m.log2 + e < 1023) :
    (rounded m e accuracy).isFinite = true := by
  rw [isFinite_rounded m e accuracy _ _ (shiftToTargetExponent_eq m e accuracy), excess]
  omega

theorem not_isFinite_of_many_bits (nonzero : m ≠ 0) (many : 1023 < m.log2 + e) :
    (rounded m e accuracy).isFinite ≠ true := by
  have above : 971 < e + excess m e := by
    rw [excess]
    omega
  have kept : 2 ^ excess m e ≤ m := by
    refine (Nat.pow_le_pow_right (by decide) ?_).trans (Nat.log2_self_le nonzero)
    rw [excess]
    omega
  have bounds := roundedMantissa_bounds
    (ExtendedMantissa.ofMantissaAndAccuracy m accuracy >>> excess m e)
  rw [shiftRight_mantissa, mantissa_ofMantissaAndAccuracy] at bounds
  have full : 0 < m / 2 ^ excess m e := Nat.div_pos kept (by positivity)
  rw [ne_eq, isFinite_rounded m e accuracy _ _ (shiftToTargetExponent_eq m e accuracy)]
  omega

theorem isFinite_top_iff (top : m.log2 + e = 1023) :
    (rounded m e accuracy).isFinite = true ↔
      halves (.ofMantissaAndAccuracy m accuracy) / 2 ^ (971 - e).toNat < 2 ^ 54 - 1 := by
  have shift : excess m e = (971 - e).toNat := by
    rw [excess]
    omega
  have carries := carries_iff
    (ExtendedMantissa.ofMantissaAndAccuracy m accuracy >>> excess m e)
  rw [isFinite_rounded m e accuracy _ _ (shiftToTargetExponent_eq m e accuracy),
    ← halves_shiftRight, ← shift]
  omega

end

/-! Quotients. -/

theorem middle_bits (step : Nat) :
    2 ^ (53 + step) ≤ (2 ^ 54 - 1) * 2 ^ step ∧ (2 ^ 54 - 1) * 2 ^ step ≤ 2 ^ (54 + step) := by
  rw [Nat.pow_add, Nat.pow_add]
  omega

theorem overflowBound_pos : 0 < overflowBound := by
  obtain ⟨low, -⟩ := middle_bits 970
  rw [overflowBound]
  exact (Nat.two_pow_pos _).trans_le low

theorem lt_of_log2_quotient (num den s bits : Nat) (more : 0 < den)
    (few : (num * 2 ^ s / den).log2 < bits + s) : num < 2 ^ bits * den := by
  have high : num * 2 ^ s / den < 2 ^ (bits + s) :=
    Nat.lt_log2_self.trans_le (Nat.pow_le_pow_right (by decide) few)
  rw [Nat.div_lt_iff_lt_mul more, Nat.pow_add, Nat.mul_right_comm] at high
  exact Nat.lt_of_mul_lt_mul_right high

theorem le_of_log2_quotient (num den s bits : Nat) (more : 0 < den)
    (nonzero : num * 2 ^ s / den ≠ 0)
    (many : bits + s ≤ (num * 2 ^ s / den).log2) : 2 ^ bits * den ≤ num := by
  have low : 2 ^ (bits + s) ≤ num * 2 ^ s / den := (Nat.le_log2 nonzero).mp many
  rw [Nat.le_div_iff_mul_le more, Nat.pow_add, Nat.mul_right_comm] at low
  exact Nat.le_of_mul_le_mul_right low (by positivity)

theorem lt_middle_iff (num den s step : Nat) (more : 0 < den) :
    2 * (num * 2 ^ s) / den / 2 ^ (step + (s + 1)) < 2 ^ 54 - 1 ↔
      num < (2 ^ 54 - 1) * 2 ^ step * den := by
  have steps : (2 ^ 54 - 1) * 2 ^ (step + (s + 1)) * den =
      2 ^ s * 2 * ((2 ^ 54 - 1) * 2 ^ step * den) := by
    rw [Nat.pow_add]
    ring
  have halved : 2 * (num * 2 ^ s) = 2 ^ s * 2 * num := by ring
  rw [Nat.div_lt_iff_lt_mul (by positivity), Nat.div_lt_iff_lt_mul more, steps, halved]
  exact Nat.mul_lt_mul_left (by positivity)

theorem isFinite_rounded_quotient (num den s : Nat) (more : 0 < den) :
    (rounded (num * 2 ^ s / den) (-s)
      (accuracyOfFraction (num * 2 ^ s % den) den)).isFinite = true ↔
      num < overflowBound * den := by
  obtain ⟨low, high⟩ := middle_bits 970
  have fine : -(s : Int) ≤ 0 := by omega
  rw [overflowBound]
  rcases Nat.lt_trichotomy (num * 2 ^ s / den).log2 (1023 + s) with few | top | many
  · have small := lt_of_log2_quotient num den s (53 + 970) more few
    exact iff_of_true (isFinite_of_few_bits _ _ _ fine (by omega))
      (small.trans_le (Nat.mul_le_mul_right _ low))
  · have steps : (971 - -(s : Int)).toNat = 970 + (s + 1) := by omega
    rw [isFinite_top_iff _ _ _ fine (by omega), halves_quotient _ _ more, steps,
      lt_middle_iff num den s 970 more]
  · have nonzero : num * 2 ^ s / den ≠ 0 := by
      intro zero
      rw [zero] at many
      exact absurd many (by simp)
    have large := le_of_log2_quotient num den s (54 + 970) more nonzero (by omega)
    exact iff_of_false (not_isFinite_of_many_bits _ _ _ fine nonzero (by omega))
      (Nat.not_lt.mpr ((Nat.mul_le_mul_right _ high).trans large))

theorem divCore_quotient (num den : Nat) : ∃ s : Nat, divCore binary64 num 0 den 0 =
    (num * 2 ^ s / den, -(s : Int), accuracyOfFraction (num * 2 ^ s % den) den) := by
  obtain ⟨target, least⟩ : ∃ target, target = min (0 - 0)
      (binary64.targetExponent (totalExponent num 0 - totalExponent den 0)) := ⟨_, rfl⟩
  obtain ⟨s, below⟩ : ∃ s : Nat, target = -s := ⟨(-target).toNat, by omega⟩
  have amount : ((0 : Int) - 0 - -s).toNat = s := by omega
  refine ⟨s, ?_⟩
  simp only [divCore, ← least, below, amount, Nat.shiftLeft_eq]

/-! Decimals with places behind the point. -/

/-- A decimal is rounded from its quotient by a power of ten, but for tiny ones. -/
theorem ofDecimal_quotient (digits places : Nat) (fractional : 0 < places) :
    (ofDecimal digits (-places) = .ofModel (.pack (.zero .positive)) ∧ digits < 10 ^ places) ∨
    ∃ s : Nat, ofDecimal digits (-places) =
      .ofModel (.pack (roundWithAccuracy binary64 .positive (digits * 2 ^ s / 10 ^ places) (-s)
        (accuracyOfFraction (digits * 2 ^ s % 10 ^ places) (10 ^ places)))) := by
  have limit : (2 : Int) ^ binary64.exponentBits = 2048 := rfl
  have power : (- -(places : Int)).toNat = places := by omega
  rw [ofDecimal, Float.Model.ofScientific, UnpackedFloat.ofScientific, limit]
  by_cases zero : digits = 0
  · rw [dif_pos zero, zero]
    exact .inl ⟨rfl, by positivity⟩
  rw [dif_neg zero, if_neg (by omega)]
  by_cases tiny : -(places : Int) < -(2048 + (digits.log2 : Int))
  · rw [if_pos tiny]
    refine .inl ⟨rfl, ?_⟩
    calc
      digits < 2 ^ (digits.log2 + 1) := Nat.lt_log2_self
      _ ≤ 2 ^ places := Nat.pow_le_pow_right (by decide) (by omega)
      _ ≤ 10 ^ places := Nat.pow_le_pow_left (by decide) _
  · obtain ⟨s, core⟩ := divCore_quotient digits (10 ^ places)
    rw [if_neg tiny, if_neg (by omega)]
    simp only [power, UnpackedFloat.div, core]
    exact .inr ⟨s, rfl⟩

theorem isFinite_ofDecimal (digits places : Nat) (fractional : 0 < places) :
    (ofDecimal digits (-places)).isFinite = true ↔ digits < overflowBound * 10 ^ places := by
  rcases ofDecimal_quotient digits places fractional with ⟨value, small⟩ | ⟨s, value⟩
  · rw [value]
    exact iff_of_true (congrArg UnpackedFloat.isFinite (unpack_zero .positive))
      (small.trans_le (Nat.le_mul_of_pos_left (10 ^ places) overflowBound_pos))
  · rw [value]
    exact isFinite_rounded_quotient digits _ s (by positivity)

theorem unpack_ofDecimal_large (digits places : Nat) (fractional : 0 < places)
    (large : overflowBound * 10 ^ places ≤ digits) :
    (ofDecimal digits (-places)).toModel.unpack = .infinity .positive := by
  have past := mt (isFinite_ofDecimal digits places fractional).mp (Nat.not_lt.mpr large)
  rcases ofDecimal_quotient digits places fractional with ⟨value, _⟩ | ⟨s, value⟩
  · rw [value] at past
    exact absurd (congrArg UnpackedFloat.isFinite (unpack_zero .positive)) past
  · rw [value] at past ⊢
    exact infinite_rounded _ _ _ past

end ChainScript.Numeral
