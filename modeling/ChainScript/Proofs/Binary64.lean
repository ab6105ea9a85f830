import ChainScript.Numeral.Binary
import Mathlib

/-!
Doubles by their value. A finite double is m * 2 ^ e for exactly one significand and exponent of
its format, and a quotient that is such a value is computed without rounding. Rounding takes away
the bits that are too many, and can carry once.
-/

namespace ChainScript.Numeral

open Float.Model (UnpackedFloat totalExponent Format)
open Float.Model.Format (binary64)
open Float.Model.UnpackedFloat

/-- A significand takes all its 53 bits unless the exponent is the least one. -/
structure Aligned (m : Nat) (e : Int) : Prop where
  positive : 0 < m
  short : m < 2 ^ 53
  least : -1074 ≤ e
  full : 2 ^ 52 ≤ m ∨ e = -1074

structure Canonical (m : Nat) (e : Int) : Prop extends Aligned m e where
  greatest : e ≤ 971

theorem mantissaBits_binary64 : binary64.mantissaBits = 53 := rfl

theorem targetExponent_binary64 (total : Int) :
    binary64.targetExponent total = max (total - 53) (-1074) := rfl

theorem log2_full (m : Nat) (low : 2 ^ 52 ≤ m) (high : m < 2 ^ 53) : m.log2 = 52 :=
  (Nat.log2_eq_iff (by omega)).mpr ⟨low, high⟩

theorem log2_partial (m : Nat) (positive : 0 < m) (high : m < 2 ^ 52) : m.log2 < 52 :=
  (Nat.log2_lt (by omega)).mpr high

theorem Aligned.targetExponent_eq (m : Nat) (e : Int) (aligned : Aligned m e) :
    binary64.targetExponent (totalExponent m e) = e := by
  obtain ⟨positive, short, least, full⟩ := aligned
  rw [targetExponent_binary64, totalExponent]
  by_cases low : 2 ^ 52 ≤ m
  · rw [log2_full m low short]
    omega
  · have bits := log2_partial m positive (by omega)
    omega

/-! The fields of a double. -/

theorem unpackSign_packComponents (sign : Sign) (exponent : BitVec 11) (fraction : BitVec 52) :
    Sign.ofBitVec (unpackSign (packComponents binary64 sign exponent fraction)) = sign := by
  have bit : unpackSign (packComponents binary64 sign exponent fraction) = sign.toBitVec := by
    ext i hi
    simp only [unpackSign, packComponents]
    grind
  rw [bit]
  cases sign <;> rfl

theorem exists_packComponents (bits : BitVec 64) :
    ∃ (sign : Sign) (exponent : BitVec 11) (fraction : BitVec 52),
      bits = packComponents binary64 sign exponent fraction := by
  refine ⟨Sign.ofBitVec (@unpackSign binary64 bits), @unpackExponent binary64 bits,
    @unpackMantissa binary64 bits, ?_⟩
  have sign : ∀ bit : BitVec 1, (Sign.ofBitVec bit).toBitVec = bit := by decide
  rw [packComponents, sign]
  ext i hi
  simp only [unpackSign, unpackExponent, unpackMantissa]
  grind

theorem toNat_implicit (fraction : BitVec 52) :
    (1#1 ++ fraction).toNat = 2 ^ 52 + fraction.toNat := by
  rw [BitVec.toNat_append, ← Nat.shiftLeft_add_eq_or_of_lt fraction.isLt]
  simp [Nat.shiftLeft_eq]

theorem toNat_ne_zero (fraction : BitVec 52) (nonzero : fraction ≠ 0#52) : 0 < fraction.toNat := by
  simpa [BitVec.toNat_pos, BitVec.pos_iff_ne_zero] using nonzero

theorem unpack_subnormal (sign : Sign) (fraction : BitVec 52) (positive : 0 < fraction.toNat) :
    UnpackedFloat.unpack binary64 (packComponents binary64 sign 0#11 fraction) =
      .finite sign fraction.toNat (-1074) positive := by
  have fields := unpackSign_packComponents sign 0#11 fraction
  have nonzero : fraction ≠ 0#52 := by
    rintro rfl
    exact absurd positive (by decide)
  simp only [UnpackedFloat.unpack, unpackMantissa_packComponents, unpackExponent_packComponents,
    fields]
  rw [if_neg (by decide), if_pos trivial, dif_neg nonzero]
  rfl

theorem unpack_normal (sign : Sign) (exponent : BitVec 11) (fraction : BitVec 52)
    (above : exponent ≠ 0#11) (below : exponent ≠ -1#11) :
    UnpackedFloat.unpack binary64 (packComponents binary64 sign exponent fraction) =
      .finite sign (2 ^ 52 + fraction.toNat) ((exponent.toNat : Int) - 1075) (by omega) := by
  have fields := unpackSign_packComponents sign exponent fraction
  simp only [UnpackedFloat.unpack, unpackMantissa_packComponents, unpackExponent_packComponents,
    fields]
  rw [if_neg below, if_neg above]
  simp only [toNat_implicit]
  rfl

-- The exponent counts from the lowest bit, so the bias is 1023 and the 52 bits of a fraction.
theorem pack_finite (sign : Sign) (m : Nat) (e : Int) (positive : 0 < m) :
    UnpackedFloat.pack binary64 (.finite sign m e positive) =
      if 2 ^ 11 ≤ (e + 1075).toNat + 1 then packedInfinity binary64 sign
      else if m.log2 + 1 = 53 then
        packComponents binary64 sign (BitVec.ofNat 11 (e + 1075).toNat) (BitVec.ofNat 52 m)
      else packComponents binary64 sign 0#11 (BitVec.ofNat 52 m) := by
  have biased : e + 1075 = e + (1023 : Nat) + (52 : Nat) := by omega
  rw [biased]
  rfl

theorem pack_subnormal (sign : Sign) (m : Nat) (positive : 0 < m) (low : m < 2 ^ 52) :
    UnpackedFloat.pack binary64 (.finite sign m (-1074) positive) =
      packComponents binary64 sign 0#11 (BitVec.ofNat 52 m) := by
  have bits := log2_partial m positive low
  rw [pack_finite, if_neg (by decide), if_neg (by omega)]

theorem pack_normal (sign : Sign) (m : Nat) (e : Int) (positive : 0 < m) (low : 2 ^ 52 ≤ m)
    (high : m < 2 ^ 53) (greatest : e ≤ 971) :
    UnpackedFloat.pack binary64 (.finite sign m e positive) =
      packComponents binary64 sign (BitVec.ofNat 11 (e + 1075).toNat) (BitVec.ofNat 52 m) := by
  have bits := log2_full m low high
  rw [pack_finite, if_neg (by omega), if_pos (by omega)]

theorem unpack_pack (sign : Sign) (m : Nat) (e : Int) (positive : 0 < m)
    (canonical : Canonical m e) :
    (Float.Model.pack (.finite sign m e positive)).unpack = .finite sign m e positive := by
  obtain ⟨⟨_, short, least, full⟩, greatest⟩ := canonical
  have bits : (Float.Model.pack (.finite sign m e positive)).unpack =
      UnpackedFloat.unpack binary64 (UnpackedFloat.pack binary64 (.finite sign m e positive)) := rfl
  rw [bits]
  by_cases low : m < 2 ^ 52
  · have exponent : e = -1074 := full.resolve_left (by omega)
    subst exponent
    have fraction : (BitVec.ofNat 52 m).toNat = m := Nat.mod_eq_of_lt low
    rw [pack_subnormal sign m positive low, unpack_subnormal sign _ (by omega)]
    simp only [fraction]
  · have biased : (BitVec.ofNat 11 (e + 1075).toNat).toNat = (e + 1075).toNat :=
      Nat.mod_eq_of_lt (by omega)
    have fraction : 2 ^ 52 + (BitVec.ofNat 52 m).toNat = m := by
      rw [BitVec.toNat_ofNat]
      omega
    have above : BitVec.ofNat 11 (e + 1075).toNat ≠ 0#11 := by
      intro same
      have numbers := congrArg BitVec.toNat same
      rw [biased, BitVec.toNat_ofNat] at numbers
      omega
    have below : BitVec.ofNat 11 (e + 1075).toNat ≠ -1#11 := by
      intro same
      have numbers := congrArg BitVec.toNat same
      have ones : (-1#11).toNat = 2047 := rfl
      rw [biased, ones] at numbers
      omega
    rw [pack_normal sign m e positive (by omega) short greatest,
      unpack_normal sign _ _ above below]
    simp only [fraction, biased]
    congr 1
    omega

theorem unpack_special (sign : Sign) (fraction : BitVec 52) :
    UnpackedFloat.unpack binary64 (packComponents binary64 sign (-1#11) fraction) =
      if fraction = 0#52 then .infinity sign else .notANumber := by
  have fields := unpackSign_packComponents sign (-1#11) fraction
  simp only [UnpackedFloat.unpack, unpackMantissa_packComponents, unpackExponent_packComponents,
    fields]
  rw [if_pos trivial]

theorem unpack_packedZero (sign : Sign) :
    UnpackedFloat.unpack binary64 (packedZero binary64 sign) = .zero sign := by
  cases sign <;> rfl

theorem exponent_bounds (exponent : BitVec 11) (above : exponent ≠ 0#11)
    (below : exponent ≠ -1#11) : 0 < exponent.toNat ∧ exponent.toNat < 2047 := by
  have within := exponent.isLt
  have least : exponent.toNat ≠ 0 := by
    intro same
    exact above (BitVec.toNat_inj.mp same)
  have greatest : exponent.toNat ≠ 2047 := by
    intro same
    exact below (BitVec.toNat_inj.mp same)
  omega

theorem pack_unpack_bits (bits : BitVec 64) (valid : binary64.Valid bits) :
    UnpackedFloat.pack binary64 (UnpackedFloat.unpack binary64 bits) = bits ∧
      ∀ sign m e positive, UnpackedFloat.unpack binary64 bits = .finite sign m e positive →
        Canonical m e := by
  obtain ⟨sign, exponent, fraction, rfl⟩ := exists_packComponents bits
  have within := fraction.isLt
  -- Infinities and the one not-a-number, then zeros, subnormal and normal numbers.
  by_cases special : exponent = -1#11
  · subst special
    rw [unpack_special]
    split
    · next zero =>
        subst zero
        exact ⟨rfl, fun _ _ _ _ same => by cases same⟩
    · next nonzero =>
        have canonical := valid.eq_packedNaN unpackExponent_packComponents
          (by rw [unpackMantissa_packComponents]; exact nonzero)
        exact ⟨canonical.symm, fun _ _ _ _ same => by cases same⟩
  · by_cases low : exponent = 0#11
    · subst low
      by_cases zero : fraction = 0#52
      · subst zero
        have unpacked := unpack_packedZero sign
        rw [packedZero] at unpacked
        exact ⟨(congrArg _ unpacked).trans rfl,
          fun _ _ _ _ same => by cases unpacked.symm.trans same⟩
      · have positive := toNat_ne_zero fraction zero
        rw [unpack_subnormal sign fraction positive]
        constructor
        · rw [pack_subnormal sign _ positive within, BitVec.ofNat_toNat, BitVec.setWidth_eq]
        · intro _ m e _ same
          cases same
          exact ⟨⟨positive, by omega, by omega, .inr rfl⟩, by omega⟩
    · have finite := exponent_bounds exponent low special
      rw [unpack_normal sign exponent fraction low special]
      constructor
      · rw [pack_normal sign _ _ _ (by omega) (by omega) (by omega)]
        congr 1
        · rw [Int.sub_add_cancel, Int.toNat_natCast, BitVec.ofNat_toNat, BitVec.setWidth_eq]
        · apply BitVec.toNat_inj.mp
          rw [BitVec.toNat_ofNat]
          omega
      · intro _ m e _ same
        cases same
        exact ⟨⟨by omega, by omega, by omega, .inl (by omega)⟩, by omega⟩

theorem pack_unpack (f : Float.Model) : Float.Model.pack f.unpack = f := by
  have bits := (pack_unpack_bits f.toBits.toBitVec f.valid).1
  simp only [Float.Model.pack, Float.Model.unpack, bits]

theorem canonical_of_unpack (f : Float.Model) (sign : Sign) (m : Nat) (e : Int) (positive : 0 < m)
    (value : f.unpack = .finite sign m e positive) : Canonical m e :=
  (pack_unpack_bits f.toBits.toBitVec f.valid).2 sign m e positive value

/-! Rounding what needs no rounding. -/

theorem shiftRight_exact (m k : Nat) :
    (⟨m * 2 ^ k, false, false⟩ : ExtendedMantissa) >>> k = ⟨m, false, false⟩ := by
  induction k generalizing m with
  | zero => simp [HShiftRight.hShiftRight, Nat.repeat]
  | succ k ih =>
      have shifted := ih (m * 2)
      rw [Nat.mul_assoc, ← Nat.pow_succ'] at shifted
      have step : (⟨m * 2 ^ (k + 1), false, false⟩ : ExtendedMantissa) >>> (k + 1) =
          ((⟨m * 2 ^ (k + 1), false, false⟩ : ExtendedMantissa) >>> k).shiftRightOne := rfl
      rw [step, shifted]
      simp [ExtendedMantissa.shiftRightOne]

theorem log2_shifted (m k : Nat) (positive : 0 < m) : (m * 2 ^ k).log2 = m.log2 + k := by
  have low := Nat.log2_self_le (Nat.pos_iff_ne_zero.mp positive)
  have high := Nat.lt_log2_self (n := m)
  rw [Nat.log2_eq_iff (Nat.mul_ne_zero (by omega) (by positivity)), Nat.pow_add,
    Nat.add_right_comm, Nat.pow_add]
  constructor
  · exact Nat.mul_le_mul_right _ low
  · exact Nat.mul_lt_mul_of_pos_right high (by positivity)

theorem totalExponent_shifted (m : Nat) (e : Int) (k : Nat) (positive : 0 < m) :
    totalExponent (m * 2 ^ k) (e - k) = totalExponent m e := by
  rw [totalExponent, totalExponent, log2_shifted m k positive]
  omega

theorem shiftToTargetExponent_exact (m : Nat) (e : Int) (k : Nat) (aligned : Aligned m e) :
    shiftToTargetExponent binary64 (m * 2 ^ k) (e - k) .exact = (⟨m, false, false⟩, e) := by
  have amount : (e - (e - k)).toNat = k := by omega
  rw [shiftToTargetExponent, totalExponent_shifted m e k aligned.positive,
    aligned.targetExponent_eq, shiftToExponent, amount]
  have exponent : e - k + k = e := by omega
  simp only [ExtendedMantissa.ofMantissaAndAccuracy, shiftRight_exact, exponent]

theorem shiftToTargetExponent_aligned (m : Nat) (e : Int) (aligned : Aligned m e) :
    shiftToTargetExponent binary64 m e .exact = (⟨m, false, false⟩, e) := by
  simpa using shiftToTargetExponent_exact m e 0 aligned

theorem roundWithAccuracy_exact (sign : Sign) (m : Nat) (e : Int) (k : Nat)
    (aligned : Aligned m e) :
    roundWithAccuracy binary64 sign (m * 2 ^ k) (e - k) .exact =
      .finite sign m e aligned.positive := by
  have first := shiftToTargetExponent_exact m e k aligned
  have again := shiftToTargetExponent_aligned m e aligned
  have rounded : (⟨m, false, false⟩ : ExtendedMantissa).roundedMantissa = m := rfl
  have nonzero : ¬ m = 0 := Nat.pos_iff_ne_zero.mp aligned.positive
  simp only [roundWithAccuracy, first, rounded, again, nonzero, dite_false]

theorem log2_mul_le (m n : Nat) (positive : 0 < m) (more : 0 < n) :
    (m * n).log2 ≤ m.log2 + n.log2 + 1 := by
  have left := Nat.lt_log2_self (n := m)
  have right := Nat.lt_log2_self (n := n)
  have product : m * n < 2 ^ (m.log2 + n.log2 + 2) := by
    calc
      m * n < 2 ^ (m.log2 + 1) * 2 ^ (n.log2 + 1) := Nat.mul_lt_mul'' left right
      _ = 2 ^ (m.log2 + n.log2 + 2) := by rw [← Nat.pow_add]; congr 1; omega
  have bits := (Nat.log2_lt (Nat.mul_ne_zero (by omega) (by omega))).mpr product
  omega

-- The quotient may have one bit less than the difference of the operands' bits promises.
theorem targetExponent_quotient (num den m : Nat) (e : Int) (aligned : Aligned m e)
    (numerator : 0 < num) (more : 0 < den)
    (exact : num * 2 ^ (-e).toNat = den * (m * 2 ^ e.toNat)) :
    binary64.targetExponent (totalExponent num 0 - totalExponent den 0) ≤ e := by
  have bits : num.log2 + (-e).toNat ≤ den.log2 + (m.log2 + e.toNat) + 1 := by
    have positive := aligned.positive
    rw [← log2_shifted num _ numerator, exact, ← log2_shifted m _ positive]
    exact log2_mul_le _ _ more (by positivity)
  have target := aligned.targetExponent_eq
  rw [targetExponent_binary64, totalExponent] at target
  rw [targetExponent_binary64, totalExponent, totalExponent]
  omega

theorem div_exact (num den m : Nat) (e : Int) (aligned : Aligned m e) (numerator : 0 < num)
    (more : 0 < den) (exact : num * 2 ^ (-e).toNat = den * (m * 2 ^ e.toNat)) :
    UnpackedFloat.div binary64 (.finite .positive num 0 numerator) (.finite .positive den 0 more) =
      .finite .positive m e aligned.positive := by
  have below := targetExponent_quotient num den m e aligned numerator more exact
  -- The division works k bits below the exponent of its result, and they come out as zeros.
  obtain ⟨target, least⟩ : ∃ target, target = min (0 - 0)
      (binary64.targetExponent (totalExponent num 0 - totalExponent den 0)) := ⟨_, rfl⟩
  obtain ⟨k, gap⟩ : ∃ k : Nat, e - k = target := ⟨(e - target).toNat, by omega⟩
  have shifted : num <<< (0 - 0 - target).toNat = den * (m * 2 ^ k) := by
    have scaled : num * 2 ^ (0 - 0 - target).toNat * 2 ^ (-e).toNat =
        den * (m * 2 ^ k) * 2 ^ (-e).toNat := by
      calc
        num * 2 ^ (0 - 0 - target).toNat * 2 ^ (-e).toNat
            = num * 2 ^ (-e).toNat * 2 ^ (0 - 0 - target).toNat := by ring
        _ = den * m * 2 ^ (e.toNat + (0 - 0 - target).toNat) := by
            rw [exact, Nat.pow_add]; ring
        _ = den * m * 2 ^ (k + (-e).toNat) := by congr 2; omega
        _ = den * (m * 2 ^ k) * 2 ^ (-e).toNat := by rw [Nat.pow_add]; ring
    rw [Nat.shiftLeft_eq]
    exact Nat.eq_of_mul_eq_mul_right (by positivity) scaled
  have core : divCore binary64 num 0 den 0 = (m * 2 ^ k, e - k, .exact) := by
    simp only [divCore, ← least, shifted, gap, Nat.mul_div_cancel_left _ more,
      Nat.mul_mod_right, accuracyOfFraction, if_true]
  have rounded := roundWithAccuracy_exact .positive m e k aligned
  simp only [UnpackedFloat.div, core]
  exact rounded

/-! The bits that rounding takes away. -/

theorem shiftRight_mantissa (extended : ExtendedMantissa) (k : Nat) :
    (extended >>> k).mantissa = extended.mantissa / 2 ^ k := by
  induction k with
  | zero => simp [HShiftRight.hShiftRight, Nat.repeat]
  | succ k ih =>
      have step : (extended >>> (k + 1)).mantissa = (extended >>> k).mantissa / 2 := rfl
      rw [step, ih, Nat.div_div_eq_div_mul, ← Nat.pow_succ]

theorem roundedMantissa_bounds (extended : ExtendedMantissa) :
    extended.mantissa ≤ extended.roundedMantissa ∧
      extended.roundedMantissa ≤ extended.mantissa + 1 := by
  obtain ⟨m, round, sticky⟩ := extended
  cases round <;> cases sticky <;>
    simp only [ExtendedMantissa.roundedMantissa, ExtendedMantissa.accuracy,
      Accuracy.roundToNearestEven] <;> omega

def excess (m : Nat) (e : Int) : Nat :=
  (max (m.log2 + e - 52) (-1074) - e).toNat

theorem shiftToTargetExponent_eq (m : Nat) (e : Int) (accuracy : Accuracy) :
    shiftToTargetExponent binary64 m e accuracy =
      (ExtendedMantissa.ofMantissaAndAccuracy m accuracy >>> excess m e, e + excess m e) := by
  have target : binary64.targetExponent (totalExponent m e) = max (m.log2 + e - 52) (-1074) := by
    rw [targetExponent_binary64, totalExponent]
    omega
  rw [shiftToTargetExponent, target]
  rfl

theorem shiftToTargetExponent_short (m : Nat) (e : Int) (short : m < 2 ^ 53) (least : -1074 ≤ e) :
    shiftToTargetExponent binary64 m e .exact = (⟨m, false, false⟩, e) := by
  have bits : m.log2 < 53 := by
    by_cases zero : m = 0
    · subst zero
      decide
    · exact (Nat.log2_lt zero).mpr short
  have fits : excess m e = 0 := by
    rw [excess]
    omega
  rw [shiftToTargetExponent_eq, fits]
  simp [ExtendedMantissa.ofMantissaAndAccuracy, HShiftRight.hShiftRight, Nat.repeat]

theorem mantissa_ofMantissaAndAccuracy (m : Nat) (accuracy : Accuracy) :
    (ExtendedMantissa.ofMantissaAndAccuracy m accuracy).mantissa = m := by
  rcases accuracy with _ | order
  · rfl
  · cases order <;> rfl

theorem excess_bounds (m : Nat) (e : Int) (accuracy : Accuracy) :
    -1074 ≤ e + excess m e ∧
      (ExtendedMantissa.ofMantissaAndAccuracy m accuracy >>> excess m e).mantissa < 2 ^ 53 := by
  constructor
  · rw [excess]
    omega
  · have bits : m.log2 + 1 ≤ 53 + excess m e := by
      rw [excess]
      omega
    rw [shiftRight_mantissa, mantissa_ofMantissaAndAccuracy,
      Nat.div_lt_iff_lt_mul (by positivity), ← Nat.pow_add]
    exact Nat.lt_log2_self.trans_le (Nat.pow_le_pow_right (by decide) bits)

theorem shiftToTargetExponent_carried (e : Int) (least : -1074 ≤ e) :
    shiftToTargetExponent binary64 (2 ^ 53) e .exact = (⟨2 ^ 52, false, false⟩, e + 1) := by
  have aligned : Aligned (2 ^ 52) (e + 1) := ⟨by omega, by omega, by omega, .inl le_rfl⟩
  have shifted := shiftToTargetExponent_exact _ _ 1 aligned
  have power : 2 ^ 52 * 2 ^ 1 = 2 ^ 53 := rfl
  have below : e + 1 - (1 : Nat) = e := by omega
  rwa [power, below] at shifted

-- Past the first shift only a carry is left, and it shifts by one bit.
theorem roundWithAccuracy_shifted (sign : Sign) (m : Nat) (e : Int) (accuracy : Accuracy)
    (extended : ExtendedMantissa) (target : Int)
    (first : shiftToTargetExponent binary64 m e accuracy = (extended, target)) :
    (extended.roundedMantissa = 0 ∧
      roundWithAccuracy binary64 sign m e accuracy = .zero sign) ∨
    (extended.roundedMantissa < 2 ^ 53 ∧ ∃ positive, roundWithAccuracy binary64 sign m e accuracy =
      .finite sign extended.roundedMantissa target positive) ∨
    (extended.roundedMantissa = 2 ^ 53 ∧ ∃ positive, roundWithAccuracy binary64 sign m e accuracy =
      .finite sign (2 ^ 52) (target + 1) positive) := by
  obtain ⟨least, short⟩ := excess_bounds m e accuracy
  have shape := (shiftToTargetExponent_eq m e accuracy).symm.trans first
  obtain ⟨shifted, exponent⟩ := Prod.mk.inj shape
  rw [exponent] at least
  rw [shifted] at short
  have bounds := roundedMantissa_bounds extended
  by_cases zero : extended.roundedMantissa = 0
  · have again := shiftToTargetExponent_short 0 target (by decide) least
    refine .inl ⟨zero, ?_⟩
    simp only [roundWithAccuracy, first, zero, again, dite_true]
  · by_cases carried : extended.roundedMantissa < 2 ^ 53
    · have again := shiftToTargetExponent_short _ target carried least
      refine .inr (.inl ⟨carried, by omega, ?_⟩)
      simp only [roundWithAccuracy, first, again, zero, dite_false]
    · have full : extended.roundedMantissa = 2 ^ 53 := by omega
      have again := shiftToTargetExponent_carried target least
      refine .inr (.inr ⟨full, by omega, ?_⟩)
      simp only [roundWithAccuracy, first, full, again]
      rfl

/-! Rounding whole numbers. -/

theorem shiftToTargetExponent_large (n : Nat) (large : 2 ^ 53 ≤ n) :
    shiftToTargetExponent binary64 (n * 2 ^ 53) (-53) .exact =
      ((⟨n * 2 ^ 53, false, false⟩ : ExtendedMantissa) >>> (n.log2 + 1), (n.log2 : Int) - 52) := by
  have bits : 53 ≤ n.log2 := (Nat.le_log2 (by omega)).mpr large
  have amount : excess (n * 2 ^ 53) (-53) = n.log2 + 1 := by
    rw [excess, log2_shifted n 53 (by omega)]
    omega
  have exponent : -53 + ((n.log2 + 1 : Nat) : Int) = n.log2 - 52 := by omega
  rw [shiftToTargetExponent_eq, amount, exponent]
  rfl

theorem shiftRight_full (n : Nat) (positive : 0 < n) :
    2 ^ 52 ≤ ((⟨n * 2 ^ 53, false, false⟩ : ExtendedMantissa) >>> (n.log2 + 1)).mantissa ∧
      ((⟨n * 2 ^ 53, false, false⟩ : ExtendedMantissa) >>> (n.log2 + 1)).mantissa < 2 ^ 53 := by
  have low := Nat.log2_self_le (Nat.pos_iff_ne_zero.mp positive)
  have high := Nat.lt_log2_self (n := n)
  rw [shiftRight_mantissa]
  constructor
  · rw [Nat.le_div_iff_mul_le (by positivity)]
    calc
      2 ^ 52 * 2 ^ (n.log2 + 1) = 2 ^ n.log2 * 2 ^ 53 := by ring
      _ ≤ n * 2 ^ 53 := Nat.mul_le_mul_right _ low
  · rw [Nat.div_lt_iff_lt_mul (by positivity), Nat.mul_comm]
    exact Nat.mul_lt_mul_of_pos_left high (by positivity)

theorem roundWithAccuracy_large (n : Nat) (large : 2 ^ 53 ≤ n) :
    ∃ m e some, roundWithAccuracy binary64 .positive (n * 2 ^ 53) (-53) .exact =
      .finite .positive m e some ∧ Aligned m e ∧ 0 ≤ e := by
  have bits : 53 ≤ n.log2 := (Nat.le_log2 (by omega)).mpr large
  have first := shiftToTargetExponent_large n large
  have quotient := shiftRight_full n (by omega)
  have bounds := roundedMantissa_bounds
    ((⟨n * 2 ^ 53, false, false⟩ : ExtendedMantissa) >>> (n.log2 + 1))
  rcases roundWithAccuracy_shifted .positive _ _ _ _ _ first with
    ⟨zero, _⟩ | ⟨short, positive, value⟩ | ⟨_, positive, value⟩
  · omega
  · exact ⟨_, _, positive, value, ⟨positive, short, by omega, .inl (by omega)⟩, by omega⟩
  · exact ⟨_, _, positive, value, ⟨positive, by omega, by omega, .inl le_rfl⟩, by omega⟩

/-! Doubles from decimals. -/

theorem unpack_infinity (sign : Sign) :
    (Float.Model.pack (.infinity sign)).unpack = .infinity sign := by
  cases sign <;> rfl

theorem unpack_zero (sign : Sign) : (Float.Model.pack (.zero sign)).unpack = .zero sign := by
  cases sign <;> rfl

theorem eq_of_unpack (x y : Float) (same : x.toModel.unpack = y.toModel.unpack) : x = y := by
  have model : x.toModel = y.toModel := by rw [← pack_unpack x.toModel, same, pack_unpack]
  exact congrArg Float.ofModel model

theorem abs_of_unpack (x : Float) (sign : Sign) (m : Nat) (e : Int) (positive : 0 < m)
    (value : x.toModel.unpack = .finite sign m e positive) :
    x.abs = .ofModel (.pack (.finite .positive m e positive)) := by
  have magnitude : x.abs = .ofModel (.pack x.toModel.unpack.abs) := rfl
  rw [magnitude, value]
  rfl

theorem isFinite_eq_unpack (x : Float) : x.isFinite = x.toModel.unpack.isFinite := rfl

theorem unpack_neg (x : Float) : (-x).toModel.unpack = x.toModel.unpack.neg := by
  have negated : (-x).toModel = .pack x.toModel.unpack.neg := rfl
  rw [negated]
  cases value : x.toModel.unpack with
  | notANumber => rfl
  | infinity sign => exact unpack_infinity _
  | zero sign => exact unpack_zero _
  | finite sign m e positive =>
      exact unpack_pack _ m e positive (canonical_of_unpack _ _ _ _ _ value)

theorem neg_of_unpack (x : Float) (m : Nat) (e : Int) (positive : 0 < m)
    (value : x.toModel.unpack = .finite .negative m e positive) :
    -(Float.ofModel (.pack (.finite .positive m e positive))) = x := by
  have canonical := canonical_of_unpack _ _ _ _ _ value
  apply eq_of_unpack
  rw [unpack_neg, unpack_pack _ m e positive canonical, value]
  rfl

theorem ofDecimal_exact (digits places m : Nat) (e : Int) (canonical : Canonical m e)
    (digit : 0 < digits) (fractional : 0 < places) (short : places ≤ 2048)
    (exact : digits * 2 ^ (-e).toNat = 10 ^ places * (m * 2 ^ e.toNat)) :
    ofDecimal digits (-places) = .ofModel (.pack (.finite .positive m e canonical.positive)) := by
  have ten : 0 < 10 ^ (- -(places : Int)).toNat := by positivity
  have power : (- -(places : Int)).toNat = places := by omega
  have quotient := div_exact digits _ m e canonical.toAligned digit ten (by rw [power]; exact exact)
  have limit : (2 : Int) ^ binary64.exponentBits = 2048 := rfl
  have value : UnpackedFloat.ofScientific binary64 digits (-places) =
      .finite .positive m e canonical.positive := by
    rw [UnpackedFloat.ofScientific, dif_neg (by omega), if_neg (by omega), if_neg (by omega),
      if_neg (by omega)]
    exact quotient
  rw [ofDecimal, Float.Model.ofScientific, value]

-- Past the largest double a value is packed as an infinity.
theorem unpack_pack_large (m : Nat) (e : Int) (positive : 0 < m) (large : 971 < e) :
    (Float.Model.pack (.finite .positive m e positive)).unpack = .infinity .positive := by
  have packed : Float.Model.pack (.finite .positive m e positive) =
      Float.Model.pack (.infinity .positive) := by
    have bits : UnpackedFloat.pack binary64 (.finite .positive m e positive) =
        UnpackedFloat.pack binary64 (.infinity .positive) := by
      rw [pack_finite, if_pos (by omega)]
      rfl
    simp only [Float.Model.pack, bits]
  rw [packed, unpack_infinity]

theorem isWhole_of_natural (m : Nat) (e : Int) (natural : 0 ≤ e) : isWhole m e = true := by
  have power : (-e).toNat = 0 := by omega
  simp [isWhole, power, Nat.mod_one]

theorem canonical_shifted (n : Nat) (positive : 0 < n) (small : n < 2 ^ 53) :
    Canonical (n * 2 ^ (52 - n.log2)) (n.log2 - 52) := by
  have low := Nat.log2_self_le (Nat.pos_iff_ne_zero.mp positive)
  have high := Nat.lt_log2_self (n := n)
  have bits : n.log2 < 53 := (Nat.log2_lt (by omega)).mpr small
  have full : 2 ^ 52 ≤ n * 2 ^ (52 - n.log2) := by
    calc
      2 ^ 52 = 2 ^ n.log2 * 2 ^ (52 - n.log2) := by rw [← Nat.pow_add]; congr 1; omega
      _ ≤ n * 2 ^ (52 - n.log2) := Nat.mul_le_mul_right _ low
  have short : n * 2 ^ (52 - n.log2) < 2 ^ 53 := by
    calc
      n * 2 ^ (52 - n.log2) < 2 ^ (n.log2 + 1) * 2 ^ (52 - n.log2) :=
        Nat.mul_lt_mul_of_pos_right high (by positivity)
      _ = 2 ^ 53 := by rw [← Nat.pow_add]; congr 1; omega
  exact ⟨⟨by omega, short, by omega, .inl full⟩, by omega⟩

theorem isWhole_rounded (n : Nat) (positive : 0 < n) (sign : Sign) (m : Nat) (e : Int)
    (more : 0 < m)
    (value : (Float.Model.pack (roundWithAccuracy binary64 .positive (n * 2 ^ 53) (-53)
      .exact)).unpack = .finite sign m e more) : isWhole m e = true := by
  by_cases large : 2 ^ 53 ≤ n
  · obtain ⟨m', e', more', rounded, aligned, natural⟩ := roundWithAccuracy_large n large
    rw [rounded] at value
    by_cases finite : e' ≤ 971
    · rw [unpack_pack _ _ _ _ ⟨aligned, finite⟩] at value
      cases value
      exact isWhole_of_natural _ _ natural
    · rw [unpack_pack_large _ _ _ (by omega)] at value
      cases value
  · have small : n < 2 ^ 53 := by omega
    have bits : n.log2 < 53 := (Nat.log2_lt (by omega)).mpr small
    have canonical := canonical_shifted n positive small
    have rounded := roundWithAccuracy_exact .positive _ _ (n.log2 + 1) canonical.toAligned
    have exponent : (n.log2 : Int) - 52 - ((n.log2 + 1 : Nat) : Int) = -53 := by omega
    have mantissa : n * 2 ^ (52 - n.log2) * 2 ^ (n.log2 + 1) = n * 2 ^ 53 := by
      rw [Nat.mul_assoc, ← Nat.pow_add]
      congr 2
      omega
    rw [exponent, mantissa] at rounded
    rw [rounded, unpack_pack _ _ _ _ canonical] at value
    cases value
    simp [isWhole]

theorem isWhole_ofDecimal (digits : Nat) (exponent : Int) (natural : 0 ≤ exponent) (sign : Sign)
    (m : Nat) (e : Int) (more : 0 < m)
    (value : (ofDecimal digits exponent).toModel.unpack = .finite sign m e more) :
    isWhole m e = true := by
  simp only [ofDecimal, Float.Model.ofScientific] at value
  unfold UnpackedFloat.ofScientific at value
  split at value
  · rw [unpack_zero] at value
    cases value
  · next positive =>
      split at value
      · rw [unpack_infinity] at value
        cases value
      · split at value
        · rw [unpack_zero] at value
          cases value
        · have mantissa : digits <<< binary64.mantissaBits * 10 ^ exponent.toNat =
              digits * 10 ^ exponent.toNat * 2 ^ 53 := by
            rw [mantissaBits_binary64, Nat.shiftLeft_eq]
            ring
          apply isWhole_rounded (digits * 10 ^ exponent.toNat) (by positivity) sign m e more
          rw [← mantissa]
          exact value

end ChainScript.Numeral
