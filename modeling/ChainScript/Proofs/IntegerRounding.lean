import ChainScript.Proofs.FloatOrder
import ChainScript.Proofs.Overflow

/-!
The double for an integer. No double is nearer to the integer, and where another one is as near, the
significand is even.
-/

namespace ChainScript.Numeral

open Float.Model (UnpackedFloat totalExponent)
open Float.Model.Format (binary64)
open Float.Model.UnpackedFloat

/-! The bits that a shift takes away. -/

theorem roundBit_eq (extended : ExtendedMantissa) :
    extended.roundBit = decide (halves extended % 2 = 1) := by
  obtain ⟨m, round, sticky⟩ := extended
  cases round <;> simp [halves, Nat.add_mod]

theorem stickyBit_shiftRight (extended : ExtendedMantissa) (k : Nat) :
    (extended >>> k).stickyBit =
      (extended.stickyBit || decide (halves extended % 2 ^ k ≠ 0)) := by
  induction k with
  | zero => simp [HShiftRight.hShiftRight, Nat.repeat, Nat.mod_one]
  | succ k ih =>
      have step : (extended >>> (k + 1)).stickyBit =
          ((extended >>> k).roundBit || (extended >>> k).stickyBit) := rfl
      rw [step, ih, roundBit_eq, halves_shiftRight, Nat.mod_pow_succ]
      rcases Nat.mod_two_eq_zero_or_one (halves extended / 2 ^ k) with even | odd
      · simp [even]
      · simp [odd]

theorem roundedMantissa_eq (extended : ExtendedMantissa) :
    extended.roundedMantissa =
      if halves extended % 2 = 0 then halves extended / 2
      else if extended.stickyBit then halves extended / 2 + 1
      else halves extended / 2 + halves extended / 2 % 2 := by
  obtain ⟨m, round, sticky⟩ := extended
  cases round <;> cases sticky <;>
    simp only [halves, ExtendedMantissa.roundedMantissa, ExtendedMantissa.accuracy,
      Accuracy.roundToNearestEven, Bool.toNat_true, Bool.toNat_false] <;> grind

def roundedBits (n k : Nat) : Nat :=
  ((⟨n, false, false⟩ : ExtendedMantissa) >>> k).roundedMantissa

theorem roundedBits_nearest (n k : Nat) :
    2 * n ≤ 2 * (2 ^ k * roundedBits n k) + 2 ^ k ∧ 2 * (2 ^ k * roundedBits n k) ≤ 2 * n + 2 ^ k ∧
      (roundedBits n k % 2 = 1 → 2 * n < 2 * (2 ^ k * roundedBits n k) + 2 ^ k ∧
        2 * (2 ^ k * roundedBits n k) < 2 * n + 2 ^ k) := by
  have halved : halves ((⟨n, false, false⟩ : ExtendedMantissa) >>> k) = 2 * n / 2 ^ k := by
    rw [halves_shiftRight]
    rfl
  have sticky : ((⟨n, false, false⟩ : ExtendedMantissa) >>> k).stickyBit =
      decide (2 * n % 2 ^ k ≠ 0) := by
    rw [stickyBit_shiftRight]
    rfl
  have split := Nat.div_add_mod (2 * n) (2 ^ k)
  have below := Nat.mod_lt (2 * n) (Nat.two_pow_pos k)
  rw [roundedBits, roundedMantissa_eq, halved, sticky]
  -- What is kept is half of the halves, or one more.
  obtain ⟨c, half⟩ : ∃ c, c = 2 * n / 2 ^ k / 2 := ⟨_, rfl⟩
  rw [← half]
  rcases Nat.mod_two_eq_zero_or_one (2 * n / 2 ^ k) with even | odd
  · have halves : 2 * n / 2 ^ k = 2 * c := by omega
    rw [if_pos even]
    rw [halves, Nat.mul_left_comm] at split
    omega
  · have halves : 2 * n / 2 ^ k = 2 * c + 1 := by omega
    rw [if_neg (by omega)]
    rw [halves, Nat.mul_succ, Nat.mul_left_comm] at split
    by_cases exact : 2 * n % 2 ^ k = 0
    · rw [if_neg (by simpa using exact)]
      rcases Nat.mod_two_eq_zero_or_one c with low | high
      · simp only [low, Nat.add_zero]
        omega
      · simp only [high, Nat.mul_add]
        omega
    · rw [if_pos (by simpa using exact)]
      simp only [Nat.mul_add]
      omega

/-! The double for a natural number. -/

def spare (n : Nat) : Nat := n.log2 - 52

theorem spare_large (n : Nat) (large : 2 ^ 53 ≤ n) :
    excess n 0 = spare n ∧ 0 < spare n ∧ 2 ^ 52 * 2 ^ spare n ≤ n ∧ n < 2 ^ 53 * 2 ^ spare n := by
  have bits : 53 ≤ n.log2 := (Nat.le_log2 (by omega)).mpr large
  have low := Nat.log2_self_le (n := n) (by omega)
  have high := Nat.lt_log2_self (n := n)
  rw [spare, ← Nat.pow_add, ← Nat.pow_add]
  refine ⟨by rw [excess]; omega, by omega, ?_, ?_⟩
  · rwa [Nat.add_sub_cancel' (by omega)]
  · rwa [show 53 + (n.log2 - 52) = n.log2 + 1 by omega]

theorem spare_small (n : Nat) (small : n < 2 ^ 53) : spare n = 0 := by
  by_cases zero : n = 0
  · rw [zero]
    rfl
  · have bits : n.log2 < 53 := (Nat.log2_lt zero).mpr small
    rw [spare]
    omega

theorem roundedBits_zero (n : Nat) : roundedBits n 0 = n := rfl

theorem round_natural (sign : Sign) (n : Nat) :
    UnpackedFloat.round binary64 sign n 0 = roundWithAccuracy binary64 sign
      (n * 2 ^ (52 - n.log2)) (-(52 - n.log2 : Nat)) .exact := by
  have target : binary64.targetExponent (totalExponent n 0) = n.log2 - 52 := by
    rw [targetExponent_binary64, totalExponent]
    omega
  have up : (0 - (n.log2 - 52 : Int)).toNat = 52 - n.log2 := by omega
  simp only [UnpackedFloat.round, decreaseExponent, target, up, Nat.shiftLeft_eq]
  rw [zero_sub]

theorem round_large (sign : Sign) (n : Nat) (bounded : n < 2 ^ 64) (large : 2 ^ 53 ≤ n) :
    ∃ m e positive, UnpackedFloat.round binary64 sign n 0 = .finite sign m e positive ∧
      Canonical m e ∧
      (m * 2 ^ e : ℚ) = roundedBits n (spare n) * 2 ^ spare n ∧
      (roundedBits n (spare n) % 2 = 0 → m % 2 = 0) := by
  obtain ⟨dropped, more, low, high⟩ := spare_large n large
  have few : spare n ≤ 11 := by
    have bits : n.log2 < 64 := (Nat.log2_lt (by omega)).mpr bounded
    rw [spare]
    omega
  have unmoved : UnpackedFloat.round binary64 sign n 0 =
      roundWithAccuracy binary64 sign n 0 .exact := by
    have unshifted : 52 - n.log2 = 0 := by
      have : 0 < n.log2 - 52 := more
      omega
    rw [round_natural, unshifted, Nat.pow_zero, Nat.mul_one]
    rfl
  have first := shiftToTargetExponent_eq n 0 .exact
  rw [dropped, zero_add] at first
  have kept : 2 ^ 52 ≤ roundedBits n (spare n) := by
    have bounds := roundedMantissa_bounds ((⟨n, false, false⟩ : ExtendedMantissa) >>> spare n)
    rw [shiftRight_mantissa] at bounds
    exact ((Nat.le_div_iff_mul_le (by positivity)).mpr low).trans bounds.1
  rw [unmoved]
  rcases roundWithAccuracy_shifted sign n 0 .exact _ _ first with
    ⟨zero, _⟩ | ⟨short, positive, value⟩ | ⟨carried, positive, value⟩
  · have vanished : roundedBits n (spare n) = 0 := zero
    omega
  · exact ⟨_, _, positive, value, ⟨⟨positive, short, by omega, .inl kept⟩, by omega⟩, by
      rw [zpow_natCast]; rfl, id⟩
  · have full : roundedBits n (spare n) = 2 ^ 53 := carried
    refine ⟨_, _, positive, value, ⟨⟨positive, by omega, by omega, .inl le_rfl⟩, by omega⟩, ?_, ?_⟩
    · rw [full, zpow_add₀ (by norm_num), zpow_natCast]
      push_cast
      ring
    · intro _
      rfl

theorem shifted_value (n k : Nat) : ((n * 2 ^ k : Nat) : ℚ) * 2 ^ (-(k : Int)) = n := by
  rw [zpow_neg, zpow_natCast]
  push_cast
  field_simp

theorem round_small (sign : Sign) (n : Nat) (positive : 0 < n) (small : n < 2 ^ 53) :
    ∃ m e more, UnpackedFloat.round binary64 sign n 0 = .finite sign m e more ∧ Canonical m e ∧
      (m * 2 ^ e : ℚ) = roundedBits n (spare n) * 2 ^ spare n ∧
      (roundedBits n (spare n) % 2 = 0 → m % 2 = 0) := by
  have bits : n.log2 < 53 := (Nat.log2_lt (by omega)).mpr small
  have canonical := canonical_shifted n positive small
  have exponent : (n.log2 - 52 : Int) = -((52 - n.log2 : Nat) : Int) := by omega
  rw [exponent] at canonical
  have exact := roundWithAccuracy_exact sign _ _ 0 canonical.toAligned
  rw [Nat.pow_zero, Nat.mul_one, Nat.cast_zero, sub_zero, ← round_natural] at exact
  refine ⟨_, _, _, exact, canonical, ?_, ?_⟩
  · rw [shifted_value, spare_small n small, roundedBits_zero, pow_zero, mul_one]
  · intro even
    rw [spare_small n small, roundedBits_zero] at even
    rw [Nat.mul_mod, even, Nat.zero_mul, Nat.zero_mod]

theorem round_finite (sign : Sign) (n : Nat) (positive : 0 < n) (bounded : n < 2 ^ 64) :
    ∃ m e more, UnpackedFloat.round binary64 sign n 0 = .finite sign m e more ∧ Canonical m e ∧
      (m * 2 ^ e : ℚ) = roundedBits n (spare n) * 2 ^ spare n ∧
      (roundedBits n (spare n) % 2 = 0 → m % 2 = 0) :=
  (Nat.lt_or_ge n (2 ^ 53)).elim (round_small sign n positive) (round_large sign n bounded)

/-! No double is nearer. -/

def significand : UnpackedFloat → Nat
  | .finite _ m _ _ => m
  | _ => 0

def IsValue (p : ℚ) : Prop := ∃ x, extent? x = some (number p)

theorem isValue_iff (p : ℚ) :
    IsValue p ↔ p = 0 ∨ ∃ m e, Canonical m e ∧ |p| = m * 2 ^ e := by
  constructor
  · rintro ⟨x, known⟩
    rw [extent?] at known
    cases unpacked : x.toModel.unpack with
    | notANumber => simp [unpacked, extentOf] at known
    | infinity s => cases s <;> simp [unpacked, extentOf, number] at known
    | zero s =>
        rw [unpacked, extentOf, Option.some_inj, number_inj] at known
        exact .inl known.symm
    | finite s m e positive =>
        have size : (0 : ℚ) ≤ m * 2 ^ e := by positivity
        refine .inr ⟨m, e, canonical_of_unpack _ _ _ _ _ unpacked, ?_⟩
        rw [unpacked] at known
        cases s with
        | negative =>
            rw [extentOf, Option.some_inj, number_inj] at known
            rw [← known, abs_neg, abs_of_nonneg size]
        | positive =>
            rw [extentOf, Option.some_inj, number_inj] at known
            rw [← known, abs_of_nonneg size]
  · rintro (rfl | ⟨m, e, canonical, size⟩)
    · exact ⟨.ofModel (.pack (.zero .positive)), congrArg extentOf (unpack_zero .positive)⟩
    · have made (sign : Sign) := unpack_pack sign m e canonical.positive canonical
      rcases abs_choice p with same | negated
      · refine ⟨.ofModel (.pack (.finite .positive m e canonical.positive)), ?_⟩
        rw [← same, size]
        exact congrArg extentOf (made .positive)
      · refine ⟨.ofModel (.pack (.finite .negative m e canonical.positive)), ?_⟩
        rw [show p = -|p| by rw [negated, neg_neg], size]
        exact congrArg extentOf (made .negative)

theorem isValue_neg (p : ℚ) (value : IsValue p) : IsValue (-p) := by
  rw [isValue_iff] at value ⊢
  rwa [abs_neg, neg_eq_zero]

theorem step_le_distances (n step : ℚ) (r j : Int) (nonneg : 0 ≤ step) (other : j ≠ r) :
    step ≤ |n - r * step| + |n - j * step| := by
  have apart : (1 : ℚ) ≤ |(j - r : ℚ)| := by
    have steps : 1 ≤ |j - r| := Int.one_le_abs (by omega)
    exact_mod_cast steps
  calc
    step ≤ |(j - r : ℚ)| * step := le_mul_of_one_le_left nonneg apart
    _ = |(n - r * step) - (n - j * step)| := by
        rw [← abs_of_nonneg nonneg, ← abs_mul, abs_of_nonneg nonneg]
        congr 1
        ring
    _ ≤ |n - r * step| + |n - j * step| := abs_sub _ _

theorem roundedBits_close (n k : Nat) :
    2 * |(n : ℚ) - roundedBits n k * 2 ^ k| ≤ 2 ^ k ∧
      (2 * |(n : ℚ) - roundedBits n k * 2 ^ k| = 2 ^ k → roundedBits n k % 2 = 0) := by
  obtain ⟨low, high, odd⟩ := roundedBits_nearest n k
  have low' : (2 * n : ℚ) ≤ 2 * (2 ^ k * roundedBits n k) + 2 ^ k := by exact_mod_cast low
  have high' : (2 * (2 ^ k * roundedBits n k) : ℚ) ≤ 2 * n + 2 ^ k := by exact_mod_cast high
  constructor
  · rw [← abs_two, ← abs_mul, abs_le, abs_two]
    constructor <;> linarith
  · intro middle
    by_contra uneven
    obtain ⟨less, less'⟩ := odd (by omega)
    have below : (2 * n : ℚ) < 2 * (2 ^ k * roundedBits n k) + 2 ^ k := by exact_mod_cast less
    have above : (2 * (2 ^ k * roundedBits n k) : ℚ) < 2 * n + 2 ^ k := by exact_mod_cast less'
    rcases abs_cases ((n : ℚ) - roundedBits n k * 2 ^ k) with ⟨size, _⟩ | ⟨size, _⟩ <;>
      rw [size] at middle <;> linarith

section

variable (n : Nat) (p : ℚ) (value : IsValue p)

include value

theorem value_cases :
    (∃ j : Int, p = j * 2 ^ spare n) ∨ p < 2 ^ 52 * 2 ^ spare n := by
  have step : (0 : ℚ) < 2 ^ spare n := by positivity
  rcases (isValue_iff p).mp value with rfl | ⟨m, e, canonical, size⟩
  · exact .inl ⟨0, by simp⟩
  · rcases lt_or_ge e (spare n) with fine | coarse
    · right
      have short : (m : ℚ) < 2 ^ 53 := by exact_mod_cast canonical.short
      calc
        p ≤ m * 2 ^ e := size ▸ le_abs_self p
        _ < 2 ^ 53 * 2 ^ e := by gcongr
        _ ≤ 2 ^ 53 * 2 ^ ((spare n : Int) - 1) := by
            gcongr
            · norm_num
            · omega
        _ = 2 ^ 52 * 2 ^ spare n := by
            rw [zpow_sub₀ (by norm_num), zpow_natCast]
            ring
    · left
      obtain ⟨i, rfl⟩ : ∃ i : Nat, e = spare n + i := ⟨(e - spare n).toNat, by omega⟩
      have shifted : |p| = ((m * 2 ^ i : Int) : ℚ) * 2 ^ spare n := by
        rw [size, zpow_add₀ (by norm_num), zpow_natCast, zpow_natCast]
        push_cast
        ring
      rcases abs_choice p with same | negated
      · exact ⟨m * 2 ^ i, same ▸ shifted⟩
      · refine ⟨-(m * 2 ^ i), ?_⟩
        rw [Int.cast_neg, neg_mul, ← shifted, negated, neg_neg]

theorem natural_nearest (q : ℚ) (kept : q = roundedBits n (spare n) * 2 ^ spare n) :
    |n - q| ≤ |n - p| ∧ (|n - p| = |n - q| → p ≠ q → roundedBits n (spare n) % 2 = 0) := by
  rcases Nat.lt_or_ge n (2 ^ 53) with small | large
  · have exact : q = n := by
      rw [kept, spare_small n small, roundedBits_zero, pow_zero, mul_one]
    rw [exact, sub_self, abs_zero]
    refine ⟨abs_nonneg _, fun zero other => ?_⟩
    exact absurd (sub_eq_zero.mp (abs_eq_zero.mp zero)).symm other
  · obtain ⟨close, even⟩ := roundedBits_close n (spare n)
    rw [← kept] at close even
    have step : (0 : ℚ) < 2 ^ spare n := by positivity
    -- Another multiple is at least half a step away, and less is farther still.
    have apart (j : Int) (other : (j : ℚ) * 2 ^ spare n ≠ q) :
        (2 : ℚ) ^ spare n ≤ |n - q| + |n - (j : ℚ) * 2 ^ spare n| := by
      have differs : j ≠ roundedBits n (spare n) := by
        rintro rfl
        exact other (by rw [kept]; norm_cast)
      have distances := step_le_distances n (2 ^ spare n) _ j step.le differs
      rwa [Int.cast_natCast, ← kept] at distances
    rcases value_cases n p value with ⟨j, rfl⟩ | less
    · by_cases same : (j : ℚ) * 2 ^ spare n = q
      · rw [same]
        exact ⟨le_rfl, fun _ other => absurd rfl other⟩
      · have distance := apart j same
        exact ⟨by linarith, fun tie _ => even (by linarith)⟩
    · have low : (2 ^ 52 * 2 ^ spare n : ℚ) ≤ n := by
        exact_mod_cast (spare_large n large).2.2.1
      have farther : |(n : ℚ) - q| < |n - p| := by
        rw [abs_of_pos (by linarith : (0 : ℚ) < n - p)]
        by_cases same : ((2 ^ 52 : Int) : ℚ) * 2 ^ spare n = q
        · rw [← same, Int.cast_pow, Int.cast_ofNat, abs_of_nonneg (by linarith)]
          linarith
        · have distance := apart (2 ^ 52) same
          rw [Int.cast_pow, Int.cast_ofNat, abs_of_nonneg (sub_nonneg.mpr low)] at distance
          linarith
      exact ⟨farther.le, fun tie => absurd tie farther.ne'⟩

end


/-- The double x has the value q, and no double is nearer to n. Where another one is as near, the
significand of x is even. -/
structure Nearest (n : Int) (x : Float) (q : ℚ) : Prop where
  value : extent? x = some (number q)
  nearest : ∀ p, IsValue p → |n - q| ≤ |n - p|
  even : ∀ p, IsValue p → p ≠ q → |n - p| = |n - q| → significand x.toModel.unpack % 2 = 0

theorem nearest_round (sign : Sign) (n : Nat) (positive : 0 < n) (bounded : n < 2 ^ 64) :
    ∃ q, Nearest (sign.apply n) (.ofModel (.pack (UnpackedFloat.round binary64 sign n 0))) q := by
  have close (p : ℚ) (value : IsValue p) := natural_nearest n p value _ rfl
  obtain ⟨m, e, more, rounded, canonical, value, even⟩ := round_finite sign n positive bounded
  have unpacked := unpack_pack sign m e more canonical
  rw [rounded]
  cases sign with
  | negative =>
      have flip (p : ℚ) : |((Sign.negative.apply n : Int) : ℚ) - p| = |n - -p| := by
        rw [← abs_neg, Sign.apply]
        push_cast
        congr 1
        ring
      refine ⟨-(roundedBits n (spare n) * 2 ^ spare n), ?_, ?_, ?_⟩
      · exact (congrArg extentOf unpacked).trans (by rw [extentOf, value])
      · intro p known
        rw [flip, flip, neg_neg]
        exact (close (-p) (isValue_neg p known)).1
      · intro p known other tie
        rw [flip, flip, neg_neg] at tie
        refine (congrArg (significand · % 2) unpacked).trans (even ?_)
        exact (close (-p) (isValue_neg p known)).2 tie (by rwa [ne_eq, neg_eq_iff_eq_neg])
  | positive =>
      refine ⟨roundedBits n (spare n) * 2 ^ spare n, ?_, ?_, ?_⟩
      · exact (congrArg extentOf unpacked).trans (by rw [extentOf, value])
      · intro p known
        exact (close p known).1
      · intro p known other tie
        exact (congrArg (significand · % 2) unpacked).trans (even ((close p known).2 tie other))

theorem ofInteger_signed (n : Int64) (sign : Sign) (size : Nat) (positive : 0 < size)
    (signed : n.toInt = sign.apply size) :
    ofInteger n = .ofModel (.pack (UnpackedFloat.round binary64 sign size 0)) := by
  have unfolded : ofInteger n =
      .ofModel (.pack (UnpackedFloat.normalize binary64 n.toInt 0 .positive)) := rfl
  cases sign with
  | negative =>
      have below : n.toInt < 0 := by rw [signed, Sign.apply]; omega
      have reached : (-n.toInt).toNat = size := by rw [signed, Sign.apply]; omega
      rw [unfolded, UnpackedFloat.normalize, Int.compare_eq_lt.mpr below, reached]
  | positive =>
      have above : 0 < n.toInt := by rw [signed, Sign.apply]; omega
      have reached : n.toInt.toNat = size := by rw [signed, Sign.apply]; omega
      rw [unfolded, UnpackedFloat.normalize, Int.compare_eq_gt.mpr above, reached]

theorem ofInteger_nearest (n : Int64) : ∃ q, Nearest n.toInt (ofInteger n) q := by
  have low := n.le_toInt
  have high := n.toInt_lt
  have signed (sign : Sign) (size : Nat) (positive : 0 < size) (same : n.toInt = sign.apply size)
      (bounded : size < 2 ^ 64) : ∃ q, Nearest n.toInt (ofInteger n) q := by
    rw [ofInteger_signed n sign size positive same, same]
    exact nearest_round sign size positive bounded
  rcases Int.lt_trichotomy n.toInt 0 with negative | zero | positive
  · exact signed .negative (-n.toInt).toNat (by omega) (by rw [Sign.apply]; omega) (by omega)
  · have unpacked := unpack_zero .positive
    have made : ofInteger n = .ofModel (.pack (.zero .positive)) := by
      have unfolded : ofInteger n =
          .ofModel (.pack (UnpackedFloat.normalize binary64 n.toInt 0 .positive)) := rfl
      rw [unfolded, zero]
      rfl
    rw [made, zero]
    refine ⟨0, congrArg extentOf unpacked, ?_, ?_⟩
    · intro p _
      rw [Int.cast_zero, sub_zero, abs_zero]
      exact abs_nonneg _
    · intro p _ _ _
      exact congrArg (significand · % 2) unpacked
  · exact signed .positive n.toInt.toNat (by omega) (by rw [Sign.apply]; omega) (by omega)

end ChainScript.Numeral
