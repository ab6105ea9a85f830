import ChainScript.Proofs.Binary64
import ChainScript.Proofs.Layout

/-!
The written form of a finite double is a decimal literal, and reads back as the same double.
-/

namespace ChainScript

theorem isNumeral_toDigits (n : Nat) : IsNumeral (Nat.toDigits 10 n) :=
  ⟨Nat.toDigits_ne_nil, fun _ member => Nat.isDigit_of_mem_toDigits (by decide) (by decide) member⟩

theorem isNumeral_zero : IsNumeral ['0'] := isNumeral_toDigits 0

namespace Numeral

theorem isNumeral_padded (width n : Nat) : IsNumeral (padded width n) := by
  have digits := isNumeral_toDigits n
  constructor
  · simp [padded, digits.1]
  · intro c member
    rcases List.mem_append.mp member with filling | digit
    · rw [List.eq_of_mem_replicate filling]
      rfl
    · exact digits.2 c digit

theorem length_padded (width n : Nat) (positive : 0 < width) (short : n < 10 ^ width) :
    (padded width n).length = width := by
  have digits := (Nat.length_toDigits_le_iff (by decide) positive).mpr short
  simp only [padded, List.length_append, List.length_replicate]
  omega

theorem ofDigitChars_padded (width n : Nat) : Nat.ofDigitChars 10 (padded width n) 0 = n := by
  simp [padded, Nat.ofDigitChars_append, Nat.ofDigitChars_replicate_zero]

theorem positional_fraction (digits places : Nat) :
    ∃ whole fraction, IsNumeral whole ∧ IsNumeral fraction ∧
      (positional ⟨digits, .negSucc places⟩).toList = whole ++ '.' :: fraction ∧
      Nat.ofDigitChars 10 (whole ++ fraction) 0 = digits ∧ fraction.length = places + 1 := by
  have below : digits % 10 ^ (places + 1) < 10 ^ (places + 1) := Nat.mod_lt _ (by positivity)
  have length := length_padded (places + 1) _ (Nat.succ_pos places) below
  refine ⟨Nat.toDigits 10 (digits / 10 ^ (places + 1)),
    padded (places + 1) (digits % 10 ^ (places + 1)), isNumeral_toDigits _, isNumeral_padded _ _,
    ?_, ?_, length⟩
  · simp [positional, String.toList_append, Nat.toList_repr]
  · rw [Nat.ofDigitChars_append, Nat.ofDigitChars_ten_toDigits,
      Nat.ofDigitChars_eq_ofDigitChars_zero, ofDigitChars_padded, length]
    exact Nat.div_add_mod _ _

theorem positional_whole (n : Nat) :
    ∃ whole fraction, IsNumeral whole ∧ IsNumeral fraction ∧
      (positional ⟨n, 0⟩).toList = whole ++ '.' :: fraction ∧
      Nat.ofDigitChars 10 (whole ++ fraction) 0 = n * 10 ∧ fraction.length = 1 := by
  refine ⟨Nat.toDigits 10 n, ['0'], isNumeral_toDigits n, isNumeral_zero, ?_, ?_, rfl⟩
  · have text : positional ⟨n, 0⟩ = (n * 10 ^ 0).repr ++ ".0" := rfl
    simp [text, String.toList_append, Nat.toList_repr]
  · rw [Nat.ofDigitChars_append, Nat.ofDigitChars_ten_toDigits, Nat.mul_comm]
    rfl

theorem value_of_firstReadBack (tie : Tie) (target : Float) (num den : Nat) (unit : Int)
    (tries : Nat) (d : Decimal) (found : firstReadBack tie target num den unit tries = some d) :
    d.value = target := by
  induction tries generalizing unit with
  | zero => cases found
  | succ tries ih =>
      rw [firstReadBack] at found
      split at found
      · next hit =>
          cases found
          simpa using List.find?_some hit
      · exact ih _ found

theorem shortest_value (tie : Tie) (x : Float) (sign : Float.Model.UnpackedFloat.Sign) (m : Nat)
    (e : Int) (positive : 0 < m) (value : x.toModel.unpack = .finite sign m e positive)
    (fractional : isWhole m e = false) :
    ∃ digits places, shortest tie x.abs m e = ⟨digits, .negSucc places⟩ ∧
      ofDecimal digits (.negSucc places) = x.abs := by
  have canonical := canonical_of_unpack _ _ _ _ _ value
  have magnitude := abs_of_unpack x sign m e positive value
  have negative : ¬ 0 ≤ e := by
    intro natural
    rw [isWhole_of_natural m e natural] at fractional
    cases fractional
  simp only [shortest]
  cases found : firstReadBack tie x.abs (m * Nat.pow 2 e.toNat) (Nat.pow 2 (-e).toNat)
      (leadingPower (m * Nat.pow 2 e.toNat) (Nat.pow 2 (-e).toNat)) 17 with
  | some d =>
      have reads := value_of_firstReadBack _ _ _ _ _ _ d found
      obtain ⟨digits, exponent⟩ := d
      cases exponent with
      | ofNat natural =>
          -- Without places behind the point it would read as a whole double.
          have whole := isWhole_ofDecimal digits natural (by omega) .positive m e positive (by
            have same : ofDecimal digits natural = x.abs := reads
            rw [same, magnitude]
            exact unpack_pack .positive m e positive canonical)
          rw [whole] at fractional
          cases fractional
      | negSucc places => exact ⟨digits, places, rfl, reads⟩
  | none =>
      -- All digits of the value itself are shown when 17 do not suffice.
      obtain ⟨places, exponent⟩ : ∃ places, e = .negSucc places := ⟨(-e).toNat - 1, by omega⟩
      subst exponent
      have least := canonical.least
      refine ⟨m * 5 ^ (places + 1), places, rfl, ?_⟩
      rw [magnitude]
      apply ofDecimal_exact _ (places + 1) m _ canonical (by positivity) (Nat.succ_pos _)
        (by omega)
      have power : (-Int.negSucc places).toNat = places + 1 := rfl
      have unshifted : (Int.negSucc places).toNat = 0 := rfl
      have ten : 10 ^ (places + 1) = 5 ^ (places + 1) * 2 ^ (places + 1) := by
        rw [← Nat.mul_pow]
      rw [power, unshifted, ten]
      ring

theorem whole_value (x : Float) (sign : Float.Model.UnpackedFloat.Sign) (m : Nat) (e : Int)
    (positive : 0 < m) (value : x.toModel.unpack = .finite sign m e positive)
    (natural : isWhole m e = true) : ofDecimal (whole m e * 10) (-(1 : Nat)) = x.abs := by
  have canonical := canonical_of_unpack _ _ _ _ _ value
  have divides : 2 ^ (-e).toNat ∣ m * 2 ^ e.toNat := by
    apply Dvd.dvd.mul_right
    apply Nat.dvd_of_mod_eq_zero
    simpa [isWhole] using natural
  have exact : whole m e * 2 ^ (-e).toNat = m * 2 ^ e.toNat := Nat.div_mul_cancel divides
  have magnitude : 0 < whole m e := by
    apply Nat.pos_of_ne_zero
    intro zero
    rw [zero, Nat.zero_mul] at exact
    exact absurd exact.symm (by positivity)
  rw [abs_of_unpack x sign m e positive value]
  apply ofDecimal_exact _ 1 m e canonical (by omega) Nat.one_pos (by decide)
  rw [← exact]
  ring

theorem positional_reads (x : Float) (sign : Float.Model.UnpackedFloat.Sign) (m : Nat) (e : Int)
    (positive : 0 < m) (value : x.toModel.unpack = .finite sign m e positive) :
    ∃ integral fraction, IsNumeral integral ∧ IsNumeral fraction ∧
      (positional (if isWhole m e then ⟨whole m e, 0⟩ else shortest .up x.abs m e)).toList =
        integral ++ '.' :: fraction ∧
      ofDecimal (Nat.ofDigitChars 10 (integral ++ fraction) 0) (-fraction.length) = x.abs := by
  cases natural : isWhole m e with
  | true =>
      obtain ⟨integral, fraction, numeral, fractional, text, digits, length⟩ :=
        positional_whole (whole m e)
      refine ⟨integral, fraction, numeral, fractional, text, ?_⟩
      rw [digits, length]
      exact whole_value x sign m e positive value natural
  | false =>
      obtain ⟨digits, places, shown, reads⟩ := shortest_value .up x sign m e positive value natural
      obtain ⟨integral, fraction, numeral, fractional, text, number, length⟩ :=
        positional_fraction digits places
      refine ⟨integral, fraction, numeral, fractional, by simpa [shown] using text, ?_⟩
      rw [number, length, ← reads]
      rfl

end Numeral

def Number.isFinite : Number → Bool
  | .int _ => true
  | .decimal x => x.isFinite

theorem decimal_zero (x : Float) (sign : Float.Model.UnpackedFloat.Sign)
    (value : x.toModel.unpack = .zero sign) :
    Number.decimalOf (sign == .negative) 0 1 = .decimal x := by
  have zero : (Numeral.ofDecimal 0 (-(1 : Nat))).toModel.unpack = .zero .positive :=
    Numeral.unpack_zero .positive
  apply congrArg Number.decimal
  apply Numeral.eq_of_unpack
  cases sign with
  | positive => exact zero.trans value.symm
  | negative =>
      have negated := Numeral.unpack_neg (Numeral.ofDecimal 0 (-(1 : Nat)))
      rw [zero] at negated
      exact negated.trans value.symm

theorem shown_decimal (x : Float) (finite : x.isFinite = true) :
    ∃ negative integral fraction, IsNumeral integral ∧ IsNumeral fraction ∧
      (Numeral.shown x).toList = signText negative ++ integral ++ '.' :: fraction ∧
      Number.decimalOf negative (Nat.ofDigitChars 10 (integral ++ fraction) 0) fraction.length =
        .decimal x := by
  rw [Numeral.isFinite_eq_unpack] at finite
  have sign (s : Float.Model.UnpackedFloat.Sign) :
      (Numeral.signText s).toList = signText (s == .negative) := by cases s <;> rfl
  unfold Numeral.shown
  cases value : x.toModel.unpack with
  | notANumber =>
      rw [value] at finite
      cases finite
  | infinity s =>
      rw [value] at finite
      cases finite
  | zero s =>
      refine ⟨s == .negative, ['0'], ['0'], isNumeral_zero, isNumeral_zero, ?_,
        decimal_zero x s value⟩
      simp [sign]
  | finite s m e positive =>
      obtain ⟨integral, fraction, numeral, fractional, text, reads⟩ :=
        Numeral.positional_reads x s m e positive value
      refine ⟨s == .negative, integral, fraction, numeral, fractional, ?_, ?_⟩
      · simp [sign, text]
      · have magnitude := Numeral.abs_of_unpack x s m e positive value
        simp only [Number.decimalOf, reads, magnitude]
        cases s with
        | positive =>
            have canonical := Numeral.canonical_of_unpack _ _ _ _ _ value
            have same := (Numeral.unpack_pack .positive m e positive canonical).trans value.symm
            exact congrArg Number.decimal (Numeral.eq_of_unpack _ _ same)
        | negative => exact congrArg Number.decimal (Numeral.neg_of_unpack x m e positive value)

end ChainScript
