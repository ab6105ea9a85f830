import ChainScript.Proofs.Operands

/-!
Laws of integer arithmetic. Quotient and remainder fail for the same operands and belong together
where they do not fail; sums, differences and products are exact; and the order of operands matters
to no sum or product.
-/

namespace ChainScript.Prelude

/-- How the operations go together, if `run` tells what comes of each on two integers. -/
structure Lawful (world : World)
    (run : Operation → Int64 → Int64 → EStateM.Result Halt World Value) : Prop where
  ends : ∀ operation a b,
    (∃ n, run operation a b = .ok (.int n) world) ∨ Fails world (run operation a b)
  together : ∀ a b, Fails world (run .div a b) ↔ Fails world (run .rem a b)
  undivided : ∀ a b, Fails world (run .div a b) ↔ b = 0 ∨ a = Int64.minValue ∧ b = -1
  belong : ∀ a b q r, run .div a b = .ok (.int q) world → run .rem a b = .ok (.int r) world →
    a.toInt = b.toInt * q.toInt + r.toInt ∧ r.toInt.natAbs < b.toInt.natAbs ∧
      (r = 0 ∨ r.toInt.sign = a.toInt.sign)
  sum : ∀ a b n, run .add a b = .ok (.int n) world ↔ n.toInt = a.toInt + b.toInt
  difference : ∀ a b n, run .sub a b = .ok (.int n) world ↔ n.toInt = a.toInt - b.toInt
  product : ∀ a b n, run .mul a b = .ok (.int n) world ↔ n.toInt = a.toInt * b.toInt
  swapped : ∀ operation ∈ [Operation.add, .mul], ∀ a b,
    (∃ n, run operation a b = .ok (.int n) world ∧ run operation b a = .ok (.int n) world) ∨
      (Fails world (run operation a b) ∧ Fails world (run operation b a))
  undone : ∀ a b d, run .sub a b = .ok (.int d) world → run .add d b = .ok (.int a) world

/-! Quotients and remainders. -/

theorem Division.sign (a b q r : Int) (division : Division a b q r) : r = 0 ∨ r.sign = a.sign := by
  have above := division.above
  have below := division.below
  rcases Int.lt_trichotomy r 0 with negative | zero | positive
  · right
    rw [Int.sign_eq_neg_one_of_neg negative, Int.sign_eq_neg_one_of_neg (by omega)]
  · exact .inl zero
  · right
    rw [Int.sign_eq_one_of_pos positive, Int.sign_eq_one_of_pos (by omega)]

section

variable (a b : Int64)

/-- A division comes to a number unless it is by zero or its quotient is too large. For a remainder
it is the quotient that counts, too. -/
theorem computes_division_iff (operation : Operation)
    (division : operation ∈ [Operation.div, .rem]) :
    (∃ n, compute operation (.int a) (.int b) = .ok (.int n)) ↔
      ¬ (b = 0 ∨ a = Int64.minValue ∧ b = -1) := by
  have divides : operation.divides = true := by
    rcases List.mem_pair.mp division with rfl | rfl <;> rfl
  have bound : operation.bound a.toInt b.toInt = a.toInt.tdiv b.toInt := by
    rcases List.mem_pair.mp division with rfl | rfl <;> rfl
  by_cases zero : b = 0
  · simp [compute_byZero, divides, zero]
  · rw [compute_defined operation a b (by simp [zero]), bound]
    have quotient := fits_tdiv a b zero
    by_cases fits : Number.fits (a.toInt.tdiv b.toInt) = true <;> simp_all

theorem division_of_compute (q r : Int64) (quotient : compute .div (.int a) (.int b) = .ok (.int q))
    (remainder : compute .rem (.int a) (.int b) = .ok (.int r)) :
    Division a.toInt b.toInt q.toInt r.toInt := by
  have meant := (((computes .div a b).result q).mp quotient).1
  have meant' := (((computes .rem a b).result r).mp remainder).1
  obtain ⟨divisible, cut⟩ := (meant_iff .div a b q).mp meant
  obtain ⟨_, left⟩ := (meant_iff .rem a b r).mp meant'
  have nonzero : b.toInt ≠ 0 := toInt_ne_zero b (by simpa [Operation.divides] using divisible)
  exact (division_iff _ _ _ _).mpr ⟨nonzero, cut, left⟩

end

/-! Sums, differences and products. -/

theorem compute_iff_means (operation : Operation) (a b n : Int64) (accepted : operation ≠ .rem) :
    compute operation (.int a) (.int b) = .ok (.int n) ↔
      operation.Means a.toInt b.toInt n.toInt := by
  rw [(computes operation a b).result n]
  simp [Operation.Refuses, accepted]

theorem compute_swapped (operation : Operation) (commutes : operation ∈ [Operation.add, .mul])
    (a b n : Int64) :
    compute operation (.int a) (.int b) = .ok (.int n) ↔
      compute operation (.int b) (.int a) = .ok (.int n) := by
  have accepted : operation ≠ .rem := by
    rintro rfl
    simp at commutes
  rw [compute_iff_means _ _ _ _ accepted, compute_iff_means _ _ _ _ accepted]
  rcases List.mem_pair.mp commutes with rfl | rfl
  · simp only [Operation.Means, Int.add_comm]
  · simp only [Operation.Means, Int.mul_comm]

theorem compute_undone (a b d : Int64)
    (difference : compute .sub (.int a) (.int b) = .ok (.int d)) :
    compute .add (.int d) (.int b) = .ok (.int a) := by
  rw [compute_iff_means _ _ _ _ (by decide)] at difference ⊢
  simp only [Operation.Means] at difference ⊢
  omega

theorem lawful_of_computing (world : World)
    (run : Operation → Int64 → Int64 → EStateM.Result Halt World Value)
    (value : ∀ operation a b n,
      run operation a b = .ok (.int n) world ↔
        compute operation (.int a) (.int b) = .ok (.int n))
    (failure : ∀ operation a b, Fails world (run operation a b) ↔
      ∀ n, compute operation (.int a) (.int b) ≠ .ok (.int n)) : Lawful world run where
  ends operation a b := by
    rw [failure]
    simp only [value]
    by_cases held : ∃ n, compute operation (.int a) (.int b) = .ok (.int n)
    · exact .inl held
    · exact .inr (not_exists.mp held)
  together a b := by
    have quotient := not_congr (computes_division_iff a b .div (by decide))
    have remainder := not_congr (computes_division_iff a b .rem (by decide))
    rw [not_exists] at quotient remainder
    rw [failure, failure]
    exact quotient.trans remainder.symm
  undivided a b := by
    have quotient := not_congr (computes_division_iff a b .div (by decide))
    rw [not_exists, not_not] at quotient
    rw [failure]
    exact quotient
  belong a b q r quotient remainder := by
    have division := division_of_compute a b q r ((value _ _ _ _).mp quotient)
      ((value _ _ _ _).mp remainder)
    refine ⟨division.whole, division.small, ?_⟩
    have sign := division.sign
    rwa [← Int64.toInt_zero, Int64.toInt_inj] at sign
  sum a b n := by
    rw [value, compute_iff_means _ _ _ _ (by decide), Operation.Means]
  difference a b n := by
    rw [value, compute_iff_means _ _ _ _ (by decide), Operation.Means]
  product a b n := by
    rw [value, compute_iff_means _ _ _ _ (by decide), Operation.Means]
  swapped operation commutes a b := by
    have same := compute_swapped operation commutes a b
    rw [failure, failure]
    simp only [value, ne_eq, ← same, and_self]
    by_cases held : ∃ n, compute operation (.int a) (.int b) = .ok (.int n)
    · exact .inl held
    · exact .inr (not_exists.mp held)
  undone a b d difference := by
    rw [value] at difference ⊢
    exact compute_undone a b d difference

/-- Division and remainder belong together, and nothing wraps. Wherever the words for the operations
stand for the methods of the prelude, and however integers are written or handed over, the quotient
fails where the remainder does; else the two give back the dividend, and the remainder is smaller
than the divisor and has the sign of the dividend. Sums, differences and products are exact, and
there is one wherever 64 bits hold it; sums and products do not depend on the order, and adding
undoes subtracting. -/
theorem integers_lawful (evaluator : Evaluator) (world : World)
    (builtin : ∀ operation : Operation,
      evaluator.called? world.env operation.symbol = some operation.method)
    (spelling : Spelling evaluator) (place : Position) :
    Lawful world fun operation a b =>
      spelling.run operation.symbol place world (.int a) (.int b) := by
  have ends (operation : Operation) (a b : Int64) :
      spelling.run operation.symbol place world (.int a) (.int b) =
        callEnd operation.symbol place world (compute operation (.int a) (.int b)) :=
    spelling.run_answered operation.method place world _ _ _ (builtin operation) rfl
      (perform_arithmetic operation a b evaluator world ⟨[], []⟩)
  apply lawful_of_computing
  · intro operation a b n
    rw [ends, callEnd_eq_ok_iff]
  · intro operation a b
    rw [ends, fails_callEnd_iff]
    constructor
    · intro nothing n
      exact nothing (.int n)
    · intro noInteger value found
      rcases (computes operation a b).settled with ⟨n, settled⟩ | settled | settled
      · exact noInteger n settled
      · rw [settled] at found
        cases found
      · rw [settled] at found
        cases found

/-- A negative dividend leaves a negative remainder, and the least integer has no quotient by -1. -/
theorem integers_lawful_cut :
    let run (operation : Operation) := (@Spelling.literals {}).run operation.symbol
      ⟨0, 1⟩ World.initial
    (∀ operation : Operation,
      Evaluator.called? {} World.initial.env operation.symbol = some operation.method) ∧
    run .div (.int (-7)) (.int 2) = .ok (.int (-3)) .initial ∧
    run .rem (.int (-7)) (.int 2) = .ok (.int (-1)) .initial ∧
    (-7 : Int) = 2 * (-3) + (-1) ∧ Int.natAbs (-1) < Int.natAbs 2 ∧
    Fails .initial (run .div (.int Int64.minValue) (.int (-1))) ∧
    Fails .initial (run .rem (.int Int64.minValue) (.int (-1))) := by
  have builtin (operation : Operation) :
      Evaluator.called? {} World.initial.env operation.symbol = some operation.method := by
    cases operation <;> rfl
  have lawful := integers_lawful {} .initial builtin .literals ⟨0, 1⟩
  have computed (operation : Operation) (a b : Int64) :=
    Spelling.literals.run_answered operation.method ⟨0, 1⟩ .initial (.int a) (.int b) _
      (builtin operation) rfl (perform_arithmetic operation a b {} .initial ⟨[], []⟩)
  have quotient := computed .div (-7) 2
  have remainder := computed .rem (-7) 2
  have refused := computed .div Int64.minValue (-1)
  have division := lawful.belong (-7) 2 (-3) (-1) quotient remainder
  have fails : Fails .initial (Spelling.literals.run "/" ⟨0, 1⟩ .initial
      (.int Int64.minValue) (.int (-1))) := ⟨_, refused⟩
  exact ⟨builtin, quotient, remainder, division.1, division.2.1, fails,
    (lawful.together _ _).mp fails⟩

end ChainScript.Prelude
