import ChainScript.Proofs.Deliveries
import ChainScript.Proofs.TextLayout

/-!
Arithmetic of integers. What an operation stands for is said over all integers, without limits. The
method has that number for its result whenever 64 bits hold it, but for the one remainder whose
quotient is too large; else it complains of a division by zero or of a result that is too large.
-/

namespace ChainScript.Prelude

/-! What operations stand for. -/

/-- A division whose quotient is cut toward zero: what remains is less than the divisor, and on the
same side of zero as the dividend. -/
structure Division (a b q r : Int) : Prop where
  whole : a = b * q + r
  small : r.natAbs < b.natAbs
  above : 0 ≤ a → 0 ≤ r
  below : a ≤ 0 → r ≤ 0

namespace Operation

/-- Whether an operation has a number for its result over all integers. There is one such number,
but none behind a division by zero. -/
def Means : Operation → Int → Int → Int → Prop
  | .add, a, b, n => n = a + b
  | .sub, a, b, n => n = a - b
  | .mul, a, b, n => n = a * b
  | .div, a, b, n => ∃ r, Division a b n r
  | .rem, a, b, n => ∃ q, Division a b q n

/-- Whether it is the remainder that is refused for its quotient, which is one too large. -/
def Refuses (operation : Operation) (a b : Int64) : Prop :=
  operation = .rem ∧ a = Int64.minValue ∧ b = -1

def method (operation : Operation) : Method :=
  ⟨operation.symbol, 2, false, arithmeticBody operation⟩

def script (operation : Operation) (place : Position) (a b : Int64) : Expr :=
  .chain (.identifier operation.symbol place :: [a, b].map fun n => .number (.int n))

end Operation

/-- What comes of an operation on two integers: a result if there is one that 64 bits hold, or one
of two complaints. -/
structure Computes (operation : Operation) (a b : Int64) (outcome : Except Complaint Value) :
    Prop where
  result : ∀ n : Int64, outcome = .ok (.int n) ↔
    operation.Means a.toInt b.toInt n.toInt ∧ ¬ operation.Refuses a b
  byZero : outcome = .error .divisionByZero ↔ operation.divides = true ∧ b = 0
  overflow : outcome = .error (.overflow operation.symbol a b) ↔
    ¬ (operation.divides = true ∧ b = 0) ∧
      ((∀ n : Int64, ¬ operation.Means a.toInt b.toInt n.toInt) ∨ operation.Refuses a b)
  settled : (∃ n, outcome = .ok (.int n)) ∨ outcome = .error .divisionByZero ∨
    outcome = .error (.overflow operation.symbol a b)

/-- How a call ends that comes to this: with the value, or with the complaint at the place of the
call. The world is as before in any case. -/
def callEnd (name : String) (place : Position) (world : World) :
    Except Complaint Value → EStateM.Result Halt World Value
  | .ok value => .ok value world
  | .error cause => .error (.fault (.inMethod name cause place)) world

/-! Numbers of 64 bits. -/

theorem tmod_nonpos (a b : Int) (down : a ≤ 0) : a.tmod b ≤ 0 := by
  have mirrored := Int.tmod_nonneg b (Int.neg_nonneg_of_nonpos down)
  rw [Int.neg_tmod] at mirrored
  omega

theorem division_iff (a b q r : Int) :
    Division a b q r ↔ b ≠ 0 ∧ q = a.tdiv b ∧ r = a.tmod b := by
  constructor
  · rintro ⟨whole, small, above, below⟩
    have divisible : b ≠ 0 := by
      rintro rfl
      exact Nat.not_lt_zero _ small
    have sum : r + b * q = a := by omega
    rcases Int.le_total 0 a with up | down
    · have unique := (Int.tdiv_tmod_unique up divisible).mpr ⟨sum, above up, by omega⟩
      exact ⟨divisible, unique.1.symm, unique.2.symm⟩
    · have unique := (Int.tdiv_tmod_unique' down divisible).mpr ⟨sum, by omega, below down⟩
      exact ⟨divisible, unique.1.symm, unique.2.symm⟩
  · rintro ⟨divisible, rfl, rfl⟩
    refine ⟨(Int.mul_tdiv_add_tmod a b).symm, ?_, Int.tmod_nonneg b, tmod_nonpos a b⟩
    rw [Int.natAbs_tmod]
    exact Nat.mod_lt _ (Int.natAbs_pos.mpr divisible)

theorem Operation.means_iff (operation : Operation) (a b n : Int) :
    operation.Means a b n ↔
      ¬ (operation.divides = true ∧ b = 0) ∧ n = operation.exact a b := by
  cases operation with
  | add => simp [Means, divides, exact]
  | sub => simp [Means, divides, exact]
  | mul => simp [Means, divides, exact]
  | div => simp [Means, divides, exact, division_iff]
  | rem => simp [Means, divides, exact, division_iff]

theorem fits_toInt (n : Int64) : Number.fits n.toInt = true :=
  (Number.fits_iff_bounds _).mpr ⟨n.le_toInt, n.toInt_lt⟩

theorem toInt_ofInt_of_fits (n : Int) (inRange : Number.fits n = true) :
    (Int64.ofInt n).toInt = n := by
  have bounds := (Number.fits_iff_bounds n).mp inRange
  exact Int64.toInt_ofInt_of_le bounds.1 bounds.2

theorem toInt_ne_zero (b : Int64) (divisible : b ≠ 0) : b.toInt ≠ 0 := by
  intro zero
  exact divisible (Int64.toInt_inj.mp zero)

theorem eq_minValue_iff (a : Int64) : a = Int64.minValue ↔ a.toInt = -2 ^ 63 :=
  Int64.toInt_inj.symm

theorem eq_minusOne_iff (b : Int64) : b = -1 ↔ b.toInt = -1 := Int64.toInt_inj.symm

-- By 1 and by -1 the dividend keeps its size. By anything else the quotient is at most half as
-- large, and far inside of the bounds.
/-- Of all quotients only that of the least integer by -1 is too large. -/
theorem fits_tdiv (a b : Int64) (divisible : b ≠ 0) :
    Number.fits (a.toInt.tdiv b.toInt) = true ↔ ¬ (a = Int64.minValue ∧ b = -1) := by
  have low := a.le_toInt
  have high := a.toInt_lt
  rw [Number.fits_iff_bounds, eq_minValue_iff, eq_minusOne_iff]
  by_cases one : b.toInt = 1
  · rw [one, Int.tdiv_one]
    omega
  · by_cases minusOne : b.toInt = -1
    · rw [minusOne, Int.tdiv_neg, Int.tdiv_one]
      omega
    · have nonzero := toInt_ne_zero b divisible
      have size := Int.natAbs_tdiv a.toInt b.toInt
      have half : a.toInt.natAbs.div b.toInt.natAbs ≤ a.toInt.natAbs / 2 :=
        Nat.div_le_div_left (by omega) (by decide)
      omega

theorem fits_tmod (a b : Int64) : Number.fits (a.toInt.tmod b.toInt) = true := by
  have low := a.le_toInt
  have high := a.toInt_lt
  have size := Int.natAbs_tmod a.toInt b.toInt
  have small := Nat.mod_le a.toInt.natAbs b.toInt.natAbs
  have below := tmod_nonpos a.toInt b.toInt
  rw [Number.fits_iff_bounds]
  omega

/-! Outcomes. -/

section

variable (operation : Operation) (a b : Int64)

/-- The method looks at a number that fits just if the result does, but for one remainder. -/
theorem fits_bound (defined : ¬ (operation.divides = true ∧ b = 0)) :
    Number.fits (operation.bound a.toInt b.toInt) = true ↔
      Number.fits (operation.exact a.toInt b.toInt) = true ∧ ¬ operation.Refuses a b := by
  cases operation with
  | rem =>
      have divisible : b ≠ 0 := by simpa [Operation.divides] using defined
      have quotient := fits_tdiv a b divisible
      simpa [Operation.bound, Operation.exact, Operation.Refuses, fits_tmod a b] using quotient
  | _ => simp [Operation.bound, Operation.Refuses]

theorem meant_iff (n : Int64) :
    operation.Means a.toInt b.toInt n.toInt ↔
      ¬ (operation.divides = true ∧ b = 0) ∧ n.toInt = operation.exact a.toInt b.toInt := by
  have zero : b.toInt = 0 ↔ b = 0 := by rw [← Int64.toInt_zero, Int64.toInt_inj]
  rw [operation.means_iff, zero]

theorem compute_byZero (zero : operation.divides = true ∧ b = 0) :
    compute operation (.int a) (.int b) = .error .divisionByZero := by
  simp [compute, zero]

theorem compute_defined (defined : ¬ (operation.divides = true ∧ b = 0)) :
    compute operation (.int a) (.int b) =
      if Number.fits (operation.bound a.toInt b.toInt) then
        .ok (.int (.ofInt (operation.exact a.toInt b.toInt)))
      else .error (.overflow operation.symbol a b) := by
  simp only [compute, Bool.and_eq_true, beq_iff_eq, if_neg defined]

theorem compute_result (n : Int64) (meant : operation.Means a.toInt b.toInt n.toInt)
    (accepted : ¬ operation.Refuses a b) :
    compute operation (.int a) (.int b) = .ok (.int n) := by
  obtain ⟨defined, same⟩ := (meant_iff operation a b n).mp meant
  have bounded := (fits_bound operation a b defined).mpr ⟨same ▸ fits_toInt n, accepted⟩
  rw [compute_defined operation a b defined, if_pos bounded, ← same, Int64.ofInt_toInt]

theorem compute_overflow (defined : ¬ (operation.divides = true ∧ b = 0))
    (impossible : (∀ n : Int64, ¬ operation.Means a.toInt b.toInt n.toInt) ∨
      operation.Refuses a b) :
    compute operation (.int a) (.int b) = .error (.overflow operation.symbol a b) := by
  have unbounded : ¬ Number.fits (operation.bound a.toInt b.toInt) = true := by
    rw [fits_bound operation a b defined]
    rintro ⟨inRange, accepted⟩
    rcases impossible with nothing | refused
    · apply nothing (.ofInt (operation.exact a.toInt b.toInt))
      exact (meant_iff operation a b _).mpr ⟨defined, toInt_ofInt_of_fits _ inRange⟩
    · exact accepted refused
  rw [compute_defined operation a b defined, if_neg unbounded]

/-- An operation on two integers has the result that it stands for, if there is one that 64 bits
hold and it is not refused. -/
theorem computes : Computes operation a b (compute operation (.int a) (.int b)) := by
  have unique (m n : Int64) (meant : operation.Means a.toInt b.toInt m.toInt)
      (meant' : operation.Means a.toInt b.toInt n.toInt) : m = n := by
    apply Int64.toInt_inj.mp
    exact ((meant_iff _ _ _ m).mp meant).2.trans ((meant_iff _ _ _ n).mp meant').2.symm
  by_cases zero : operation.divides = true ∧ b = 0
  · have nothing (n : Int64) : ¬ operation.Means a.toInt b.toInt n.toInt :=
      fun meant => ((meant_iff _ _ _ n).mp meant).1 zero
    rw [compute_byZero operation a b zero]
    exact ⟨by simp [nothing], by simp [zero], by simp [zero], .inr (.inl rfl)⟩
  · by_cases held : (∃ n : Int64, operation.Means a.toInt b.toInt n.toInt) ∧
        ¬ operation.Refuses a b
    · obtain ⟨⟨m, meant⟩, accepted⟩ := held
      rw [compute_result operation a b m meant accepted]
      refine ⟨?_, by simp [zero], ?_, .inl ⟨m, rfl⟩⟩
      · intro n
        constructor
        · rintro ⟨⟩
          exact ⟨meant, accepted⟩
        · rintro ⟨meant', _⟩
          rw [unique m n meant meant']
      · simpa [zero, accepted] using ⟨m, meant⟩
    · have impossible : (∀ n : Int64, ¬ operation.Means a.toInt b.toInt n.toInt) ∨
          operation.Refuses a b := by
        rw [not_and_or, not_exists, not_not] at held
        exact held
      rw [compute_overflow operation a b zero impossible]
      refine ⟨?_, by simp [zero], by simp [zero, impossible], .inr (.inr rfl)⟩
      intro n
      simpa using fun meant => impossible.resolve_left fun nothing => nothing n meant

end

/-! Calls. -/

section

variable (operation : Operation) (a b : Int64) (place : Position) (evaluator : Evaluator)
  (world : World)

theorem perform_arithmetic (options : Options) :
    perform evaluator.onward evaluator (arithmeticBody operation [.int a, .int b] []) options
        world =
      .ok ((compute operation (.int a) (.int b)).mapError .complaint, options) world := by
  have body : arithmeticBody operation [.int a, .int b] [] =
      match compute operation (.int a) (.int b) with
      | .ok value => .answer value
      | .error cause => .complain cause :=
    if_neg (by simp [isText])
  rw [body]
  cases compute operation (.int a) (.int b) <;> rfl

theorem evaluate_answered {γ : Type} (method : Method) (args : List γ) (term : γ → Expr)
    (value : γ → Value) (outcome : Except Complaint Value)
    (constant : ∀ arg walk, walkTerm evaluator.onward evaluator (term arg) walk =
      pure (walk.add (value arg)))
    (builtin : evaluator.called? world.env method.name = some method)
    (arity : args.length = method.arity)
    (answers : perform evaluator.onward evaluator (method.body (args.map value) []) ⟨[], []⟩ world =
      .ok (outcome.mapError .complaint, ⟨[], []⟩) world) :
    evaluator.evaluate (.chain (.identifier method.name place :: args.map term)) world =
      callEnd method.name place world outcome := by
  have walked : walkTerms evaluator.onward evaluator (.start place) (args.map term) world =
      .ok ⟨args.map value, [], place⟩ world := by
    rw [walkTerms_map evaluator.onward evaluator value args term (.start place) constant]
    simp only [Walk.start, List.append_nil]
    rfl
  let run : Run Value := Run.ofExcept (outcome.mapError .complaint)
  have attempted : perform evaluator.onward evaluator (method.body (args.map value) []) ⟨[], []⟩
      world = (run.attempt >>= fun result => pure (result, ⟨[], []⟩)) world := by
    refine answers.trans ?_
    simp only [run]
    cases outcome <;> rfl
  rw [evaluator.evaluate_call method.name place _ _ method run world walked builtin
    (by rw [List.length_map, arity]) attempted]
  simp only [run]
  cases outcome <;> rfl

/-- Where the word for an operation calls its method, it does so with the integers behind it. -/
theorem evaluate_operation (term : Int64 → Expr)
    (constant : ∀ n walk, walkTerm evaluator.onward evaluator (term n) walk =
      pure (walk.add (.int n)))
    (builtin : evaluator.called? world.env operation.symbol = some operation.method) :
    evaluator.evaluate (.chain (.identifier operation.symbol place :: [a, b].map term)) world =
      callEnd operation.symbol place world (compute operation (.int a) (.int b)) :=
  evaluate_answered place evaluator world operation.method [a, b] term .int _ constant builtin rfl
    (perform_arithmetic operation a b evaluator world ⟨[], []⟩)

end

/-- Arithmetic of integers fails only when it has to, but for one remainder. Wherever the word for
an operation stands for the method of the prelude, a script and a host that calls it with two
integers have the same outcome. It is the exact result, the quotient cut toward zero and the
remainder with the sign of the dividend, just if there is one and 64 bits hold it, unless it is the
remainder of the least integer by -1. Otherwise it is a complaint: of a division by zero, or of a
result that is too large. -/
theorem integers_computed (operation : Operation) (a b : Int64) :
    ∃ outcome, Computes operation a b outcome ∧
      ∀ (evaluator : Evaluator) (world : World),
        evaluator.called? world.env operation.symbol = some operation.method →
        (∀ place, evaluator.evaluate (operation.script place a b) world =
          callEnd operation.symbol place world outcome) ∧
        evaluator.call operation.symbol [.int a, .int b] world =
          callEnd operation.symbol default world outcome := by
  refine ⟨compute operation (.int a) (.int b), computes operation a b, ?_⟩
  intro evaluator world builtin
  constructor
  · intro place
    exact evaluate_operation operation a b place evaluator world (fun n => .number (.int n))
      (fun _ _ => rfl) builtin
  · exact evaluate_operation operation a b default evaluator world (fun n => .stub (.int n))
      (fun _ _ => rfl) builtin

/-- The quotient is cut toward zero, and the least remainder is refused. -/
theorem integers_computed_cut :
    Evaluator.called? {} World.initial.env "/" = some Operation.div.method ∧
    Evaluator.evaluate {} (Operation.div.script ⟨0, 1⟩ (-7) 2) .initial = .ok (.int (-3)) .initial ∧
    Evaluator.call {} "%" [.int Int64.minValue, .int (-1)] .initial =
      .error (.fault (.inMethod "%" (.overflow "%" Int64.minValue (-1)) default)) .initial := by
  obtain ⟨quotient, computed, ends⟩ := integers_computed .div (-7) 2
  obtain ⟨remainder, refused, ends'⟩ := integers_computed .rem Int64.minValue (-1)
  have cut : quotient = .ok (.int (-3)) :=
    (computed.result (-3)).mpr
      ⟨⟨-1, by decide, by decide, by decide, by decide⟩, fun refused => nomatch refused.1⟩
  have large : remainder = .error (.overflow "%" Int64.minValue (-1)) :=
    refused.overflow.mpr ⟨by decide, .inr ⟨rfl, rfl, rfl⟩⟩
  refine ⟨rfl, ?_, ?_⟩
  · rw [(ends {} .initial rfl).1, cut]
    rfl
  · have call := (ends' {} .initial rfl).2
    rw [large] at call
    exact call

/-- A remainder can be refused that 64 bits hold. -/
theorem remainder_refused :
    Operation.rem.Means Int64.minValue.toInt (-1 : Int64).toInt (0 : Int64).toInt ∧
    (-1 : Int64) ≠ 0 ∧
    Evaluator.evaluateSource {} "% -9223372036854775808 -1" .initial =
      .error (.fault (.inMethod "%" (.overflow "%" Int64.minValue (-1)) ⟨0, 1⟩)) .initial := by
  refine ⟨⟨2 ^ 63, by decide, by decide, by decide, by decide⟩, by decide, ?_⟩
  have read : parse "% -9223372036854775808 -1" =
      .ok (Operation.rem.script ⟨0, 1⟩ Int64.minValue (-1)) := by
    cbv
  simp only [Evaluator.evaluateSource, read]
  exact evaluate_operation .rem Int64.minValue (-1) ⟨0, 1⟩ {} .initial
    (fun n => .number (.int n)) (fun _ _ => rfl) rfl

end ChainScript.Prelude
