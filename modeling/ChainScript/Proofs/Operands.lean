import ChainScript.Proofs.Conversions
import ChainScript.Proofs.IntegerArithmetic

/-!
Operands. A value can stand in a script as a literal, or a host puts it there, and a method gets the
same value either way. A method that computes takes integers and doubles as they are. It takes
nothing else, unless a converter makes a double of it, and those of the prelude do not.
-/

namespace ChainScript

/-- A way to write values as terms, each of which adds its value to those on its right. -/
structure Spelling (evaluator : Evaluator) where
  term : Value → Expr
  adds : ∀ value walk,
    walkTerm evaluator.onward evaluator (term value) walk = pure (walk.add value)

def Fails (world : World) (result : EStateM.Result Halt World Value) : Prop :=
  ∃ fault, result = .error (.fault fault) world

namespace Spelling

variable {evaluator : Evaluator} (spelling : Spelling evaluator)

def stubs : Spelling evaluator := ⟨.stub, fun _ _ => rfl⟩

def literals : Spelling evaluator where
  term
    | .int n => .number (.int n)
    | .float x => .number (.decimal x)
    | .text s => .text s
    | value => .stub value
  adds value walk := by cases value <;> rfl

def run (name : String) (place : Position) (world : World) (left right : Value) :
    EStateM.Result Halt World Value :=
  evaluator.evaluate (.chain (.identifier name place :: [left, right].map spelling.term)) world

theorem run_stubs (name : String) (world : World) (left right : Value) :
    (stubs : Spelling evaluator).run name default world left right =
      evaluator.call name [left, right] world := rfl

theorem run_answered (method : Method) (place : Position) (world : World) (left right : Value)
    (outcome : Except Complaint Value)
    (builtin : evaluator.called? world.env method.name = some method) (arity : method.arity = 2)
    (answers : perform evaluator.onward evaluator (method.body [left, right] []) ⟨[], []⟩ world =
      .ok (outcome.mapError .complaint, ⟨[], []⟩) world) :
    spelling.run method.name place world left right =
      Prelude.callEnd method.name place world outcome :=
  Prelude.evaluate_answered place evaluator world method [left, right] spelling.term id outcome
    spelling.adds builtin arity.symm answers

end Spelling

namespace Prelude

variable (name : String) (place : Position) (world : World) (outcome : Except Complaint Value)

theorem callEnd_eq_ok_iff (value : Value) :
    callEnd name place world outcome = .ok value world ↔ outcome = .ok value := by
  cases outcome <;> simp [callEnd]

theorem fails_callEnd_iff :
    Fails world (callEnd name place world outcome) ↔ ∀ value, outcome ≠ .ok value := by
  cases outcome <;> simp [callEnd, Fails]

/-! Values taken as numbers. -/

def operand? : Value → Option Operand
  | .int n => some (.int n)
  | .float x => some (.float x)
  | _ => none

def Operand.value : Operand → Value
  | .int n => .int n
  | .float x => .float x

theorem operand?_eq_some_iff (value : Value) (x : Operand) :
    operand? value = some x ↔ value = x.value := by
  cases value <;> cases x <;> simp [operand?, Operand.value]

/-- Whether no converter makes a double of anything but an integer. -/
def FloatsOfPrelude (env : Environment) : Prop :=
  ∀ converter ∈ env.converters, converter.target = .float → converter = intToFloat

section

variable (onward : Onward) (evaluator : Evaluator) (value : Value) (next : Operand → Routine)
  (options : Options)

theorem perform_operand (taken : Operand) :
    perform onward evaluator (operand taken.value next) options world =
      perform onward evaluator (next taken) options world := by
  cases taken <;> rfl

theorem expect_float_refused (floats : FloatsOfPrelude world.env) (other : operand? value = none) :
    world.env.expect .float value = .error (.complaint (.conversion .float value.typeName)) := by
  have declined : world.env.converted .float value = none := by
    rw [← Option.not_isSome_iff_eq_none, Environment.isSome_converted_iff]
    rintro ⟨converter, found, made⟩
    by_cases target : converter.target = .float
    · rw [floats converter found target] at made
      cases value with
      | int n => cases other
      | _ => cases made
    · rw [convert?_of_other converter .float value target] at made
      cases made
  have refused : world.env.convert .float value = none := by
    rw [Environment.convert_eq, declined]
    cases value with
    | float x => cases other
    | _ => rfl
  simp only [Environment.expect, refused]

theorem perform_operand_refused (floats : FloatsOfPrelude world.env)
    (other : operand? value = none) :
    perform onward evaluator (operand value next) options world =
      .ok (.error (.complaint (.conversion .float value.typeName)), options) world := by
  have refused := expect_float_refused world value floats other
  have asked : operand value next = .convert .float value (Routine.andThen fun x =>
      next (.float x)) := by
    cases value with
    | int n => cases other
    | _ => rfl
  simp only [asked, perform, Run.ask, Bind.bind, EStateM.bind, refused]
  rfl

end

end Prelude

end ChainScript
