import ChainScript.Numeral.Binary

/-!
The shortest decimal that reads back as a given double. Grids of decimals are tried from coarse
to fine; on each only the two neighbours of the value can be nearest to it.
-/

namespace ChainScript.Numeral

structure Decimal where
  digits : Nat
  exponent : Int
  deriving DecidableEq

inductive Tie where
  | up
  | even
  deriving DecidableEq

namespace Decimal

def value (d : Decimal) : Float := ofDecimal d.digits d.exponent

def ofBinary (m : Nat) (e : Int) : Decimal :=
  if 0 ≤ e then ⟨m * Nat.pow 2 e.toNat, 0⟩ else ⟨m * Nat.pow 5 (-e).toNat, e⟩

def dropZero (d : Decimal) : Decimal :=
  if d.digits % 10 = 0 then ⟨d.digits / 10, d.exponent + 1⟩ else d

def lead (d : Decimal) : Int :=
  (Nat.toDigits 10 d.digits).length - 1 + d.exponent

end Decimal

/-- The power of ten of the first digit of num / den. -/
def leadingPower (num den : Nat) : Int :=
  if den ≤ num then (Nat.toDigits 10 (num / den)).length - 1
  else -(Nat.toDigits 10 ((den - 1) / num)).length

/-- The decimals next to num / den among the multiples of 10 ^ unit, nearer first. -/
def neighbours (tie : Tie) (num den : Nat) (unit : Int) : List Decimal :=
  let num := num * Nat.pow 10 (-unit).toNat
  let den := den * Nat.pow 10 unit.toNat
  let low := num / den
  let below : Decimal := ⟨low, unit⟩
  let above := Decimal.dropZero ⟨low + 1, unit⟩
  match compare (2 * (num % den)) den with
  | .lt => [below, above]
  | .gt => [above, below]
  | .eq => if tie = .up || low % 2 = 1 then [above, below] else [below, above]

def firstReadBack (tie : Tie) (target : Float) (num den : Nat) (unit : Int) :
    Nat → Option Decimal
  | 0 => none
  | tries + 1 =>
      match (neighbours tie num den unit).find? (fun d => d.value = target) with
      | some found => some found
      | none => firstReadBack tie target num den (unit - 1) tries

/-- The fewest digits that read back as m * 2 ^ e, and of those the nearest to it. Seventeen
digits always suffice. -/
def shortest (tie : Tie) (target : Float) (m : Nat) (e : Int) : Decimal :=
  let num := m * Nat.pow 2 e.toNat
  let den := Nat.pow 2 (-e).toNat
  (firstReadBack tie target num den (leadingPower num den) 17).getD (.ofBinary m e)

end ChainScript.Numeral
