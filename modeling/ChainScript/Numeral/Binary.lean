/-!
Doubles by their exact value, a sign with m * 2 ^ e. Every function here is stated on that
value, so that it means the same when it runs and when it is reasoned about. A tie goes to the even
significand, and a value past the largest double becomes infinite.
-/

namespace ChainScript.Numeral

open Float.Model (UnpackedFloat)
open Float.Model.Format (binary64)

/-- The double nearest to digits * 10 ^ exponent. -/
def ofDecimal (digits : Nat) (exponent : Int) : Float :=
  .ofModel (.ofScientific digits exponent)

def ofInteger (n : Int64) : Float :=
  .ofModel (.ofInt64 n)

def notANumber : Float := .ofModel (.pack .notANumber)

/-- The remainder of a division whose quotient is cut toward zero. It is exact, since both operands
are whole on the finer of the two binary grids. -/
def remainder (x y : Float) : Float :=
  match x.toModel.unpack, y.toModel.unpack with
  | .notANumber, _ | _, .notANumber | .infinity _, _ | _, .zero _ => notANumber
  | .zero _, _ | _, .infinity _ => x
  | .finite sign m e _, .finite _ n f _ =>
      let grid := min e f
      let left := (m <<< (e - grid).toNat) % (n <<< (f - grid).toNat)
      .ofModel (.pack (UnpackedFloat.round binary64 sign left grid))

def isWhole (m : Nat) (e : Int) : Bool :=
  m % Nat.pow 2 (-e).toNat == 0

def whole (m : Nat) (e : Int) : Nat :=
  m * Nat.pow 2 e.toNat / Nat.pow 2 (-e).toNat

end ChainScript.Numeral
