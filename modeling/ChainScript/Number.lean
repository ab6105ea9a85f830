import ChainScript.Numeral.Written

/-!
Number literals. A literal without a point is a 64-bit integer and one with a point a double,
also when its value is whole.
-/

namespace ChainScript

inductive Number where
  | int (n : Int64)
  | decimal (x : Float)
  deriving DecidableEq

namespace Number

def text : Number → String
  | .int n => n.toInt.repr
  | .decimal x => Numeral.shown x

/-- Numbers are the same when their kinds and values are; doubles compare as doubles do, so no
NaN is the same as itself and both zeros are the same. -/
def same : Number → Number → Bool
  | .int a, .int b => a == b
  | .decimal x, .decimal y => x == y
  | _, _ => false

def allDigits : List Char → Bool
  | [] => false
  | digits => digits.all Char.isDigit

def unsigned : List Char → List Char
  | '-' :: rest => rest
  | word => word

def isNegative (word : List Char) : Bool :=
  word.head? == some '-'

def fits (n : Int) : Bool :=
  Int64.minValue.toInt ≤ n && n ≤ Int64.maxValue.toInt

/-- The integer with this sign and size, if 64 bits hold it. -/
def int? (negative : Bool) (size : Nat) : Option Number :=
  let n : Int := if negative then -size else size
  if fits n then some (.int (.ofInt n)) else none

def decimalOf (negative : Bool) (digits places : Nat) : Number :=
  let x := Numeral.ofDecimal digits (-places)
  .decimal (if negative then -x else x)

/-- Reads an optional minus, digits, and optionally a point with more digits. -/
def read? (word : List Char) : Option Number :=
  let body := unsigned word
  let whole := body.takeWhile (· != '.')
  match body.dropWhile (· != '.') with
  | [] =>
      if allDigits whole then int? (isNegative word) (Nat.ofDigitChars 10 whole 0) else none
  | _ :: fraction =>
      if allDigits whole && allDigits fraction then
        some (decimalOf (isNegative word) (Nat.ofDigitChars 10 (whole ++ fraction) 0)
          fraction.length)
      else none

end Number

end ChainScript
