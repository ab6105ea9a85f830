import ChainScript.Numeral.Shortest

/-!
The two written forms of a double. Scripts show it positionally, never with an exponent; tree
dumps use an exponent for very large and very small values.
-/

namespace ChainScript.Numeral

def padded (width n : Nat) : List Char :=
  let digits := Nat.toDigits 10 n
  List.replicate (width - digits.length) '0' ++ digits

def positional (d : Decimal) : String :=
  match d.exponent with
  | .ofNat e => (d.digits * Nat.pow 10 e).repr ++ ".0"
  | .negSucc e =>
      let scale := Nat.pow 10 (e + 1)
      (d.digits / scale).repr ++ "." ++ String.ofList (padded (e + 1) (d.digits % scale))

def scientific (d : Decimal) : String :=
  let power := d.lead
  let mantissa := match Nat.toDigits 10 d.digits with
    | first :: second :: rest => String.ofList (first :: '.' :: second :: rest)
    | digits => String.ofList digits
  mantissa ++ "e" ++ (if 0 ≤ power then "+" else "-") ++ power.natAbs.repr

def signText : Float.Model.UnpackedFloat.Sign → String
  | .positive => ""
  | .negative => "-"

/-- How scripts show a double: a whole number with all its digits and .0, any other by the
fewest digits that read back. -/
def shown (x : Float) : String :=
  match x.toModel.unpack with
  | .notANumber => "NaN"
  | .infinity sign => signText sign ++ "inf"
  | .zero sign => signText sign ++ "0.0"
  | .finite sign m e _ =>
      signText sign ++ positional
        (if isWhole m e then ⟨whole m e, 0⟩ else shortest .up x.abs m e)

def dumped (x : Float) : String :=
  match x.toModel.unpack with
  | .notANumber => "null"
  | .infinity _ => "null"
  | .zero sign => signText sign ++ "0.0"
  | .finite sign m e _ =>
      let d := shortest .even x.abs m e
      signText sign ++
        (if -5 ≤ d.lead && d.lead < 16 then positional d else scientific d)

end ChainScript.Numeral
