import LoxLang.Number.Shortest

/-!
# Number texts

The three written forms of a number: `text` is what a program prints, `tokenText` what
a token listing shows, `jsonText` what a token list in JSON holds.
-/

namespace LoxLang.Number

/-- `count` times the digit zero. -/
def zeros (count : Nat) : String := String.ofList (List.replicate count '0')

/-- A decimal without exponent: `1200`, `0.012`, `1.2`. -/
def Decimal.positional (d : Decimal) : String :=
  let digits := Nat.toDigits 10 d.digits
  let places := (-d.exponent).toNat
  if places == 0 then String.ofList digits ++ zeros d.exponent.toNat
  else if places < digits.length then
    String.ofList (digits.take (digits.length - places)) ++ "." ++
      String.ofList (digits.drop (digits.length - places))
  else "0." ++ zeros (places - digits.length) ++ String.ofList digits

/-- The power of ten of the leading digit. -/
def Decimal.magnitude (d : Decimal) : Int :=
  d.exponent + Int.ofNat (Nat.toDigits 10 d.digits).length - 1

/-- A decimal with one digit before the point and an exponent with its sign: `1.5e-7`. -/
def Decimal.scientific (d : Decimal) : String :=
  let digits := Nat.toDigits 10 d.digits
  let fraction := if digits.length == 1 then "" else "." ++ String.ofList (digits.drop 1)
  let exponent := d.magnitude
  let sign := if exponent < 0 then "-" else "+"
  String.ofList (digits.take 1) ++ fraction ++ "e" ++ sign ++ toString exponent.natAbs

/-- A minus sign, for a negative number other than zero. -/
def signText (negative : Bool) (m : Magnitude) : String :=
  if negative && m.significand != 0 then "-" else ""

/-- The printed form: the shortest decimal that reads back, always positional, a half going up
(`format_number`). Whole numbers have no point, and zero has no sign. -/
def text (x : Float) : String :=
  match parts x with
  | .nan => "NaN"
  | .infinite negative => if negative then "-inf" else "inf"
  | .finite negative m => signText negative m ++ (m.shortest .up).positional

/-- Is the number whole and nearer to zero than `10 ^ 15`? -/
def isSmallWhole (x : Float) : Bool :=
  match parts x with
  | .finite _ m =>
    let i := m.interval
    i.value % i.denominator == 0 && i.value / i.denominator < Nat.pow 10 15
  | _ => false

/-- The form in a token listing: as printed, but a small whole number shows one decimal. -/
def tokenText (x : Float) : String :=
  if isSmallWhole x then text x ++ ".0" else text x

/-- The form in JSON: at least one decimal from `10 ^ -5` up to `10 ^ 16`, an exponent
outside, a half going to the even neighbour; what JSON has no number for is `null`. -/
def jsonText (x : Float) : String :=
  match parts x with
  | .nan | .infinite _ => "null"
  | .finite negative m =>
    let d := m.shortest .even
    let sign := if negative then "-" else ""
    if d.digits == 0 then sign ++ "0.0"
    else if -5 ≤ d.magnitude && d.magnitude < 16 then
      sign ++ d.positional ++ if d.exponent < 0 then "" else ".0"
    else sign ++ d.scientific

/-- The number that the digits of `digits / 10 ^ places` stand for: the nearest double, a
half going to the even one, and infinity beyond the largest. -/
def ofDigits (digits places : Nat) : Float := Float.ofScientific digits true places

end LoxLang.Number
