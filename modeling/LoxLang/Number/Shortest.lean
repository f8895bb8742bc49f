/-!
# Shortest decimals

Which decimal to write for a double. Reading a decimal gives the double whose
*rounding interval* it lies in, so every point of that interval will do. `shortest`
takes the coarsest decimal grid that has a positive point in the interval and, on it,
the point nearest to the value: no shorter decimal reads back, and none of the same
length is nearer. All arithmetic is exact, on natural numbers.
-/

namespace LoxLang.Number

/-- The decimal `digits * 10 ^ exponent`. -/
structure Decimal where
  digits : Nat
  exponent : Int
deriving DecidableEq, Repr

/-- Where to go from a point halfway between two neighbours on a grid. -/
inductive Tie where
  | up
  | even
deriving DecidableEq, Repr

/-! ## Binary parts -/

/-- A finite double without its sign: `significand * 2 ^ exponent`. -/
structure Magnitude where
  significand : Nat
  exponent : Int
  /-- The next smaller double is only half as far away as the next larger one. -/
  lopsided : Bool
deriving DecidableEq, Repr

/-- What the bits of a double say. -/
inductive Parts where
  | nan
  | infinite (negative : Bool)
  | finite (negative : Bool) (size : Magnitude)
deriving DecidableEq, Repr

/-- Splits binary64 bits: one sign, eleven exponent and fifty-two fraction bits. -/
def Parts.ofBits (bits : Nat) : Parts :=
  let negative := bits / Nat.pow 2 63 % 2 == 1
  let biased := bits / Nat.pow 2 52 % Nat.pow 2 11
  let fraction := bits % Nat.pow 2 52
  if biased == 2047 then
    if fraction == 0 then .infinite negative else .nan
  else if biased == 0 then
    .finite negative ⟨fraction, -1074, false⟩
  else
    .finite negative
      ⟨Nat.pow 2 52 + fraction, Int.ofNat biased - 1075, fraction == 0 && biased != 1⟩

/-- The parts of a double. -/
def parts (x : Float) : Parts := Parts.ofBits x.toBits.toNat

/-! ## Rounding intervals -/

/-- The reals that round to one double, over a common denominator; `closed` says that
the two ends belong to them. -/
structure Interval where
  low : Nat
  value : Nat
  high : Nat
  denominator : Nat
  closed : Bool
deriving DecidableEq, Repr

/-- Half a step to either side of the value, a quarter below a lopsided one. Ties in
reading go to the even significand, so an even one owns both ends. -/
def Magnitude.interval (m : Magnitude) : Interval :=
  let unit := Nat.pow 2 m.exponent.toNat
  { low := (4 * m.significand - if m.lopsided then 1 else 2) * unit
    value := 4 * m.significand * unit
    high := (4 * m.significand + 2) * unit
    denominator := 4 * Nat.pow 2 (-m.exponent).toNat
    closed := m.significand % 2 == 0 }

/-- Does `digits * 10 ^ exponent` lie in the interval? -/
def Interval.holds (i : Interval) (d : Decimal) : Bool :=
  let point := d.digits * Nat.pow 10 d.exponent.toNat * i.denominator
  let scale := Nat.pow 10 (-d.exponent).toNat
  if i.closed then i.low * scale ≤ point && point ≤ i.high * scale
  else i.low * scale < point && point < i.high * scale

/-- The grid point at or below the value, and how far off the value is: the remainder
and the grid's step, over one denominator. -/
def Interval.below (i : Interval) (exponent : Int) : Nat × Nat × Nat :=
  let step := Nat.pow 10 exponent.toNat * i.denominator
  let value := i.value * Nat.pow 10 (-exponent).toNat
  (value / step, value % step, step)

/-- Is the upper neighbour the one to take, `rest / step` above the lower one, `n`? -/
def Tie.takesUpper (tie : Tie) (n rest step : Nat) : Bool :=
  match compare (2 * rest) step, tie with
  | .lt, _ => false
  | .gt, _ => true
  | .eq, .up => true
  | .eq, .even => n % 2 == 1

/-- The point of the grid `10 ^ exponent` to write for the interval's value, if one of
the value's two neighbours lies in the interval. -/
def Interval.onGrid (tie : Tie) (i : Interval) (exponent : Int) : Option Decimal :=
  let (n, rest, step) := i.below exponent
  let lower : Decimal := ⟨n, exponent⟩
  let upper : Decimal := ⟨n + 1, exponent⟩
  match n != 0 && i.holds lower, i.holds upper with
  | true, true => some (if tie.takesUpper n rest step then upper else lower)
  | true, false => some lower
  | false, true => some upper
  | false, false => none

/-- Tries the grids `10 ^ exponent`, `10 ^ (exponent - 1)`, … in turn. -/
def Interval.search (tie : Tie) (i : Interval) : Nat → Int → Decimal
  | 0, exponent => ⟨(i.below exponent).1, exponent⟩
  | tries + 1, exponent =>
    match i.onGrid tie exponent with
    | some d => d
    | none => i.search tie tries (exponent - 1)

/-- The shortest decimal that reads back as the magnitude, the nearest of those.
The first grid is coarser than the value; the last one tried is fine enough for every
double, the smallest of which is about `5 * 10 ^ -324`. -/
def Magnitude.shortest (tie : Tie) (m : Magnitude) : Decimal :=
  if m.significand == 0 then ⟨0, 0⟩
  else
    let i := m.interval
    let places := (Nat.toDigits 10 (i.value / i.denominator)).length
    i.search tie (places + 345) places

end LoxLang.Number
