import AuditFields.Number.Binary64

/-!
# Decimal text of binary floating point numbers

The shortest decimal that reads back as a given number, and the texts made of its digits. A decimal
reads back when it lies in the interval of reals that round to the number, which contains its ends
exactly when the significand is even. For each count of digits only the two multiples of the last
place around the number need a test; the first count with a hit wins, and of two hits the nearer.
How the digits are laid out (which exponents are written out, the sign of an exponent, which way a
tie goes) is a `Decimal.Format`.
-/

namespace AuditFields

/-- The value `digits · 10 ^ exponent`. -/
structure Decimal where
  digits : Nat
  exponent : Int
  deriving DecidableEq, Repr

namespace Decimal

/-- The same value without zeros at the end of the digits. -/
def strip (digits : Nat) (exponent : Int) : Decimal :=
  if h : digits ≠ 0 ∧ digits % 10 = 0 then strip (digits / 10) (exponent + 1)
  else ⟨digits, exponent⟩
termination_by digits
decreasing_by omega

/-! ## The shortest digits -/

/-- The reals that round to a finite number, with the number itself: all of them are numerators over
`denominator`. -/
structure Interval where
  lower : Nat
  value : Nat
  upper : Nat
  denominator : Nat
  closed : Bool

/-- The reals that round to `significand · 2 ^ power / 2 ^ 1074`. Below a power of two the spacing
halves, and with it the lower half of the interval. -/
def Interval.around (significand power : Nat) : Interval :=
  let below := if significand = Nat.pow 2 (Binary64.precision - 1) ∧ 0 < power then 1 else 2
  { lower := (4 * significand - below) * Nat.pow 2 power
    value := 4 * significand * Nat.pow 2 power
    upper := (4 * significand + 2) * Nat.pow 2 power
    denominator := Nat.pow 2 (Binary64.scale + 2)
    closed := significand % 2 = 0 }

/-- Whether `digits · 10 ^ exponent` lies in the interval. -/
def Interval.holds (i : Interval) (digits : Nat) (exponent : Int) : Bool :=
  let point := digits * Nat.pow 10 exponent.toNat * i.denominator
  let lower := i.lower * Nat.pow 10 (-exponent).toNat
  let upper := i.upper * Nat.pow 10 (-exponent).toNat
  if i.closed then lower ≤ point && point ≤ upper else lower < point && point < upper

/-- The count of digits before the decimal point: the least `k` with the value below `10 ^ k`. The
binary logarithm gives it up to one. -/
def Interval.integerDigits (i : Interval) : Int :=
  let guess := (((i.value.log2 : Int) - i.denominator.log2) * 30103).fdiv 100000
  let candidates := [guess - 1, guess, guess + 1]
  (candidates.find? fun k =>
    i.value * Nat.pow 10 (-k).toNat < Nat.pow 10 k.toNat * i.denominator).getD (guess + 2)

/-- Which of two equally near decimals is chosen. -/
inductive Tie where
  | toEven
  | up
  deriving DecidableEq, Repr

/-- The nearest multiple of `10 ^ exponent` in the interval, if one is there. -/
def Interval.nearestMultiple? (tie : Tie) (i : Interval) (exponent : Int) : Option Nat :=
  let value := i.value * Nat.pow 10 (-exponent).toNat
  let unit := Nat.pow 10 exponent.toNat * i.denominator
  let low := value / unit
  let roundsUp :=
    let twice := 2 * (value % unit)
    unit < twice || (twice == unit && (tie == .up || low % 2 == 1))
  match i.holds low exponent && 0 < low, i.holds (low + 1) exponent with
  | true, true => some (if roundsUp then low + 1 else low)
  | true, false => some low
  | false, true => some (low + 1)
  | false, false => none

/-- The shortest decimal that reads back as `significand · 2 ^ power / 2 ^ 1074`. Seventeen digits
always do. -/
def shortest (tie : Tie) (significand power : Nat) : Decimal :=
  let i := Interval.around significand power
  let places := i.integerDigits
  let hit := (List.range 17).findSome? fun n =>
    let exponent := places - (n + 1 : Nat)
    (i.nearestMultiple? tie exponent).map (strip · exponent)
  hit.getD ⟨0, 0⟩

/-! ## Laying out the digits -/

/-- How a number is written. -/
structure Format where
  /-- Which of two equally near shortest decimals is written. -/
  tie : Tie
  /-- Whether a number whose first digit stands for this power of ten is written positionally. -/
  positional : Int → Bool
  /-- Whether the exponent of the other numbers has a sign also when it is not negative. -/
  plusSign : Bool

/-- Digits and exponent written out, with at least one digit on each side of the point. -/
def positionalText (d : Decimal) : String :=
  let digits := Nat.toDigits 10 d.digits
  if 0 ≤ d.exponent then
    String.ofList (digits ++ List.replicate d.exponent.toNat '0') ++ ".0"
  else
    let places := (-d.exponent).toNat
    let padded := List.replicate (places + 1 - digits.length) '0' ++ digits
    let split := padded.length - places
    String.ofList (padded.take split) ++ "." ++ String.ofList (padded.drop split)

/-- The power of ten of the first digit. -/
def leadingPower (d : Decimal) : Int :=
  d.exponent + (Nat.toDigits 10 d.digits).length - 1

/-- The first digit, a point and the others if there are any, and the exponent after an `e`. -/
def exponentText (plusSign : Bool) (d : Decimal) : String :=
  let digits := Nat.toDigits 10 d.digits
  let power := d.leadingPower
  let fraction := if digits.length ≤ 1 then "" else "." ++ String.ofList (digits.drop 1)
  let sign := if power < 0 then "-" else if plusSign then "+" else ""
  String.ofList (digits.take 1) ++ fraction ++ "e" ++ sign ++ toString power.natAbs

/-- The text of a decimal in the format. -/
def text (format : Format) (d : Decimal) : String :=
  if d.digits = 0 || format.positional d.leadingPower then d.positionalText
  else d.exponentText format.plusSign

end Decimal

namespace Binary64

/-- The text of the shortest decimal that reads back, or the name of an infinity or of no number. -/
def text (format : Decimal.Format) : Binary64 → String
  | .finite negative significand power =>
    let magnitude :=
      if significand = 0 then ⟨0, 0⟩ else Decimal.shortest format.tie significand power
    (if negative then "-" else "") ++ magnitude.text format
  | .infinite negative => if negative then "-inf" else "inf"
  | .nan => "NaN"

end Binary64

end AuditFields
