import AuditFields.Json.Basic

/-!
# Reading JSON numbers

A number is read into a significand of at most 64 bits and a power of ten. Digits of the integer
part that no longer fit raise the power, digits of the fraction that no longer fit are dropped, and
the value is the rounded significand times or over the rounded power of ten. For long numbers this
is not always the nearest representable number, and it is the rule here.
-/

namespace AuditFields.Json.Number

/-- The significand stays below this bound. -/
def bound : Nat := Nat.pow 2 64

def digitValue (c : Char) : Nat :=
  c.toNat - '0'.toNat

/-- Appends digits to a significand while it stays below the bound; the digits left over from the
first that does not fit. -/
def append (significand : Nat) : List Char → Nat × List Char
  | [] => (significand, [])
  | c :: cs =>
    let longer := significand * 10 + digitValue c
    if longer < bound then append longer cs else (significand, c :: cs)

/-- The number nearest to `10 ^ k`. -/
def powerOfTen (k : Nat) : Binary64 :=
  .ofDecimal false 1 k

/-- A number over `10 ^ k`, in steps of at most `10 ^ 308`. A zero stays as it is. -/
def divideByPower (x : Binary64) (k : Nat) : Binary64 :=
  if k ≤ 308 then x.div (powerOfTen k)
  else if x.isZero then x
  else divideByPower (x.div (powerOfTen 308)) (k - 308)
termination_by k

/-- The significand times the power of ten, or nothing if that is beyond the finite numbers. -/
def scaled (significand : Nat) (exponent : Int) : Option Binary64 :=
  let x := Binary64.ofNat significand
  if exponent < 0 then some (divideByPower x (-exponent).toNat)
  else if exponent ≤ 308 then
    let product := x.mul (powerOfTen exponent.toNat)
    if product.isInfinite then none else some product
  else if x.isZero then some x else none

def signed (negative : Bool) (x : Binary64) : Json :=
  .float (if negative then x.neg else x)

/-- An integer literal that fits the bound. Minus zero and the negative numbers below `-2 ^ 63` are
no integers. -/
def integer (negative : Bool) (significand : Nat) : Json :=
  if !negative then .int significand
  else if 0 < significand && significand ≤ Nat.pow 2 63 then .int (-significand)
  else signed true (.ofNat significand)

/-- The exponent of a number: a letter, a sign if there is one, and at least one digit. The sign is
returned apart, for an exponent of zero too. -/
def exponentPart : List Char → Option (Bool × Nat × List Char)
  | [] => none
  | c :: cs =>
    let negative := c == '-'
    let cs := if c == '-' || c == '+' then cs else c :: cs
    let digits := cs.takeWhile Char.isDigit
    if digits.isEmpty then none
    else some (negative, Nat.ofDigitChars 10 digits 0, cs.dropWhile Char.isDigit)

/-- The number of a significand and the power of ten read so far, with the exponent that may follow.
Exponents from `2 ^ 31` on are not worked out: they give zero, or a number out of range. -/
def withExponent (negative : Bool) (significand : Nat) (power : Int) (cs : List Char) :
    Option (Json × List Char) :=
  match cs with
  | c :: rest =>
    if c == 'e' || c == 'E' then do
      let (below, exponent, rest) ← exponentPart rest
      if exponent < Nat.pow 2 31 then
        let power := if below then power - exponent else power + exponent
        let x ← scaled significand power
        return (signed negative x, rest)
      else if below || significand = 0 then return (signed negative (.zero false), rest)
      else none
    else (scaled significand power).map (signed negative ·, cs)
  | [] => (scaled significand power).map (signed negative ·, [])

/-- Reads a number after its sign: no zero before another digit, and a digit after a point. -/
def read (negative : Bool) (cs : List Char) : Option (Json × List Char) :=
  let whole := cs.takeWhile Char.isDigit
  let rest := cs.dropWhile Char.isDigit
  let leadingZero := whole.length > 1 && whole.head? == some '0'
  if whole.isEmpty || leadingZero then none
  else
    let (significand, excess) := append 0 whole
    match rest with
    | '.' :: tail =>
      let fraction := tail.takeWhile Char.isDigit
      if fraction.isEmpty then none
      else
        let (significand, dropped) := append significand fraction
        let used := fraction.length - dropped.length
        withExponent negative significand ((excess.length : Int) - used)
          (tail.dropWhile Char.isDigit)
    | c :: _ =>
      if c == 'e' || c == 'E' || !excess.isEmpty then
        withExponent negative significand excess.length rest
      else some (integer negative significand, rest)
    | [] =>
      if excess.isEmpty then some (integer negative significand, [])
      else withExponent negative significand excess.length []

end AuditFields.Json.Number
