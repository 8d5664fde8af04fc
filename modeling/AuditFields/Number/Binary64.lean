/-!
# Binary floating point numbers of 64 bits

A finite number is a sign and a multiple `significand · 2 ^ power` of the least positive number
`2 ^ -1074`, so that every question about it is one about natural numbers. Quotients of natural
numbers are rounded to the nearest representable number, a tie to the even significand; reading a
decimal, multiplying and dividing are that rounding of the exact result.
-/

namespace AuditFields

/-- A number of 64 bits. A `finite` one has the magnitude `significand · 2 ^ power / 2 ^ 1074`; the
rounding below yields `significand < 2 ^ 53`, and at least `2 ^ 52` unless the power is zero. -/
inductive Binary64 where
  | finite (negative : Bool) (significand power : Nat)
  | infinite (negative : Bool)
  | nan
  deriving DecidableEq, Repr, Inhabited

namespace Binary64

/-- The binary digits of a significand. -/
def precision : Nat := 53

/-- The count of powers of two in one: the least positive number is `2 ^ -scale`. -/
def scale : Nat := 1074

/-- The largest power of a finite number. -/
def maxPower : Nat := 2045

/-- Zero with the sign. -/
def zero (negative : Bool) : Binary64 := .finite negative 0 0

/-- The number with the other sign. -/
def neg : Binary64 → Binary64
  | .finite negative significand power => .finite (!negative) significand power
  | .infinite negative => .infinite (!negative)
  | .nan => .nan

/-- Whether the number is a zero of either sign. -/
def isZero : Binary64 → Bool
  | .finite _ 0 _ => true
  | _ => false

/-- Whether the number is an infinity of either sign. -/
def isInfinite : Binary64 → Bool
  | .infinite _ => true
  | _ => false

/-! ## Rounding -/

/-- The quotient rounded to the nearest natural number, a half to the even neighbour. -/
def roundQuotient (num den : Nat) : Nat :=
  let q := num / den
  let r := num % den
  if 2 * r < den then q else if den < 2 * r then q + 1 else q + q % 2

/-- The number of the significand and power, which is an infinity when the power is too large. A
significand of one digit too many, which rounding up can give, is halved. -/
def ofParts (negative : Bool) (significand power : Nat) : Binary64 :=
  let carried := significand == Nat.pow 2 precision
  let power := if carried then power + 1 else power
  let significand := if carried then Nat.pow 2 (precision - 1) else significand
  if maxPower < power then .infinite negative else .finite negative significand power

/-- The number nearest to `num / den`. -/
def ofQuotient (negative : Bool) (num den : Nat) : Binary64 :=
  let units := num * Nat.pow 2 scale
  let power := (units / den).log2 - (precision - 1)
  ofParts negative (roundQuotient units (den * Nat.pow 2 power)) power

/-- The number nearest to a natural number. -/
def ofNat (n : Nat) : Binary64 := ofQuotient false n 1

/-- The number nearest to `digits · 10 ^ exponent`. Exponents so large that the result is an
infinity, or so small that it is zero, are settled from the count of digits. -/
def ofDecimal (negative : Bool) (digits : Nat) (exponent : Int) : Binary64 :=
  let magnitude := exponent + ((Nat.toDigits 10 digits).length : Int)
  if digits = 0 then zero negative
  else if 400 < magnitude then .infinite negative
  else if magnitude < -400 then zero negative
  else ofQuotient negative (digits * Nat.pow 10 exponent.toNat) (Nat.pow 10 (-exponent).toNat)

/-! ## Arithmetic -/

/-- The product, rounded. An infinity times a zero is no number. -/
def mul : Binary64 → Binary64 → Binary64
  | .finite n₁ m₁ p₁, .finite n₂ m₂ p₂ =>
    ofQuotient (n₁ != n₂) (m₁ * m₂ * Nat.pow 2 (p₁ + p₂)) (Nat.pow 2 (2 * scale))
  | .infinite n₁, .finite n₂ m₂ _ => if m₂ = 0 then .nan else .infinite (n₁ != n₂)
  | .finite n₁ m₁ _, .infinite n₂ => if m₁ = 0 then .nan else .infinite (n₁ != n₂)
  | .infinite n₁, .infinite n₂ => .infinite (n₁ != n₂)
  | _, _ => .nan

/-- The quotient, rounded. A zero over a zero and an infinity over an infinity are no numbers. -/
def div : Binary64 → Binary64 → Binary64
  | .finite n₁ m₁ p₁, .finite n₂ m₂ p₂ =>
    if m₂ = 0 then if m₁ = 0 then .nan else .infinite (n₁ != n₂)
    else ofQuotient (n₁ != n₂) (m₁ * Nat.pow 2 p₁) (m₂ * Nat.pow 2 p₂)
  | .infinite n₁, .finite n₂ _ _ => .infinite (n₁ != n₂)
  | .finite n₁ _ _, .infinite n₂ => zero (n₁ != n₂)
  | _, _ => .nan

end Binary64

end AuditFields
